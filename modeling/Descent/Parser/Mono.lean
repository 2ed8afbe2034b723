import Descent.Parser.Run

/-!
# Larger bounds

A step extends another one if it gives every answer that the other gives. Combinators keep this
relation, loops also when their own bound grows. So a run that finishes within a bound has the
same answer within every larger one, and an expression has at most one answer at a state.
-/

namespace Descent

namespace Step

/-- Every answer of `small` is an answer of `large`. -/
def Extends (large small : Step) : Prop :=
  ∀ ⦃state result⦄, small state = some result → large state = some result

theorem Extends.refl (step : Step) : Extends step step := fun _ _ h => h

theorem extends_unfinished (step : Step) : Extends step unfinished := by
  intro state result h
  cases h

/-- Step by step, every answer of the second list is an answer of the first. -/
def ExtendsAll : List Step → List Step → Prop
  | [], [] => True
  | large :: larges, small :: smalls => Extends large small ∧ ExtendsAll larges smalls
  | _, _ => False

theorem ExtendsAll.sequenceFrom {larges smalls : List Step} (h : ExtendsAll larges smalls)
    (done : List Tree) : Extends (sequenceFrom done larges) (sequenceFrom done smalls) := by
  induction smalls generalizing larges done with
  | nil =>
    cases larges with
    | nil => exact .refl _
    | cons => exact h.elim
  | cons small smalls ih =>
    cases larges with
    | nil => exact h.elim
    | cons large larges =>
      intro state result run
      simp only [Step.sequenceFrom, Option.bind_eq_bind, Option.bind_eq_some_iff] at run ⊢
      obtain ⟨first, head, tail⟩ := run
      refine ⟨first, h.1 head, ?_⟩
      split at tail
      · rwa [if_pos ‹_›]
      · rw [if_neg ‹_›]
        exact ih h.2 _ tail

theorem ExtendsAll.choiceFrom {larges smalls : List Step} (h : ExtendsAll larges smalls)
    (ends : List State) : Extends (choiceFrom ends larges) (choiceFrom ends smalls) := by
  induction smalls generalizing larges ends with
  | nil =>
    cases larges with
    | nil => exact .refl _
    | cons => exact h.elim
  | cons small smalls ih =>
    cases larges with
    | nil => exact h.elim
    | cons large larges =>
      intro state result run
      simp only [Step.choiceFrom, Option.bind_eq_bind, Option.bind_eq_some_iff] at run ⊢
      obtain ⟨first, head, tail⟩ := run
      refine ⟨first, h.1 head, ?_⟩
      split at tail
      · rw [if_pos ‹_›]
        exact ih h.2 _ tail
      · rwa [if_neg ‹_›]

theorem Extends.lookahead {large small : Step} (h : Extends large small) :
    Extends (lookahead large) (lookahead small) := by
  intro state result run
  simp only [Step.lookahead, Option.bind_eq_bind, Option.bind_eq_some_iff] at run ⊢
  obtain ⟨first, head, tail⟩ := run
  exact ⟨first, h head, tail⟩

theorem Extends.manyFrom {large small : Step} (h : Extends large small) {m n : Nat} (le : m ≤ n)
    (done : List Tree) : Extends (manyFrom large n done) (manyFrom small m done) := by
  induction m generalizing n done with
  | zero => exact extends_unfinished _
  | succ m ih =>
    obtain ⟨n, rfl⟩ := Nat.exists_eq_succ_of_ne_zero (Nat.ne_zero_of_lt le)
    intro state result run
    simp only [Step.manyFrom, Option.bind_eq_bind, Option.bind_eq_some_iff] at run ⊢
    obtain ⟨first, head, tail⟩ := run
    refine ⟨first, h head, ?_⟩
    split at tail
    · rwa [if_pos ‹_›]
    · rw [if_neg ‹_›]
      exact ih (Nat.le_of_succ_le_succ le) _ tail

theorem Extends.many1 {large small : Step} (h : Extends large small) {m n : Nat} (le : m ≤ n) :
    Extends (many1 n large) (many1 m small) := by
  intro state result run
  simp only [Step.many1, Option.bind_eq_bind, Option.bind_eq_some_iff] at run ⊢
  obtain ⟨first, head, tail⟩ := run
  refine ⟨first, h head, ?_⟩
  split at tail
  · rwa [if_pos ‹_›]
  · rw [if_neg ‹_›]
    exact h.manyFrom le _ tail

theorem Extends.separatedFrom {large small large' small' : Step} (h : Extends large small)
    (h' : Extends large' small') {m n : Nat} (le : m ≤ n) (required : Bool) (done : List Tree) :
    Extends (separatedFrom large large' n required done)
      (separatedFrom small small' m required done) := by
  induction m generalizing n required done with
  | zero => exact extends_unfinished _
  | succ m ih =>
    obtain ⟨n, rfl⟩ := Nat.exists_eq_succ_of_ne_zero (Nat.ne_zero_of_lt le)
    intro state result run
    simp only [Step.separatedFrom, Option.bind_eq_bind, Option.bind_eq_some_iff] at run ⊢
    obtain ⟨element, head, tail⟩ := run
    refine ⟨element, h head, ?_⟩
    split at tail
    · rwa [if_pos ‹_›]
    · rw [if_neg ‹_›]
      simp only [Option.bind_eq_some_iff] at tail ⊢
      obtain ⟨mark, middle, tail⟩ := tail
      refine ⟨mark, h' middle, ?_⟩
      split at tail
      · rwa [if_pos ‹_›]
      · rw [if_neg ‹_›]
        split at tail
        · rwa [if_pos ‹_›]
        · rw [if_neg ‹_›]
          exact ih (Nat.le_of_succ_le_succ le) _ _ tail

theorem Extends.terminated {large small large' small' : Step} (h : Extends large small)
    (h' : Extends large' small') : Extends (terminated large large') (terminated small small') := by
  intro state result run
  simp only [Step.terminated, Option.bind_eq_bind, Option.bind_eq_some_iff] at run ⊢
  obtain ⟨body, head, tail⟩ := run
  refine ⟨body, h head, ?_⟩
  split at tail
  · rwa [if_pos ‹_›]
  · rw [if_neg ‹_›]
    simp only [Option.bind_eq_some_iff] at tail ⊢
    obtain ⟨closing, middle, tail⟩ := tail
    exact ⟨closing, h' middle, tail⟩

theorem Extends.production {large small : Step} (h : Extends large small) (name : String) :
    Extends (production name large) (production name small) := by
  intro state result run
  simp only [Step.production, Option.bind_eq_bind, Option.bind_eq_some_iff] at run ⊢
  obtain ⟨body, head, tail⟩ := run
  exact ⟨body, h head, tail⟩

theorem Extends.labeled {large small : Step} (h : Extends large small) (name : String) :
    Extends (labeled name large) (labeled name small) := by
  intro state result run
  simp only [Step.labeled, Option.bind_eq_bind, Option.bind_eq_some_iff] at run ⊢
  obtain ⟨body, head, tail⟩ := run
  exact ⟨body, h head, tail⟩

theorem Extends.recover {large small : Step} (h : Extends large small) (keepReports : Bool)
    {answer answer' : State → State → Option Result}
    (more : ∀ ⦃start stop result⦄, answer start stop = some result →
      answer' start stop = some result) :
    Extends (recover keepReports answer' large) (recover keepReports answer small) := by
  intro state result run
  simp only [Step.recover, Option.bind_eq_bind, Option.bind_eq_some_iff] at run ⊢
  obtain ⟨body, head, tail⟩ := run
  refine ⟨body, h head, ?_⟩
  split at tail
  · rw [if_pos ‹_›]
    exact more tail
  · rwa [if_neg ‹_›]

end Step

namespace State

theorem skipPast_mono {kind : TokenKind} {m n : Nat} (le : m ≤ n) {state stop : State}
    (h : state.skipPast kind m = some stop) : state.skipPast kind n = some stop := by
  induction m generalizing n state with
  | zero => cases h
  | succ m ih =>
    obtain ⟨n, rfl⟩ := Nat.exists_eq_succ_of_ne_zero (Nat.ne_zero_of_lt le)
    simp only [skipPast] at h ⊢
    split at h
    · rwa [if_pos ‹_›]
    · rw [if_neg ‹_›]
      split at h
      · rwa [if_pos ‹_›]
      · rw [if_neg ‹_›]
        exact ih (Nat.le_of_succ_le_succ le) h

end State

namespace Recovery

theorem answer_mono (recovery : Recovery) {m n : Nat} (le : m ≤ n) {start stop : State}
    {result : Result} (h : recovery.answer m start stop = some result) :
    recovery.answer n start stop = some result := by
  cases recovery with
  | skipPast kind =>
    simp only [answer, Option.map_eq_some_iff] at h ⊢
    obtain ⟨state, skipped, rfl⟩ := h
    exact ⟨state, State.skipPast_mono le skipped, rfl⟩
  | _ => exact h

end Recovery

namespace Parser

mutual

/-- Rules that answer more often, and loops that may go on for longer, keep every answer. -/
theorem step_mono {larger smaller : RuleId → Step} {m n : Nat} (le : m ≤ n)
    (more : ∀ id, Step.Extends (larger id) (smaller id)) :
    ∀ parser : Parser, Step.Extends (parser.step larger n) (parser.step smaller m)
  | token _ => .refl _
  | sequence parts => (steps_mono le more parts).sequenceFrom []
  | choice alternatives => (steps_mono le more alternatives).choiceFrom []
  | lookahead body => (step_mono le more body).lookahead
  | recover recovery body =>
    (step_mono le more body).recover _ fun _ _ _ h => recovery.answer_mono le h
  | many body => (step_mono le more body).manyFrom le []
  | many1 body => (step_mono le more body).many1 le
  | separated required element delimiter =>
    (step_mono le more element).separatedFrom (step_mono le more delimiter) le required []
  | terminated body terminator => (step_mono le more body).terminated (step_mono le more terminator)
  | production name body => (step_mono le more body).production name
  | labeled name body => (step_mono le more body).labeled name
  | rule id => more id
  | custom _ => .refl _

theorem steps_mono {larger smaller : RuleId → Step} {m n : Nat} (le : m ≤ n)
    (more : ∀ id, Step.Extends (larger id) (smaller id)) :
    ∀ parsers : List Parser, Step.ExtendsAll (steps larger n parsers) (steps smaller m parsers)
  | [] => trivial
  | parser :: rest => ⟨step_mono le more parser, steps_mono le more rest⟩

end

/-- A run that finishes within a bound has the same answer within every larger one. -/
theorem run_mono (table : RuleTable) {m n : Nat} (le : m ≤ n) (parser : Parser) :
    Step.Extends (parser.run table n) (parser.run table m) := by
  induction m generalizing n parser with
  | zero =>
    cases n with
    | zero => exact .refl _
    | succ n => exact step_mono le (fun _ => Step.extends_unfinished _) parser
  | succ m ih =>
    obtain ⟨n, rfl⟩ := Nat.exists_eq_succ_of_ne_zero (Nat.ne_zero_of_lt le)
    refine step_mono le (fun id => ?_) parser
    simp only [call]
    split
    · exact ih (Nat.le_of_succ_le_succ le) _
    · exact .refl _

/-- An expression has at most one answer at a state. -/
theorem Runs.unique {table : RuleTable} {parser : Parser} {state : State} {a b : Result}
    (ha : parser.Runs table state a) (hb : parser.Runs table state b) : a = b := by
  obtain ⟨m, ha⟩ := ha
  obtain ⟨n, hb⟩ := hb
  have left := run_mono table (Nat.le_max_left m n) parser ha
  have right := run_mono table (Nat.le_max_right m n) parser hb
  exact Option.some.inj (left.symm.trans right)

end Parser

end Descent
