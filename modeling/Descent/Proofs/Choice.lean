import Descent.Proofs.Evaluation.Runs
import Mathlib.Data.List.Nodup
import Mathlib.Data.List.Sort

/-!
# Ordered choice

What a choice answers is told by its alternatives alone, each of them run from the state of the
choice. The first that does not fail is taken as it is. If all of them fail, the failure of the
first that got as far as any stands for the choice. Only if none of them consumed anything the
choice reports a problem of its own, which lists what the alternatives wanted.

`Chooses` says this without a loop: no best end is carried along, and no list of wanted kinds grows.
Alternatives may be anything, custom steps included.
-/

namespace Descent

/-! ## Lists without repetitions -/

/-- `once` has the entries of `all`, each a single time and in the order of their first places. -/
structure ListsOnce {α : Type} (all once : List α) : Prop where
  distinct : once.Nodup
  same : ∀ item, item ∈ once ↔ item ∈ all
  ordered : once.Pairwise fun first later =>
    ∃ front, front <+: all ∧ first ∈ front ∧ later ∉ front

section ListsOnce

variable {α : Type} {all : List α}

/-- Entries and order leave no choice. -/
theorem ListsOnce.unique {once other : List α} (h : ListsOnce all once)
    (h' : ListsOnce all other) : once = other := by
  have members : once.Perm other := by
    rw [List.perm_ext_iff_of_nodup h.distinct h'.distinct]
    exact fun item => (h.same item).trans (h'.same item).symm
  refine members.eq_of_pairwise ?_ h.ordered h'.ordered
  rintro first later - - ⟨front, is, inside, outside⟩ ⟨front', is', inside', outside'⟩
  -- One of the two fronts is a part of the other, so both entries cannot come first.
  rcases List.prefix_or_prefix_of_prefix is is' with part | part
  · exact absurd (part.subset inside) outside'
  · exact absurd (part.subset inside') outside

variable [BEq α] [LawfulBEq α]

theorem listsOnce_eraseDups (all : List α) : ListsOnce all all.eraseDups := by
  match all with
  | [] => exact ⟨List.nodup_nil, fun _ => Iff.rfl, .nil⟩
  | head :: tail =>
    have rest := listsOnce_eraseDups (tail.filter fun item => !item == head)
    have other : ∀ item ∈ (tail.filter fun item => !item == head).eraseDups, item ≠ head := by
      intro item mem
      simpa using (List.mem_filter.mp ((rest.same item).mp mem)).2
    rw [List.eraseDups_cons]
    refine ⟨List.nodup_cons.mpr ⟨fun mem => other head mem rfl, rest.distinct⟩, ?_, ?_⟩
    · intro item
      by_cases same : item = head <;> simp [same]
    · refine List.pairwise_cons.mpr ⟨fun later mem => ?_, ?_⟩
      · exact ⟨[head], by simp, List.mem_singleton_self head, by simpa using other later mem⟩
      · refine rest.ordered.imp_of_mem ?_
        rintro first later - mem ⟨front, ⟨back, split⟩, inside, outside⟩
        obtain ⟨before, after, rfl, rfl, -⟩ := List.filter_eq_append_iff.mp split.symm
        refine ⟨head :: before, by simp, ?_, ?_⟩
        · exact List.mem_cons_of_mem head (List.mem_of_mem_filter inside)
        · intro seen
          rcases List.mem_cons.mp seen with same | seen
          · exact other later mem same
          · exact outside (List.mem_filter.mpr ⟨seen, by simpa using other later mem⟩)
termination_by all.length
decreasing_by exact Nat.lt_succ_of_le (List.length_filter_le _ _)

end ListsOnce

/-! ## The furthest end -/

namespace State

variable {start stop other : State} {ends before after : List State}

/-- How much an attempt consumed; nothing, if it went back. -/
def consumed (start stop : State) : Nat := stop.position - start.position

theorem consumed_pos_iff : 0 < start.consumed stop ↔ start.position < stop.position :=
  Nat.sub_pos_iff_lt

theorem consumed_eq_zero_iff : start.consumed stop = 0 ↔ stop.position ≤ start.position :=
  Nat.sub_eq_zero_iff_le

/-- Against an end that moved, positions tell who consumed less. -/
theorem consumed_lt_iff (moved : start.position < stop.position) :
    start.consumed other < start.consumed stop ↔ other.position < stop.position := by
  unfold consumed
  omega

theorem consumed_le_iff (moved : start.position < stop.position) :
    start.consumed other ≤ start.consumed stop ↔ other.position ≤ stop.position := by
  unfold consumed
  omega

/-- The kinds that attempts wanted, in the order of their reports: those behind the log of the
start. -/
def wanted (start : State) (ends : List State) : List String :=
  ends.flatMap fun stop =>
    (stop.log.toList.drop start.log.size).flatMap fun diagnostic => diagnostic.problem.expectations

theorem expectations_eq_eraseDups (start : State) (ends : List State) :
    start.expectations ends = (start.wanted ends).eraseDups := by
  simp only [expectations, wanted, Log.since_eq_drop]

@[simp] theorem furthest_nil : start.furthest [] = start := rfl

theorem furthest_cons :
    start.furthest (stop :: ends) =
      (if start.position < stop.position then stop else start).furthest ends := rfl

theorem furthest_append :
    start.furthest (before ++ after) = (start.furthest before).furthest after :=
  List.foldl_append

theorem le_furthest : start.position ≤ (start.furthest ends).position := by
  induction ends generalizing start with
  | nil => exact Nat.le_refl _
  | cons stop ends ih =>
    rw [furthest_cons]
    split
    · next further => exact Nat.le_of_lt (Nat.lt_of_lt_of_le further ih)
    · exact ih

theorem le_furthest_of_mem (mem : stop ∈ ends) :
    stop.position ≤ (start.furthest ends).position := by
  obtain ⟨before, after, rfl⟩ := List.append_of_mem mem
  rw [furthest_append, furthest_cons]
  split
  · exact le_furthest
  · next notFurther => exact Nat.le_trans (Nat.not_lt.mp notFurther) le_furthest

/-- If the best end did not move, no end did. -/
theorem still_of_furthest (stays : ¬ start.position < (start.furthest ends).position) :
    ∀ stop ∈ ends, stop.position ≤ start.position :=
  fun _ mem => Nat.le_trans (le_furthest_of_mem mem) (Nat.not_lt.mp stays)

/-- Ends that did not move are no better than the start. -/
theorem furthest_eq_start (still : ∀ stop ∈ ends, stop.position ≤ start.position) :
    start.furthest ends = start := by
  induction ends with
  | nil => rfl
  | cons stop ends ih =>
    obtain ⟨first, others⟩ := List.forall_mem_cons.mp still
    rw [furthest_cons, if_neg (Nat.not_lt.mpr first)]
    exact ih others

/-- The first of the ends that got as far as any is the best. -/
theorem furthest_of_first (moved : start.position < stop.position)
    (ahead : ∀ other ∈ before, other.position < stop.position)
    (most : ∀ other ∈ after, other.position ≤ stop.position) :
    start.furthest (before ++ stop :: after) = stop := by
  have less : (start.furthest before).position < stop.position := by
    rcases furthest_mem start before with same | mem
    · rwa [same]
    · exact ahead _ mem
  rw [furthest_append, furthest_cons, if_pos less]
  exact furthest_eq_start most

/-- A best end that moved is the first of those that got as far. -/
theorem exists_first_of_moved (moved : start.position < (start.furthest ends).position) :
    ∃ before after, ends = before ++ start.furthest ends :: after ∧
      (∀ other ∈ before, other.position < (start.furthest ends).position) ∧
      ∀ other ∈ after, other.position ≤ (start.furthest ends).position := by
  have mem : start.furthest ends ∈ ends := by
    rcases furthest_mem start ends with same | mem
    · rw [same] at moved
      exact absurd moved (Nat.lt_irrefl _)
    · exact mem
  have most : ∀ other ∈ ends, other.position ≤ (start.furthest ends).position :=
    fun _ mem => le_furthest_of_mem mem
  -- The first end that got as far as the best is the best, by the lemma above.
  obtain ⟨first, found⟩ : ∃ first,
      ends.find? (fun stop => (start.furthest ends).position ≤ stop.position) = some first :=
    Option.isSome_iff_exists.mp (List.find?_isSome.mpr ⟨_, mem, by simp⟩)
  obtain ⟨reaches, before, after, split, ahead⟩ := List.find?_eq_some_iff_append.mp found
  simp only [decide_eq_true_eq, Bool.not_eq_true', decide_eq_false_iff_not,
    Nat.not_le] at reaches ahead
  have most' : ∀ other ∈ after, other.position ≤ (start.furthest ends).position := by
    intro other later
    exact most other (split ▸ List.mem_append_right _ (List.mem_cons_of_mem _ later))
  have best : start.furthest ends = first := by
    conv_lhs => rw [split]
    refine furthest_of_first (Nat.lt_of_lt_of_le moved reaches) ?_ ?_
    · exact fun other earlier => Nat.lt_of_lt_of_le (ahead other earlier) reaches
    · exact fun other later => Nat.le_trans (most' other later) reaches
  exact ⟨before, after, best ▸ split, ahead, most'⟩

/-- An end that moved is the best if no other one did. -/
theorem furthest_of_only (mem : stop ∈ ends) (moved : start.position < stop.position)
    (only : ∀ other ∈ ends, other = stop ∨ other.position ≤ start.position) :
    start.furthest ends = stop := by
  have far : stop.position ≤ (start.furthest ends).position := le_furthest_of_mem mem
  rcases furthest_mem start ends with same | mem'
  · rw [same] at far
    exact absurd moved (Nat.not_lt.mpr far)
  · rcases only _ mem' with same | still
    · exact same
    · omega

theorem exhausted_of_still (still : ∀ stop ∈ ends, stop.position ≤ start.position) :
    start.exhausted ends =
      start.reject (.noAlternative (start.expectations ends) start.peek.render) := by
  rw [exhausted, furthest_eq_start still, if_neg (Nat.lt_irrefl _)]

theorem exhausted_of_moved (moved : start.position < (start.furthest ends).position) :
    start.exhausted ends = .failure (start.furthest ends) :=
  if_pos moved

theorem exhausted_of_only (mem : stop ∈ ends) (moved : start.position < stop.position)
    (only : ∀ other ∈ ends, other = stop ∨ other.position ≤ start.position) :
    start.exhausted ends = .failure stop := by
  have best := furthest_of_only mem moved only
  rw [exhausted_of_moved (by rwa [best]), best]

end State

/-! ## The reference definition -/

namespace Parser

/-- What a choice between alternatives comes to, told by how each of them runs from the start. -/
inductive Chooses (table : RuleTable) (start : State) : List Parser → Result → Prop where
  /-- The first alternative that does not fail is taken as it is. -/
  | taken {before part rest result}
      (refused : ∀ other ∈ before, ∃ stop, other.Runs table start ⟨.failed, stop⟩)
      (answer : part.Runs table start result) (success : result.tree ≠ .failed) :
      Chooses table start (before ++ part :: rest) result
  /-- All alternatives fail. The first of those that consumed most stands for them. -/
  | furthest {before after : List (Parser × State)} {part stop}
      (failures : ∀ attempt ∈ before ++ (part, stop) :: after,
        attempt.1.Runs table start ⟨.failed, attempt.2⟩)
      (moved : 0 < start.consumed stop)
      (ahead : ∀ attempt ∈ before, start.consumed attempt.2 < start.consumed stop)
      (most : ∀ attempt ∈ after, start.consumed attempt.2 ≤ start.consumed stop) :
      Chooses table start ((before ++ (part, stop) :: after).map Prod.fst) ⟨.failed, stop⟩
  /-- All alternatives fail and none consumed anything. One report says what they wanted. -/
  | nothing {attempts : List (Parser × State)} {expected}
      (failures : ∀ attempt ∈ attempts, attempt.1.Runs table start ⟨.failed, attempt.2⟩)
      (still : ∀ attempt ∈ attempts, start.consumed attempt.2 = 0)
      (listed : ListsOnce (start.wanted (attempts.map Prod.snd)) expected) :
      Chooses table start (attempts.map Prod.fst)
        ⟨.failed, start.report start.peek (.noAlternative expected start.peek.render)⟩

variable {table : RuleTable} {start : State} {alternatives : List Parser} {result : Result}

/-- Failures of all alternatives come to what the choice makes of their ends. -/
theorem chooses_exhausted {attempts : List (Parser × State)}
    (failures : ∀ attempt ∈ attempts, attempt.1.Runs table start ⟨.failed, attempt.2⟩) :
    Chooses table start (attempts.map Prod.fst) (start.exhausted (attempts.map Prod.snd)) := by
  by_cases moved : start.position < (start.furthest (attempts.map Prod.snd)).position
  · rw [State.exhausted_of_moved moved]
    obtain ⟨front, back, split, ahead, most⟩ := State.exists_first_of_moved moved
    obtain ⟨before, rest, rfl, rfl, split'⟩ := List.map_eq_append_iff.mp split
    obtain ⟨⟨part, stop⟩, after, rfl, best, rfl⟩ := List.map_eq_cons_iff.mp split'
    rw [← best] at moved ahead most ⊢
    refine .furthest failures (State.consumed_pos_iff.mpr moved) ?_ ?_
    · exact fun _ mem => (State.consumed_lt_iff moved).mpr (ahead _ (List.mem_map_of_mem mem))
    · exact fun _ mem => (State.consumed_le_iff moved).mpr (most _ (List.mem_map_of_mem mem))
  · have still := State.still_of_furthest moved
    rw [State.exhausted_of_still still, State.expectations_eq_eraseDups]
    refine .nothing failures ?_ (listsOnce_eraseDups _)
    exact fun _ mem => State.consumed_eq_zero_iff.mpr (still _ (List.mem_map_of_mem mem))

/-- What a choice comes to is how it evaluates. -/
theorem Chooses.evaluates (h : Chooses table start alternatives result) :
    (choice alternatives).Evaluates table True start result := by
  cases h with
  | taken refused answer success =>
    refine .choice_taken ?_ (runs_iff_evaluates.mp answer) success
    intro other mem
    obtain ⟨stop, failure⟩ := refused other mem
    exact ⟨stop, runs_iff_evaluates.mp failure⟩
  | @furthest before after part stop failures moved ahead most =>
    have moved' := State.consumed_pos_iff.mp moved
    have best : start.furthest ((before ++ (part, stop) :: after).map Prod.snd) = stop := by
      rw [List.map_append, List.map_cons]
      refine State.furthest_of_first moved' ?_ ?_
      · exact List.forall_mem_map.mpr fun _ mem => (State.consumed_lt_iff moved').mp (ahead _ mem)
      · exact List.forall_mem_map.mpr fun _ mem => (State.consumed_le_iff moved').mp (most _ mem)
    have answer := Evaluates.exhausted fun attempt mem =>
      runs_iff_evaluates.mp (failures attempt mem)
    rw [State.exhausted_of_moved (by rwa [best]), best] at answer
    exact answer
  | @nothing attempts expected failures still listed =>
    have still' : ∀ stop ∈ attempts.map Prod.snd, stop.position ≤ start.position :=
      List.forall_mem_map.mpr fun _ mem => State.consumed_eq_zero_iff.mp (still _ mem)
    have answer := Evaluates.exhausted fun attempt mem =>
      runs_iff_evaluates.mp (failures attempt mem)
    rw [State.exhausted_of_still still', State.expectations_eq_eraseDups,
      (listsOnce_eraseDups _).unique listed] at answer
    exact answer

/-- Some first alternative succeeds, or all of them fail. -/
theorem first_success_or_failures
    (ends : ∀ part ∈ alternatives, ∃ result, part.Runs table start result) :
    (∃ before part rest result, alternatives = before ++ part :: rest ∧
      (∀ other ∈ before, ∃ stop, other.Runs table start ⟨.failed, stop⟩) ∧
      part.Runs table start result ∧ result.tree ≠ .failed) ∨
    ∀ part ∈ alternatives, ∃ stop, part.Runs table start ⟨.failed, stop⟩ := by
  induction alternatives with
  | nil => exact .inr fun _ mem => absurd mem List.not_mem_nil
  | cons first others ih =>
    obtain ⟨⟨⟨tree, stop⟩, answer⟩, ends⟩ := List.forall_mem_cons.mp ends
    by_cases success : tree = .failed
    · subst success
      rcases ih ends with ⟨before, part, rest, result, rfl, refused, taken⟩ | failures
      · exact .inl ⟨first :: before, part, rest, result, rfl,
          List.forall_mem_cons.mpr ⟨⟨stop, answer⟩, refused⟩, taken⟩
      · exact .inr (List.forall_mem_cons.mpr ⟨⟨stop, answer⟩, failures⟩)
    · exact .inl ⟨[], first, others, _, rfl, fun _ mem => absurd mem List.not_mem_nil, answer,
        success⟩

/-- The answer of a choice is told by its alternatives, each run alone from where the choice
starts: the first success, or else the first of the furthest failures, or else a report of what was
wanted. It has this answer whenever those runs end. -/
theorem choice_told_by_alternatives (table : RuleTable) (start : State)
    (alternatives : List Parser) :
    (∀ result, (choice alternatives).Runs table start result ↔
      Chooses table start alternatives result) ∧
    ((∀ part ∈ alternatives, ∃ result, part.Runs table start result) →
      ∃ result, (choice alternatives).Runs table start result) := by
  refine ⟨fun result => ⟨fun runs => ?_, fun chooses => chooses.evaluates.runs⟩, fun ends => ?_⟩
  · cases runs_iff_evaluates.mp runs with
    | chosen failures taken success =>
      refine .taken ?_ taken.runs success
      exact List.forall_mem_map.mpr fun attempt mem => ⟨attempt.2, (failures attempt mem).runs⟩
    | exhausted failures => exact chooses_exhausted fun attempt mem => (failures attempt mem).runs
  · rcases first_success_or_failures ends with
      ⟨before, part, rest, result, rfl, refused, answer, success⟩ | failures
    · exact ⟨result, (Chooses.taken refused answer success).evaluates.runs⟩
    · have failures' : ∀ part ∈ alternatives, ∃ stop,
          part.Evaluates table True start ⟨.failed, stop⟩ := by
        intro part mem
        obtain ⟨stop, failure⟩ := failures part mem
        exact ⟨stop, runs_iff_evaluates.mp failure⟩
      obtain ⟨stop, answer⟩ := Evaluates.choice_failed failures'
      exact ⟨_, answer.runs⟩

/-- A cross with one of two signs, or a step that fails behind any token. -/
def signed : List Parser :=
  [sequence [char 'x', char '+'], sequence [char 'x', char '-'],
    custom fun state => some (.failure state.advance)]

/-- A cross with a star. -/
def starred : TokenStream :=
  .ofList [{ kind := .ofChar 'x', text := "x" }, { kind := .ofChar '*', text := "*" }] none

/-- The first alternative gets as far as the others. -/
theorem choice_told_by_alternatives_signed :
    (∀ part ∈ signed, ∃ result, part.Runs .empty (.start starred.tokenAt) result) ∧
    (∃ result, (choice signed).Runs .empty (.start starred.tokenAt) result) ∧
    Chooses .empty (.start starred.tokenAt) signed ⟨.failed, ⟨starred.tokenAt, 1,
      .push .empty ⟨starred.tokenAt 1, .mismatch (.ofChar '+') (starred.tokenAt 1)⟩⟩⟩ := by
  have ends : ∀ part ∈ signed, ∃ result, part.Runs .empty (.start starred.tokenAt) result := by
    simp only [signed, List.forall_mem_cons]
    exact ⟨⟨_, 5, rfl⟩, ⟨_, 5, rfl⟩, ⟨_, 5, rfl⟩, fun _ mem => absurd mem List.not_mem_nil⟩
  obtain ⟨chooses, answers⟩ := choice_told_by_alternatives .empty (.start starred.tokenAt) signed
  exact ⟨ends, answers ends, (chooses _).mp ⟨5, rfl⟩⟩

end Parser

end Descent
