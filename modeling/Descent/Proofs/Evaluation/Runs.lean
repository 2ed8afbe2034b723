import Descent.Proofs.Evaluation
import Descent.Proofs.Loops

/-!
# Runs and evaluations

The evaluator of expressions and the rules of evaluation have the same answers. From runs to rules
the proof follows the evaluator: every step implements its expression. From rules to runs it
collects a bound that is large enough for all premises of a rule.
-/

namespace Descent

namespace Parser

/-! ## Runs are evaluations -/

/-- Every answer of a step is an answer of the expression. -/
def Implements (table : RuleTable) (step : Step) (parser : Parser) : Prop :=
  ∀ ⦃state result⦄, step state = some result → parser.Evaluates table True state result

namespace Implements

variable {table : RuleTable} {step step' : Step} {body part element delimiter : Parser}

theorem failed (h : Implements table step body) {state : State} {result : Result}
    (run : step state = some result) (failure : result.isFailed = true) :
    body.Evaluates table True state ⟨.failed, result.state⟩ :=
  Result.eq_failure failure ▸ h run

theorem token (kind : TokenKind) : Implements table (Step.token kind) (.token kind) := by
  intro state result run
  simp only [Step.token] at run
  split at run
  · next found =>
    cases run
    exact .token found
  · next other =>
    cases run
    exact .mismatch other

theorem sequence {run : Parser → Step} {parts : List Parser}
    (h : ∀ part ∈ parts, Implements table (run part) part) :
    Implements table (Step.sequence (parts.map run)) (.sequence parts) := by
  induction parts with
  | nil =>
    intro state result run
    cases run
    exact .sequenceNil
  | cons part parts ih =>
    intro state result run
    simp only [List.map_cons, Step.sequence_cons, Option.bind_eq_some_iff] at run
    obtain ⟨first, head, tail⟩ := run
    have start := h part List.mem_cons_self
    split at tail
    · next failure =>
      cases tail
      exact .sequenceFailed (start.failed head failure)
    · next success =>
      rw [Result.isFailed_iff] at success
      obtain ⟨later, rest, rfl⟩ := Option.map_eq_some_iff.mp tail
      have others := ih (fun part mem => h part (List.mem_cons_of_mem _ mem)) rest
      obtain ⟨stop, rfl⟩ | ⟨entries, stop, rfl⟩ := others.sequence_cases
      · exact .sequenceStopped (start head) success others
      · exact .sequenceCons (start head) success others

/-- The alternatives that were refused so far stand before those that are left. -/
theorem choiceFrom {run : Parser → Step} {alternatives : List Parser}
    (h : ∀ part ∈ alternatives, Implements table (run part) part)
    {refused : List (Parser × State)} {state : State} {result : Result}
    (failures : ∀ attempt ∈ refused, attempt.1.Evaluates table True state ⟨.failed, attempt.2⟩)
    (answer : Step.choiceFrom (refused.map Prod.snd).reverse (alternatives.map run) state =
      some result) :
    (choice (refused.map Prod.fst ++ alternatives)).Evaluates table True state result := by
  induction alternatives generalizing refused with
  | nil =>
    simp only [List.map_nil, Step.choiceFrom, List.reverse_reverse, Option.some.injEq] at answer
    subst answer
    simpa using Evaluates.exhausted failures
  | cons part alternatives ih =>
    simp only [List.map_cons, Step.choiceFrom, Option.bind_eq_bind,
      Option.bind_eq_some_iff] at answer
    obtain ⟨attempt, head, tail⟩ := answer
    have first := h part List.mem_cons_self
    split at tail
    · next failure =>
      have longer : ∀ other ∈ refused ++ [(part, attempt.state)],
          other.1.Evaluates table True state ⟨.failed, other.2⟩ := by
        intro other mem
        rcases List.mem_append.mp mem with mem | mem
        · exact failures other mem
        · rw [List.mem_singleton.mp mem]
          exact first.failed head failure
      have later := ih (fun part mem => h part (List.mem_cons_of_mem _ mem)) longer
        (by simpa using tail)
      simpa using later
    · next success =>
      rw [Result.isFailed_iff] at success
      cases tail
      exact .chosen failures (first head) success

theorem choice {run : Parser → Step} {alternatives : List Parser}
    (h : ∀ part ∈ alternatives, Implements table (run part) part) :
    Implements table (Step.choice (alternatives.map run)) (.choice alternatives) :=
  fun _ _ answer => choiceFrom h (fun _ (mem : _ ∈ []) => nomatch mem) answer

theorem lookahead (h : Implements table step body) :
    Implements table (Step.lookahead step) (.lookahead body) := by
  intro state result run
  simp only [Step.lookahead, Option.bind_eq_bind, Option.bind_eq_some_iff] at run
  obtain ⟨seen, head, tail⟩ := run
  cases tail
  exact .lookahead (h head)

theorem recover (h : Implements table step body) (recovery : Recovery) (bound : Nat) :
    Implements table (Step.recover recovery.keepsReports (recovery.answer bound) step)
      (.recover recovery body) := by
  intro state result run
  simp only [Step.recover, Option.bind_eq_bind, Option.bind_eq_some_iff] at run
  obtain ⟨attempt, head, tail⟩ := run
  split at tail
  · next failure =>
    have failed := h.failed head failure
    cases recovery with
    | fail =>
      cases tail
      exact .rootFailed failed
    | backtrack =>
      cases tail
      exact .backtracked failed
    | skipPast kind =>
      obtain ⟨after, skipped, rfl⟩ := Option.map_eq_some_iff.mp tail
      exact .resynchronised trivial failed skipped
    | custom keepReports action => exact .recoverCustom failed tail
  · next success =>
    rw [Result.isFailed_iff] at success
    cases tail
    exact .recoverPassed (h head) success

theorem many (h : Implements table step body) (bound : Nat) :
    Implements table (Step.many bound step) (.many body) := by
  induction bound with
  | zero =>
    intro state result run
    cases run
  | succ bound ih =>
    intro state result run
    simp only [Step.many_succ, Option.bind_eq_some_iff] at run
    obtain ⟨round, head, tail⟩ := run
    split at tail
    · next last =>
      cases tail
      by_cases failure : round.isFailed = true
      · exact .manyFailed (h.failed head failure)
      · have stayed : round.state.position = state.position := by simpa [failure] using last
        exact .manyStayed (h head) (mt Result.isFailed_iff.mpr failure) stayed
    · next goesOn =>
      obtain ⟨later, rest, rfl⟩ := Option.map_eq_some_iff.mp tail
      simp only [Bool.or_eq_true, Result.isFailed_iff, decide_eq_true_eq, not_or] at goesOn
      have others := ih rest
      obtain ⟨entries, stop, rfl⟩ := others.many_cases
      exact .manyNext (h head) goesOn.1 goesOn.2 others

theorem many1 (h : Implements table step body) (bound : Nat) :
    Implements table (Step.many1 bound step) (.many1 body) := by
  intro state result run
  simp only [Step.many1_eq, Option.bind_eq_some_iff] at run
  obtain ⟨first, head, tail⟩ := run
  split at tail
  · next failure =>
    cases tail
    exact .many1Failed (h.failed head failure)
  · next success =>
    rw [Result.isFailed_iff] at success
    obtain ⟨later, rest, rfl⟩ := Option.map_eq_some_iff.mp tail
    have others := h.many bound rest
    obtain ⟨entries, stop, rfl⟩ := others.many_cases
    exact .many1 (h head) success others

theorem separated (h : Implements table step element) (h' : Implements table step' delimiter)
    (bound : Nat) (required : Bool) :
    Implements table (Step.separated bound required step step')
      (.separated required element delimiter) := by
  induction bound generalizing required with
  | zero =>
    intro state result run
    cases run
  | succ bound ih =>
    intro state result run
    simp only [Step.separated_succ, Option.bind_eq_some_iff] at run
    obtain ⟨next, head, tail⟩ := run
    split at tail
    · next failure =>
      have missing := h.failed head failure
      cases required with
      | true =>
        cases tail
        exact .separatedRefused missing
      | false =>
        cases tail
        exact .separatedNil missing
    · next success =>
      rw [Result.isFailed_iff] at success
      obtain ⟨mark, middle, tail⟩ := Option.bind_eq_some_iff.mp tail
      split at tail
      · next failure =>
        cases tail
        exact .separatedLast (h head) success (h'.failed middle failure)
      · next marked =>
        rw [Result.isFailed_iff] at marked
        split at tail
        · next stayed =>
          cases tail
          exact .separatedStayed (h head) success (h' middle) marked stayed
        · next moved =>
          obtain ⟨later, rest, rfl⟩ := Option.map_eq_some_iff.mp tail
          have others := ih false rest
          obtain ⟨entries, stop, rfl⟩ := others.separated_cases
          exact .separatedNext (h head) success (h' middle) marked moved others

theorem terminated (h : Implements table step body) (h' : Implements table step' part) :
    Implements table (Step.terminated step step') (.terminated body part) := by
  intro state result run
  simp only [Step.terminated, Option.bind_eq_bind, Option.bind_eq_some_iff] at run
  obtain ⟨first, head, tail⟩ := run
  split at tail
  · next failure =>
    cases tail
    exact .terminatedFailed (h.failed head failure)
  · next success =>
    rw [Result.isFailed_iff] at success
    obtain ⟨closing, last, tail⟩ := Option.bind_eq_some_iff.mp tail
    split at tail
    · next failure =>
      cases tail
      exact .terminatedOpen (h head) success (h'.failed last failure)
    · next closed =>
      rw [Result.isFailed_iff] at closed
      cases tail
      exact .terminated (h head) success (h' last) closed

theorem production (h : Implements table step body) (name : String) :
    Implements table (Step.production name step) (.production name body) := by
  intro state result run
  simp only [Step.production, Option.bind_eq_bind, Option.bind_eq_some_iff] at run
  obtain ⟨content, head, tail⟩ := run
  split at tail
  · next failure =>
    cases tail
    exact .productionFailed (h.failed head failure)
  · next success =>
    rw [Result.isFailed_iff] at success
    split at tail
    · next flat =>
      cases tail
      exact .production (h head) success flat
    · next nested =>
      cases tail
      exact .malformed (h head) success nested

theorem labeled (h : Implements table step body) (name : String) :
    Implements table (Step.labeled name step) (.labeled name body) := by
  intro state result run
  simp only [Step.labeled, Option.bind_eq_bind, Option.bind_eq_some_iff] at run
  obtain ⟨content, head, tail⟩ := run
  split at tail
  · next failure =>
    cases tail
    exact Result.eq_failure failure ▸ .labeledFailed (h.failed head failure)
  · next success =>
    rw [Result.isFailed_iff] at success
    cases tail
    exact .labeled (h head) success

/-- A rule does what its body does. -/
theorem call {run : Parser → Step} (h : ∀ parser, Implements table (run parser) parser)
    (id : RuleId) : Implements table (Parser.call table run id) (.rule id) := by
  intro state result answer
  cases bound : (table.rule id).body with
  | none =>
    simp only [Parser.call, bound] at answer
    cases answer
    exact .unbound bound
  | some body =>
    simp only [Parser.call, bound] at answer
    exact .rule bound (h body answer)

end Implements

/-- The steps of several expressions are the step of each. -/
theorem steps_eq_map (call : RuleId → Step) (bound : Nat) (parts : List Parser) :
    steps call bound parts = parts.map (step call bound) := by
  induction parts with
  | nil => rfl
  | cons part parts ih => rw [steps, ih, List.map_cons]

theorem step_sequence (call : RuleId → Step) (bound : Nat) (parts : List Parser) :
    step call bound (sequence parts) = Step.sequence (parts.map (step call bound)) := by
  rw [← steps_eq_map]
  rfl

theorem step_choice (call : RuleId → Step) (bound : Nat) (alternatives : List Parser) :
    step call bound (choice alternatives) = Step.choice (alternatives.map (step call bound)) := by
  rw [← steps_eq_map]
  rfl

section Soundness

variable {table : RuleTable} {call : RuleId → Step} {bound : Nat}

mutual

/-- With rules that answer by evaluation, every expression does. -/
theorem step_implements (calls : ∀ id, Implements table (call id) (.rule id)) :
    ∀ parser : Parser, Implements table (step call bound parser) parser
  | token kind => .token kind
  | sequence parts => step_sequence call bound parts ▸ .sequence (steps_implement calls parts)
  | choice alternatives =>
    step_choice call bound alternatives ▸ .choice (steps_implement calls alternatives)
  | lookahead body => (step_implements calls body).lookahead
  | recover recovery body => (step_implements calls body).recover recovery bound
  | many body => (step_implements calls body).many bound
  | many1 body => (step_implements calls body).many1 bound
  | separated required element delimiter =>
    (step_implements calls element).separated (step_implements calls delimiter) bound required
  | terminated body terminator =>
    (step_implements calls body).terminated (step_implements calls terminator)
  | production name body => (step_implements calls body).production name
  | labeled name body => (step_implements calls body).labeled name
  | rule id => calls id
  | custom _ => fun _ _ answer => .custom answer

theorem steps_implement (calls : ∀ id, Implements table (call id) (.rule id)) :
    ∀ parts : List Parser, ∀ part ∈ parts, Implements table (step call bound part) part
  | [] => fun _ mem => nomatch mem
  | part :: rest =>
    List.forall_mem_cons.mpr ⟨step_implements calls part, steps_implement calls rest⟩

end

theorem run_implements (table : RuleTable) (bound : Nat) (parser : Parser) :
    Implements table (parser.run table bound) parser := by
  induction bound generalizing parser with
  | zero =>
    refine step_implements (fun id state result answer => ?_) parser
    cases answer
  | succ bound ih => exact step_implements (fun id => .call ih id) parser

end Soundness

/-! ## Evaluations are runs -/

section Completeness

variable {table : RuleTable} {bound : Nat}

theorem run_sequence (parts : List Parser) :
    (sequence parts).run table bound = Step.sequence (parts.map (run table bound)) := by
  cases bound <;> exact step_sequence _ _ parts

theorem run_choice (alternatives : List Parser) :
    (choice alternatives).run table bound = Step.choice (alternatives.map (run table bound)) := by
  cases bound <;> exact step_choice _ _ alternatives

theorem run_lookahead (body : Parser) :
    (lookahead body).run table bound = Step.lookahead (body.run table bound) := by
  cases bound <;> rfl

theorem run_recover (recovery : Recovery) (body : Parser) :
    (recover recovery body).run table bound =
      Step.recover recovery.keepsReports (recovery.answer bound) (body.run table bound) := by
  cases bound <;> rfl

theorem run_many (body : Parser) :
    (many body).run table bound = Step.many bound (body.run table bound) := by
  cases bound <;> rfl

theorem run_many1 (body : Parser) :
    (many1 body).run table bound = Step.many1 bound (body.run table bound) := by
  cases bound <;> rfl

theorem run_separated (required : Bool) (element delimiter : Parser) :
    (separated required element delimiter).run table bound =
      Step.separated bound required (element.run table bound) (delimiter.run table bound) := by
  cases bound <;> rfl

theorem run_terminated (body terminator : Parser) :
    (terminated body terminator).run table bound =
      Step.terminated (body.run table bound) (terminator.run table bound) := by
  cases bound <;> rfl

theorem run_production (name : String) (body : Parser) :
    (production name body).run table bound = Step.production name (body.run table bound) := by
  cases bound <;> rfl

theorem run_labeled (name : String) (body : Parser) :
    (labeled name body).run table bound = Step.labeled name (body.run table bound) := by
  cases bound <;> rfl

/-- Two runs finish within one bound. -/
theorem Runs.common {a b : Parser} {state state' : State} {result result' : Result}
    (ha : a.Runs table state result) (hb : b.Runs table state' result') :
    ∃ bound, a.run table bound state = some result ∧ b.run table bound state' = some result' := by
  obtain ⟨m, ha⟩ := ha
  obtain ⟨n, hb⟩ := hb
  exact ⟨max m n, run_mono table (Nat.le_max_left m n) a ha,
    run_mono table (Nat.le_max_right m n) b hb⟩

/-- The attempts that a choice gives up finish within one bound. -/
theorem Runs.common_refused {state : State} {refused : List (Parser × State)}
    (failures : ∀ attempt ∈ refused, attempt.1.Runs table state ⟨.failed, attempt.2⟩) :
    ∃ bound, ∀ attempt ∈ refused, attempt.1.run table bound state = some ⟨.failed, attempt.2⟩ := by
  induction refused with
  | nil => exact ⟨0, fun _ mem => nomatch mem⟩
  | cons attempt refused ih =>
    obtain ⟨first, others⟩ := List.forall_mem_cons.mp failures
    obtain ⟨m, first⟩ := first
    obtain ⟨n, others⟩ := ih others
    refine ⟨max m n, List.forall_mem_cons.mpr ⟨?_, fun attempt mem => ?_⟩⟩
    · exact run_mono table (Nat.le_max_left m n) _ first
    · exact run_mono table (Nat.le_max_right m n) _ (others attempt mem)

/-- What the rules derive is the answer of a run. -/
theorem Evaluates.runs {resync : Prop} {parser : Parser} {state : State} {result : Result}
    (h : parser.Evaluates table resync state result) : parser.Runs table state result := by
  induction h with
  | token found => exact ⟨0, by simp [run, step, Step.token, found]⟩
  | mismatch other => exact ⟨0, by simp [run, step, Step.token, other]⟩
  | sequenceNil => exact ⟨0, by simp [run_sequence, Step.sequence, Step.sequenceFrom]⟩
  | sequenceFailed _ first =>
    obtain ⟨n, first⟩ := first
    exact ⟨n, by simp [run_sequence, Step.sequence_cons, first, Result.failure]⟩
  | sequenceStopped _ success _ first later =>
    obtain ⟨n, first, later⟩ := first.common later
    rw [run_sequence] at later
    exact ⟨n, by simp [run_sequence, Step.sequence_cons, first, later, success, Result.behind]⟩
  | sequenceCons _ success _ first later =>
    obtain ⟨n, first, later⟩ := first.common later
    rw [run_sequence] at later
    exact ⟨n, by simp [run_sequence, Step.sequence_cons, first, later, success]⟩
  | @chosen part rest state tree stop refused _ _ success failures taken =>
    obtain ⟨m, failures⟩ := Runs.common_refused failures
    obtain ⟨n, taken⟩ := taken
    have failures' : ∀ attempt ∈ refused,
        attempt.1.run table (max m n) state = some (.failure attempt.2) := fun attempt mem =>
      run_mono table (Nat.le_max_left m n) _ (failures attempt mem)
    have taken' := run_mono table (Nat.le_max_right m n) _ taken
    refine ⟨max m n, ?_⟩
    rw [run_choice, List.map_append, Step.choice, Step.choiceFrom_refused failures']
    simp [Step.choiceFrom, taken', success]
  | @exhausted state refused _ failures =>
    obtain ⟨n, failures⟩ := Runs.common_refused failures
    refine ⟨n, ?_⟩
    rw [run_choice, Step.choice, ← List.append_nil (List.map _ _),
      Step.choiceFrom_refused failures]
    simp [Step.choiceFrom]
  | lookahead _ seen =>
    obtain ⟨n, seen⟩ := seen
    exact ⟨n, by simp [run_lookahead, Step.lookahead, seen]⟩
  | recoverPassed _ success attempt =>
    obtain ⟨n, attempt⟩ := attempt
    exact ⟨n, by simp [run_recover, Step.recover, attempt, success]⟩
  | rootFailed _ attempt =>
    obtain ⟨n, attempt⟩ := attempt
    exact ⟨n, by simp [run_recover, Step.recover, attempt, Recovery.answer, Recovery.keepsReports,
      Result.failure]⟩
  | backtracked _ attempt =>
    obtain ⟨n, attempt⟩ := attempt
    exact ⟨n, by simp [run_recover, Step.recover, attempt, Recovery.answer]⟩
  | @resynchronised kind _ _ stop after m _ _ skipped attempt =>
    obtain ⟨n, attempt⟩ := attempt
    have attempt' := run_mono table (Nat.le_max_right m n) _ attempt
    have skipped' := State.skipPast_mono (Nat.le_max_left m n) skipped
    exact ⟨max m n, by simp [run_recover, Step.recover, attempt', skipped', Recovery.answer,
      Recovery.keepsReports]⟩
  | recoverCustom _ answer attempt =>
    obtain ⟨n, attempt⟩ := attempt
    refine ⟨n, ?_⟩
    simp only [run_recover, Step.recover, attempt, Option.bind_eq_bind, Option.bind_some]
    exact answer
  | manyFailed _ attempt =>
    obtain ⟨n, attempt⟩ := attempt
    have attempt' := run_mono table (Nat.le_succ n) _ attempt
    exact ⟨n + 1, by simp [run_many, Step.many_succ, attempt']⟩
  | manyStayed _ _ stayed attempt =>
    obtain ⟨n, attempt⟩ := attempt
    have attempt' := run_mono table (Nat.le_succ n) _ attempt
    exact ⟨n + 1, by simp [run_many, Step.many_succ, attempt', stayed]⟩
  | manyNext _ success moved _ round later =>
    obtain ⟨n, round, later⟩ := round.common later
    have round' := run_mono table (Nat.le_succ n) _ round
    have later' : Step.many n (run table (n + 1) _) _ = some _ :=
      (run_mono table (Nat.le_succ n) _).manyFrom (Nat.le_refl n) [] (run_many _ ▸ later)
    exact ⟨n + 1, by simp [run_many, Step.many_succ, round', success, moved, later']⟩
  | many1Failed _ first =>
    obtain ⟨n, first⟩ := first
    exact ⟨n, by simp [run_many1, Step.many1_eq, first, Result.failure]⟩
  | many1 _ success _ first later =>
    obtain ⟨n, first, later⟩ := first.common later
    rw [run_many] at later
    exact ⟨n, by simp [run_many1, Step.many1_eq, first, later, success]⟩
  | separatedRefused _ missing =>
    obtain ⟨n, missing⟩ := missing
    have missing' := run_mono table (Nat.le_succ n) _ missing
    exact ⟨n + 1, by simp [run_separated, Step.separated_succ, missing', Result.failure]⟩
  | separatedNil _ missing =>
    obtain ⟨n, missing⟩ := missing
    have missing' := run_mono table (Nat.le_succ n) _ missing
    exact ⟨n + 1, by simp [run_separated, Step.separated_succ, missing']⟩
  | separatedLast _ success _ first missing =>
    obtain ⟨n, first, missing⟩ := first.common missing
    have first' := run_mono table (Nat.le_succ n) _ first
    have missing' := run_mono table (Nat.le_succ n) _ missing
    exact ⟨n + 1, by simp [run_separated, Step.separated_succ, first', missing', success]⟩
  | separatedStayed _ success _ marked stayed first between =>
    obtain ⟨n, first, between⟩ := first.common between
    have first' := run_mono table (Nat.le_succ n) _ first
    have between' := run_mono table (Nat.le_succ n) _ between
    exact ⟨n + 1, by simp [run_separated, Step.separated_succ, first', between', success, marked,
      stayed]⟩
  | separatedNext _ success _ marked moved _ first between later =>
    obtain ⟨m, first, between⟩ := first.common between
    obtain ⟨k, later⟩ := later
    have m_le : m ≤ max m k + 1 := by omega
    have k_le : k ≤ max m k + 1 := by omega
    have first' := run_mono table m_le _ first
    have between' := run_mono table m_le _ between
    have later' : Step.separated (max m k) false (run table (max m k + 1) _)
        (run table (max m k + 1) _) _ = some _ :=
      (run_mono table k_le _).separatedFrom (run_mono table k_le _) (Nat.le_max_right m k) false []
        (run_separated _ _ _ ▸ later)
    exact ⟨max m k + 1, by simp [run_separated, Step.separated_succ, first', between', success,
      marked, moved, later']⟩
  | terminatedFailed _ first =>
    obtain ⟨n, first⟩ := first
    exact ⟨n, by simp [run_terminated, Step.terminated, first, Result.failure]⟩
  | terminatedOpen _ success _ first missing =>
    obtain ⟨n, first, missing⟩ := first.common missing
    exact ⟨n, by simp [run_terminated, Step.terminated, first, missing, success, Result.failure]⟩
  | terminated _ success _ closed first last =>
    obtain ⟨n, first, last⟩ := first.common last
    exact ⟨n, by simp [run_terminated, Step.terminated, first, last, success, closed]⟩
  | productionFailed _ attempt =>
    obtain ⟨n, attempt⟩ := attempt
    exact ⟨n, by simp [run_production, Step.production, attempt, Result.failure]⟩
  | production _ success flat content =>
    obtain ⟨n, content⟩ := content
    exact ⟨n, by simp [run_production, Step.production, content, success, flat]⟩
  | malformed _ success nested content =>
    obtain ⟨n, content⟩ := content
    exact ⟨n, by simp [run_production, Step.production, content, success, nested]⟩
  | labeledFailed _ attempt =>
    obtain ⟨n, attempt⟩ := attempt
    exact ⟨n, by simp [run_labeled, Step.labeled, attempt]⟩
  | labeled _ success content =>
    obtain ⟨n, content⟩ := content
    exact ⟨n, by simp [run_labeled, Step.labeled, content, success]⟩
  | rule bound _ answer =>
    obtain ⟨n, answer⟩ := answer
    exact ⟨n + 1, by simp [run, step, call, bound, answer]⟩
  | unbound missing => exact ⟨1, by simp [run, step, call, missing, Step.unbound]⟩
  | custom answer => exact ⟨0, answer⟩

end Completeness

/-- Runs are what the rules derive. -/
theorem runs_iff_evaluates {table : RuleTable} {parser : Parser} {state : State}
    {result : Result} :
    parser.Runs table state result ↔ parser.Evaluates table True state result := by
  constructor
  · rintro ⟨bound, answer⟩
    exact run_implements table bound parser answer
  · exact Evaluates.runs

/-- A rule runs its body. -/
theorem runs_rule {table : RuleTable} {id : RuleId} {body : Parser}
    (bound : (table.rule id).body = some body) {state : State} {result : Result} :
    (rule id).Runs table state result ↔ body.Runs table state result := by
  rw [runs_iff_evaluates, runs_iff_evaluates]
  constructor
  · intro answer
    cases answer with
    | rule bound' answer => exact Option.some.inj (bound'.symm.trans bound) ▸ answer
    | unbound missing => cases missing.symm.trans bound
  · exact .rule bound

end Parser

end Descent
