import Descent.Parser.Run

/-!
# Evaluation

`Parser.Evaluates` gives the answers of expressions by rules, one group of rules for each
combinator. It mentions no bound, and a loop is described by its first round. It agrees with
`Parser.Runs`, so what is proved by induction on evaluations holds of runs, and runs can be built
rule by rule.

Whether resynchronisation may be used is a parameter. An answer derived without it is that of a run
in which no recovery took place.

A choice evaluates a list of alternatives that are refused, each with the state in which its
attempt ended, before it takes the next one or gives up.
-/

namespace Descent

namespace Parser

/-- What an expression answers at a state, where only `resync` allows to resynchronise. -/
inductive Evaluates (table : RuleTable) (resync : Prop) : Parser → State → Result → Prop where
  | token {kind state} (found : state.peek.kind = kind) :
      Evaluates table resync (.token kind) state ⟨.token state.peek, state.advance⟩
  | mismatch {kind state} (other : state.peek.kind ≠ kind) :
      Evaluates table resync (.token kind) state (state.reject (.mismatch kind state.peek))
  | sequenceNil {state} : Evaluates table resync (.sequence []) state ⟨.sequence [], state⟩
  | sequenceFailed {part rest state stop}
      (first : Evaluates table resync part state ⟨.failed, stop⟩) :
      Evaluates table resync (.sequence (part :: rest)) state ⟨.failed, stop⟩
  | sequenceStopped {part rest state tree middle stop}
      (first : Evaluates table resync part state ⟨tree, middle⟩) (success : tree ≠ .failed)
      (later : Evaluates table resync (.sequence rest) middle ⟨.failed, stop⟩) :
      Evaluates table resync (.sequence (part :: rest)) state ⟨.failed, stop⟩
  | sequenceCons {part rest state tree middle entries stop}
      (first : Evaluates table resync part state ⟨tree, middle⟩) (success : tree ≠ .failed)
      (later : Evaluates table resync (.sequence rest) middle ⟨.sequence entries, stop⟩) :
      Evaluates table resync (.sequence (part :: rest)) state ⟨.sequence (tree :: entries), stop⟩
  | chosen {part rest state tree stop} {refused : List (Parser × State)}
      (failures : ∀ attempt ∈ refused,
        Evaluates table resync attempt.1 state ⟨.failed, attempt.2⟩)
      (taken : Evaluates table resync part state ⟨tree, stop⟩) (success : tree ≠ .failed) :
      Evaluates table resync (.choice (refused.map Prod.fst ++ part :: rest)) state ⟨tree, stop⟩
  | exhausted {state} {refused : List (Parser × State)}
      (failures : ∀ attempt ∈ refused,
        Evaluates table resync attempt.1 state ⟨.failed, attempt.2⟩) :
      Evaluates table resync (.choice (refused.map Prod.fst)) state
        (state.exhausted (refused.map Prod.snd))
  | lookahead {body state tree stop} (seen : Evaluates table resync body state ⟨tree, stop⟩) :
      Evaluates table resync (.lookahead body) state ⟨tree, stop.rewindTo state⟩
  | recoverPassed {recovery body state tree stop}
      (attempt : Evaluates table resync body state ⟨tree, stop⟩) (success : tree ≠ .failed) :
      Evaluates table resync (.recover recovery body) state ⟨tree, stop⟩
  | rootFailed {body state stop} (attempt : Evaluates table resync body state ⟨.failed, stop⟩) :
      Evaluates table resync (.recover .fail body) state ⟨.failed, stop⟩
  | backtracked {body state stop} (attempt : Evaluates table resync body state ⟨.failed, stop⟩) :
      Evaluates table resync (.recover .backtrack body) state ⟨.nothing, state⟩
  | resynchronised {kind body state stop after} {bound : Nat} (allowed : resync)
      (attempt : Evaluates table resync body state ⟨.failed, stop⟩)
      (skipped : stop.skipPast kind bound = some after) :
      Evaluates table resync (.recover (.skipPast kind) body) state ⟨.nothing, after⟩
  | recoverCustom {keepReports action body state stop result}
      (attempt : Evaluates table resync body state ⟨.failed, stop⟩)
      (answer : action state (if keepReports then stop else stop.withLogOf state) = some result) :
      Evaluates table resync (.recover (.custom keepReports action) body) state result
  | manyFailed {body state stop} (attempt : Evaluates table resync body state ⟨.failed, stop⟩) :
      Evaluates table resync (.many body) state ⟨.sequence [], state⟩
  | manyStayed {body state tree stop} (attempt : Evaluates table resync body state ⟨tree, stop⟩)
      (success : tree ≠ .failed) (stayed : stop.position = state.position) :
      Evaluates table resync (.many body) state ⟨.sequence [], state⟩
  | manyNext {body state tree middle entries stop}
      (round : Evaluates table resync body state ⟨tree, middle⟩) (success : tree ≠ .failed)
      (moved : middle.position ≠ state.position)
      (later : Evaluates table resync (.many body) middle ⟨.sequence entries, stop⟩) :
      Evaluates table resync (.many body) state ⟨.sequence (tree :: entries), stop⟩
  | many1Failed {body state stop} (first : Evaluates table resync body state ⟨.failed, stop⟩) :
      Evaluates table resync (.many1 body) state ⟨.failed, stop⟩
  | many1 {body state tree middle entries stop}
      (first : Evaluates table resync body state ⟨tree, middle⟩) (success : tree ≠ .failed)
      (later : Evaluates table resync (.many body) middle ⟨.sequence entries, stop⟩) :
      Evaluates table resync (.many1 body) state ⟨.sequence (tree :: entries), stop⟩
  | separatedRefused {element delimiter state stop}
      (missing : Evaluates table resync element state ⟨.failed, stop⟩) :
      Evaluates table resync (.separated true element delimiter) state ⟨.failed, stop⟩
  | separatedNil {element delimiter state stop}
      (missing : Evaluates table resync element state ⟨.failed, stop⟩) :
      Evaluates table resync (.separated false element delimiter) state ⟨.sequence [], state⟩
  | separatedLast {required element delimiter state tree middle stop}
      (first : Evaluates table resync element state ⟨tree, middle⟩) (success : tree ≠ .failed)
      (missing : Evaluates table resync delimiter middle ⟨.failed, stop⟩) :
      Evaluates table resync (.separated required element delimiter) state
        ⟨.sequence [tree], middle⟩
  | separatedStayed {required element delimiter state tree middle mark stop}
      (first : Evaluates table resync element state ⟨tree, middle⟩) (success : tree ≠ .failed)
      (between : Evaluates table resync delimiter middle ⟨mark, stop⟩) (marked : mark ≠ .failed)
      (stayed : stop.position = state.position) :
      Evaluates table resync (.separated required element delimiter) state ⟨.sequence [tree], stop⟩
  | separatedNext {required element delimiter state tree middle mark next entries stop}
      (first : Evaluates table resync element state ⟨tree, middle⟩) (success : tree ≠ .failed)
      (between : Evaluates table resync delimiter middle ⟨mark, next⟩) (marked : mark ≠ .failed)
      (moved : next.position ≠ state.position)
      (later : Evaluates table resync (.separated false element delimiter) next
        ⟨.sequence entries, stop⟩) :
      Evaluates table resync (.separated required element delimiter) state
        ⟨.sequence (tree :: entries), stop⟩
  | terminatedFailed {body terminator state stop}
      (first : Evaluates table resync body state ⟨.failed, stop⟩) :
      Evaluates table resync (.terminated body terminator) state ⟨.failed, stop⟩
  | terminatedOpen {body terminator state tree middle stop}
      (first : Evaluates table resync body state ⟨tree, middle⟩) (success : tree ≠ .failed)
      (missing : Evaluates table resync terminator middle ⟨.failed, stop⟩) :
      Evaluates table resync (.terminated body terminator) state ⟨.failed, stop⟩
  | terminated {body terminator state tree middle closing stop}
      (first : Evaluates table resync body state ⟨tree, middle⟩) (success : tree ≠ .failed)
      (last : Evaluates table resync terminator middle ⟨closing, stop⟩)
      (closed : closing ≠ .failed) :
      Evaluates table resync (.terminated body terminator) state ⟨tree, stop⟩
  | productionFailed {name body state stop}
      (attempt : Evaluates table resync body state ⟨.failed, stop⟩) :
      Evaluates table resync (.production name body) state ⟨.failed, stop⟩
  | production {name body state tree children stop}
      (content : Evaluates table resync body state ⟨tree, stop⟩) (success : tree ≠ .failed)
      (flat : Step.children tree = .ok children) :
      Evaluates table resync (.production name body) state ⟨.production name children, stop⟩
  | malformed {name body state tree reason stop}
      (content : Evaluates table resync body state ⟨tree, stop⟩) (success : tree ≠ .failed)
      (nested : Step.children tree = .error reason) :
      Evaluates table resync (.production name body) state
        (stop.reject (.malformedTree name reason.message))
  | labeledFailed {name body state stop}
      (attempt : Evaluates table resync body state ⟨.failed, stop⟩) :
      Evaluates table resync (.labeled name body) state ⟨.failed, stop⟩
  | labeled {name body state tree stop} (content : Evaluates table resync body state ⟨tree, stop⟩)
      (success : tree ≠ .failed) :
      Evaluates table resync (.labeled name body) state ⟨.labeled name tree, stop⟩
  | rule {id body state result} (bound : (table.rule id).body = some body)
      (answer : Evaluates table resync body state result) :
      Evaluates table resync (.rule id) state result
  | unbound {id state} (missing : (table.rule id).body = none) :
      Evaluates table resync (.rule id) state (state.reject (.unboundRule (table.rule id).name))
  | custom {step state result} (answer : step state = some result) :
      Evaluates table resync (.custom step) state result

end Parser

namespace State

/-- The best of the ends of failed alternatives is the start or one of them. -/
theorem furthest_mem (start : State) (ends : List State) :
    start.furthest ends = start ∨ start.furthest ends ∈ ends := by
  unfold furthest
  generalize start = best
  induction ends generalizing best with
  | nil => exact .inl rfl
  | cons stop ends ih =>
    simp only [List.foldl_cons, List.mem_cons]
    split
    · rcases ih stop with same | mem
      · exact .inr (.inl same)
      · exact .inr (.inr mem)
    · rcases ih best with same | mem
      · exact .inl same
      · exact .inr (.inr mem)

/-- A choice that gives up reports that there is no alternative, or ends as one of its attempts. -/
theorem exhausted_cases (start : State) (ends : List State) :
    start.exhausted ends =
      start.reject (.noAlternative (start.expectations ends) start.peek.render) ∨
      ∃ stop ∈ ends, start.exhausted ends = .failure stop := by
  simp only [exhausted]
  split
  · next moved =>
    refine .inr ⟨start.furthest ends, ?_, rfl⟩
    rcases furthest_mem start ends with same | mem
    · rw [same] at moved
      exact absurd moved (Nat.lt_irrefl _)
    · exact mem
  · exact .inl rfl

theorem exhausted_tree (start : State) (ends : List State) :
    (start.exhausted ends).tree = .failed := by
  rcases exhausted_cases start ends with gaveUp | ⟨_, _, gaveUp⟩ <;> rw [gaveUp] <;> rfl

end State

namespace Parser

section Shapes

variable {table : RuleTable} {resync : Prop} {body element delimiter : Parser}
variable {state : State} {result : Result}

/-- A sequence answers with a failure or with a sequence of trees. -/
theorem Evaluates.sequence_cases {parts : List Parser}
    (h : (sequence parts).Evaluates table resync state result) :
    (∃ stop, result = ⟨.failed, stop⟩) ∨ ∃ entries stop, result = ⟨.sequence entries, stop⟩ := by
  cases h with
  | sequenceNil => exact .inr ⟨_, _, rfl⟩
  | sequenceFailed => exact .inl ⟨_, rfl⟩
  | sequenceStopped => exact .inl ⟨_, rfl⟩
  | sequenceCons => exact .inr ⟨_, _, rfl⟩

/-- A repetition never fails. -/
theorem Evaluates.many_cases (h : (many body).Evaluates table resync state result) :
    ∃ entries stop, result = ⟨.sequence entries, stop⟩ := by
  cases h with
  | manyFailed => exact ⟨_, _, rfl⟩
  | manyStayed => exact ⟨_, _, rfl⟩
  | manyNext => exact ⟨_, _, rfl⟩

/-- A list that may be empty never fails. -/
theorem Evaluates.separated_cases
    (h : (separated false element delimiter).Evaluates table resync state result) :
    ∃ entries stop, result = ⟨.sequence entries, stop⟩ := by
  cases h with
  | separatedNil => exact ⟨_, _, rfl⟩
  | separatedLast => exact ⟨_, _, rfl⟩
  | separatedStayed => exact ⟨_, _, rfl⟩
  | separatedNext => exact ⟨_, _, rfl⟩

/-- Alternatives that all fail can be listed with the states in which they did. -/
theorem Evaluates.exists_refused {alternatives : List Parser}
    (failures : ∀ part ∈ alternatives, ∃ stop, part.Evaluates table resync state ⟨.failed, stop⟩) :
    ∃ refused : List (Parser × State), refused.map Prod.fst = alternatives ∧
      ∀ attempt ∈ refused, attempt.1.Evaluates table resync state ⟨.failed, attempt.2⟩ := by
  induction alternatives with
  | nil => exact ⟨[], rfl, fun _ mem => (nomatch mem)⟩
  | cons part alternatives ih =>
    obtain ⟨⟨stop, first⟩, others⟩ := List.forall_mem_cons.mp failures
    obtain ⟨refused, same, failures⟩ := ih others
    exact ⟨(part, stop) :: refused, by simp [same], List.forall_mem_cons.mpr ⟨first, failures⟩⟩

/-- A choice takes an alternative if those before it fail. -/
theorem Evaluates.choice_taken {before rest : List Parser}
    (failures : ∀ part ∈ before, ∃ stop, part.Evaluates table resync state ⟨.failed, stop⟩)
    (taken : body.Evaluates table resync state result) (success : result.tree ≠ .failed) :
    (choice (before ++ body :: rest)).Evaluates table resync state result := by
  obtain ⟨refused, rfl, refusals⟩ := Evaluates.exists_refused failures
  exact .chosen refusals taken success

/-- A choice fails if all its alternatives do. -/
theorem Evaluates.choice_failed {alternatives : List Parser}
    (failures : ∀ part ∈ alternatives, ∃ stop, part.Evaluates table resync state ⟨.failed, stop⟩) :
    ∃ stop, (choice alternatives).Evaluates table resync state ⟨.failed, stop⟩ := by
  obtain ⟨refused, rfl, refusals⟩ := Evaluates.exists_refused failures
  refine ⟨(state.exhausted (refused.map Prod.snd)).state, ?_⟩
  rw [← State.exhausted_tree state (refused.map Prod.snd)]
  exact .exhausted refusals

end Shapes

end Parser

end Descent
