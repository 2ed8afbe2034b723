import Descent.Proofs.Evaluation.Runs

/-!
# Runs by rounds

The runs of tokens, optional expressions, loops and lists in terms of the runs of their parts, one
round at a time. Each law is an equivalence, so it tells both what a run consists of and when there
is one.
-/

namespace Descent

namespace Parser

variable {table : RuleTable} {body element delimiter terminator : Parser}
variable {start : State} {result : Result} {required : Bool} {kind : TokenKind}

/-- An answer is the only one. -/
theorem Runs.iff_eq {other : Result} (run : body.Runs table start result) :
    body.Runs table start other ↔ other = result := by
  refine ⟨fun again => again.unique run, ?_⟩
  rintro rfl
  exact run

/-- A token is consumed if it is found. -/
theorem runs_token_of_found (found : start.peek.kind = kind) :
    (token kind).Runs table start result ↔ result = ⟨.token start.peek, start.advance⟩ :=
  Runs.iff_eq (runs_iff_evaluates.mpr (.token found))

/-- Another token is reported and stays where it is. -/
theorem runs_token_of_other (other : start.peek.kind ≠ kind) :
    (token kind).Runs table start result ↔
      result = start.reject (.mismatch kind start.peek) :=
  Runs.iff_eq (runs_iff_evaluates.mpr (.mismatch other))

/-- Looking ahead only takes back the position. -/
theorem runs_lookahead :
    (lookahead body).Runs table start result ↔
      ∃ tree stop, body.Runs table start ⟨tree, stop⟩ ∧ result = ⟨tree, stop.rewindTo start⟩ := by
  simp only [runs_iff_evaluates]
  constructor
  · intro run
    cases run with
    | lookahead seen => exact ⟨_, _, seen, rfl⟩
  · rintro ⟨tree, stop, seen, rfl⟩
    exact .lookahead seen

/-- An optional expression answers as it does, or else with nothing where it began. -/
theorem runs_optional :
    (optional body).Runs table start result ↔
      (body.Runs table start result ∧ result.tree ≠ .failed) ∨
      ∃ stop, body.Runs table start ⟨.failed, stop⟩ ∧ result = ⟨.nothing, start⟩ := by
  simp only [runs_iff_evaluates]
  constructor
  · intro run
    cases run with
    | recoverPassed attempt success => exact .inl ⟨attempt, success⟩
    | backtracked attempt => exact .inr ⟨_, attempt, rfl⟩
  · rintro (⟨attempt, success⟩ | ⟨stop, attempt, rfl⟩)
    · exact .recoverPassed attempt success
    · exact .backtracked attempt

/-- A repetition ends where its body fails or stays, or goes on behind a body that moved. -/
theorem runs_many :
    (many body).Runs table start result ↔
      (∃ tree stop, body.Runs table start ⟨tree, stop⟩ ∧
        (tree = .failed ∨ stop.position = start.position) ∧ result = ⟨.sequence [], start⟩) ∨
      ∃ tree middle entries stop, body.Runs table start ⟨tree, middle⟩ ∧ tree ≠ .failed ∧
        middle.position ≠ start.position ∧
        (many body).Runs table middle ⟨.sequence entries, stop⟩ ∧
        result = ⟨.sequence (tree :: entries), stop⟩ := by
  simp only [runs_iff_evaluates]
  constructor
  · intro run
    cases run with
    | manyFailed attempt => exact .inl ⟨_, _, attempt, .inl rfl, rfl⟩
    | manyStayed attempt _ stayed => exact .inl ⟨_, _, attempt, .inr stayed, rfl⟩
    | manyNext round success moved later =>
      exact .inr ⟨_, _, _, _, round, success, moved, later, rfl⟩
  · rintro (⟨tree, stop, attempt, last, rfl⟩ |
      ⟨tree, middle, entries, stop, round, success, moved, later, rfl⟩)
    · by_cases failed : tree = .failed
      · subst failed
        exact .manyFailed attempt
      · exact .manyStayed attempt failed (last.resolve_left failed)
    · exact .manyNext round success moved later

/-- The first round of a repetition that may not be empty is of its own kind: a failure is that of
the whole, and a success counts although it may not have moved. -/
theorem runs_many1 :
    (many1 body).Runs table start result ↔
      (∃ stop, body.Runs table start ⟨.failed, stop⟩ ∧ result = ⟨.failed, stop⟩) ∨
      ∃ tree middle entries stop, body.Runs table start ⟨tree, middle⟩ ∧ tree ≠ .failed ∧
        (many body).Runs table middle ⟨.sequence entries, stop⟩ ∧
        result = ⟨.sequence (tree :: entries), stop⟩ := by
  simp only [runs_iff_evaluates]
  constructor
  · intro run
    cases run with
    | many1Failed first => exact .inl ⟨_, first, rfl⟩
    | many1 first success later => exact .inr ⟨_, _, _, _, first, success, later, rfl⟩
  · rintro (⟨stop, first, rfl⟩ | ⟨tree, middle, entries, stop, first, success, later, rfl⟩)
    · exact .many1Failed first
    · exact .many1 first success later

/-- A list without a first element is refused or empty. Otherwise it ends with that element, or
behind a delimiter if the round stayed where it began, or goes on behind a delimiter. -/
theorem runs_separated :
    (separated required element delimiter).Runs table start result ↔
      (∃ stop, element.Runs table start ⟨.failed, stop⟩ ∧
        result = if required then ⟨.failed, stop⟩ else ⟨.sequence [], start⟩) ∨
      ∃ tree middle, element.Runs table start ⟨tree, middle⟩ ∧ tree ≠ .failed ∧
        ((∃ stop, delimiter.Runs table middle ⟨.failed, stop⟩ ∧
          result = ⟨.sequence [tree], middle⟩) ∨
        ∃ mark next, delimiter.Runs table middle ⟨mark, next⟩ ∧ mark ≠ .failed ∧
          ((next.position = start.position ∧ result = ⟨.sequence [tree], next⟩) ∨
          next.position ≠ start.position ∧ ∃ entries stop,
            (separated false element delimiter).Runs table next ⟨.sequence entries, stop⟩ ∧
            result = ⟨.sequence (tree :: entries), stop⟩)) := by
  simp only [runs_iff_evaluates]
  constructor
  · intro run
    cases run with
    | separatedRefused missing => exact .inl ⟨_, missing, rfl⟩
    | separatedNil missing => exact .inl ⟨_, missing, rfl⟩
    | separatedLast first success missing =>
      exact .inr ⟨_, _, first, success, .inl ⟨_, missing, rfl⟩⟩
    | separatedStayed first success between marked stayed =>
      exact .inr ⟨_, _, first, success, .inr ⟨_, _, between, marked, .inl ⟨stayed, rfl⟩⟩⟩
    | separatedNext first success between marked moved later =>
      exact .inr ⟨_, _, first, success,
        .inr ⟨_, _, between, marked, .inr ⟨moved, _, _, later, rfl⟩⟩⟩
  · rintro (⟨stop, missing, rfl⟩ | ⟨tree, middle, first, success, ⟨stop, missing, rfl⟩ |
      ⟨mark, next, between, marked, ⟨stayed, rfl⟩ | ⟨moved, entries, stop, later, rfl⟩⟩⟩)
    · cases required with
      | true => exact .separatedRefused missing
      | false => exact .separatedNil missing
    · exact .separatedLast first success missing
    · exact .separatedStayed first success between marked stayed
    · exact .separatedNext first success between marked moved later

/-- A terminator that is missing makes the whole fail. It adds nothing to the tree. -/
theorem runs_terminated :
    (terminated body terminator).Runs table start result ↔
      (∃ stop, body.Runs table start ⟨.failed, stop⟩ ∧ result = ⟨.failed, stop⟩) ∨
      ∃ tree middle, body.Runs table start ⟨tree, middle⟩ ∧ tree ≠ .failed ∧
        ((∃ stop, terminator.Runs table middle ⟨.failed, stop⟩ ∧ result = ⟨.failed, stop⟩) ∨
        ∃ closing stop, terminator.Runs table middle ⟨closing, stop⟩ ∧ closing ≠ .failed ∧
          result = ⟨tree, stop⟩) := by
  simp only [runs_iff_evaluates]
  constructor
  · intro run
    cases run with
    | terminatedFailed first => exact .inl ⟨_, first, rfl⟩
    | terminatedOpen first success missing =>
      exact .inr ⟨_, _, first, success, .inl ⟨_, missing, rfl⟩⟩
    | terminated first success last closed =>
      exact .inr ⟨_, _, first, success, .inr ⟨_, _, last, closed, rfl⟩⟩
  · rintro (⟨stop, first, rfl⟩ |
      ⟨tree, middle, first, success, ⟨stop, missing, rfl⟩ | ⟨closing, stop, last, closed, rfl⟩⟩)
    · exact .terminatedFailed first
    · exact .terminatedOpen first success missing
    · exact .terminated first success last closed

end Parser

end Descent
