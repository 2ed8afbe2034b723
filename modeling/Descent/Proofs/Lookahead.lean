import Descent.Proofs.Repetition
import Descent.Proofs.Reports

/-!
# Looking ahead

Looking ahead for something that may be missing cannot fail and does not move. A failure is
forgotten with its reports, but a success keeps its own: `lookahead` takes back the position only,
and `optional` answers to failures only. So what is looked at leaves a trace exactly if it succeeds
and has reported something, which takes a recovery inside it.
-/

namespace Descent

/-- Going back to the start leaves it as it was exactly if nothing was reported on the way. -/
theorem State.GoesOn.rewindTo_eq_iff {start stop : State} (way : start.GoesOn stop) :
    stop.rewindTo start = start ↔ stop.log = start.log := by
  obtain ⟨input, position, log⟩ := stop
  obtain ⟨input', position', log'⟩ := start
  obtain rfl : input = input' := way.input_eq
  simp [State.rewindTo]

namespace Parser

variable {table : RuleTable} {body : Parser} {start : State} {result : Result}

/-- What is found, or nothing, where it began. The reports are those of what is found. -/
theorem runs_optionalLookahead :
    (optionalLookahead body).Runs table start result ↔
      (∃ tree stop, body.Runs table start ⟨tree, stop⟩ ∧ tree ≠ .failed ∧
        result = ⟨tree, stop.rewindTo start⟩) ∨
      ∃ stop, body.Runs table start ⟨.failed, stop⟩ ∧ result = ⟨.nothing, start⟩ := by
  rw [optionalLookahead, runs_lookahead]
  constructor
  · rintro ⟨tree, stop, run, rfl⟩
    obtain ⟨seen, success⟩ | ⟨refused, missing, same⟩ := runs_optional.mp run
    · exact .inl ⟨tree, stop, seen, success, rfl⟩
    · cases same
      exact .inr ⟨refused, missing, rfl⟩
  · rintro (⟨tree, stop, seen, success, rfl⟩ | ⟨refused, missing, rfl⟩)
    · exact ⟨tree, stop, runs_optional.mpr (.inl ⟨seen, success⟩), rfl⟩
    · exact ⟨.nothing, start, runs_optional.mpr (.inr ⟨refused, missing, rfl⟩), rfl⟩

/-- Looking ahead for something that may be missing comes to an answer wherever the body does. It
does not fail, and it does not move. The state is the same as before if and only if the body fails,
or succeeds without a report. Otherwise the reports of the body stay, which takes a
resynchronisation in a part of the body that was kept. -/
theorem optionalLookahead_answers (plain : body.Lacks table .custom)
    (runs : body.Runs table start result) :
    ∃ answer : Result,
      (∀ other, (optionalLookahead body).Runs table start other ↔ other = answer) ∧
      answer.tree = (if result.tree = .failed then .nothing else result.tree) ∧
      answer.tree ≠ .failed ∧ answer.state.input = start.input ∧
      answer.state.position = start.position ∧
      (answer.state = start ↔ result.tree = .failed ∨ result.state.log = start.log) ∧
      (answer.state ≠ start → answer.state.log = result.state.log ∧
        body.Uses table .resynchronisation ∧ body.Recovers table start result) := by
  obtain ⟨tree, stop⟩ := result
  have way := (runs_iff_evaluates.mp runs).goesOn plain
  by_cases failed : tree = .failed
  · subst failed
    have answer : (optionalLookahead body).Runs table start ⟨.nothing, start⟩ :=
      runs_optionalLookahead.mpr (.inr ⟨stop, runs, rfl⟩)
    exact ⟨_, fun _ => answer.iff_eq, by simp, by simp, rfl, rfl, by simp,
      fun changed => absurd rfl changed⟩
  · have answer : (optionalLookahead body).Runs table start ⟨tree, stop.rewindTo start⟩ :=
      runs_optionalLookahead.mpr (.inl ⟨tree, stop, runs, failed, rfl⟩)
    refine ⟨_, fun _ => answer.iff_eq, by simp [failed], failed, way.input_eq, rfl,
      by simp [way.rewindTo_eq_iff, failed], fun changed => ?_⟩
    have reported : stop.log ≠ start.log := mt way.rewindTo_eq_iff.mpr changed
    refine ⟨rfl, ?_, runs.recovers plain failed reported⟩
    by_contra steady
    exact reported (runs.silent plain steady failed)

/-- In front of the question mark, where the cross is missing and something can be skipped. -/
def beforeSkipped : State := ⟨crossOrSkipTokens.tokenAt, 1, .empty⟩

theorem optionalLookahead_answers_crossOrSkip :
    crossOrSkip.Lacks .empty .custom ∧
      crossOrSkip.Runs .empty beforeSkipped ⟨.nothing, behindCrosses⟩ ∧
    ∃ answer : Result,
      (∀ other, (optionalLookahead crossOrSkip).Runs .empty beforeSkipped other ↔
        other = answer) ∧
      answer.tree = .nothing ∧ answer.state.input = beforeSkipped.input ∧
      answer.state.position = 1 ∧ answer.state ≠ beforeSkipped ∧
      answer.state.log = behindCrosses.log ∧ crossOrSkip.Uses .empty .resynchronisation ∧
      crossOrSkip.Recovers .empty beforeSkipped ⟨.nothing, behindCrosses⟩ := by
  have plain : crossOrSkip.Lacks .empty .custom := lacks_of_not_mentions rfl rfl
  have runs : crossOrSkip.Runs .empty beforeSkipped ⟨.nothing, behindCrosses⟩ := ⟨6, by rfl⟩
  obtain ⟨answer, only, tree, -, input, position, same, traced⟩ :=
    optionalLookahead_answers plain runs
  have changed : answer.state ≠ beforeSkipped := by
    intro unchanged
    obtain failed | silent := same.mp unchanged
    · cases failed
    · exact absurd (congrArg Log.size silent) (by decide)
  exact ⟨plain, runs, answer, only, tree, input, position, changed, traced changed⟩

/-- Looking ahead for something that may be missing does not always leave the log as it was. -/
theorem optionalLookahead_traced :
    ¬ ∀ (table : RuleTable) (body : Parser) (start : State) (result : Result),
      body.Lacks table .custom → body.Runs table start result →
        ∃ other, (optionalLookahead body).Runs table start other ∧ other.tree ≠ .failed ∧
          other.state.position = start.position ∧ other.state.log = start.log := by
  intro law
  have plain : crossOrSkip.Lacks .empty .custom := lacks_of_not_mentions rfl rfl
  have runs : crossOrSkip.Runs .empty beforeSkipped ⟨.nothing, behindCrosses⟩ := ⟨6, by rfl⟩
  have answer : (optionalLookahead crossOrSkip).Runs .empty beforeSkipped
      ⟨.nothing, behindCrosses.rewindTo beforeSkipped⟩ := ⟨6, by rfl⟩
  obtain ⟨other, run, -, -, log⟩ := law .empty crossOrSkip beforeSkipped _ plain runs
  cases run.unique answer
  exact absurd (congrArg Log.size log) (by decide)

end Parser

end Descent
