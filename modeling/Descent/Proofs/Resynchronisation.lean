import Descent.Proofs.Evaluation.Rounds
import Descent.Proofs.Termination

/-!
# Resynchronisation

Behind a failure a resynchronisation skips to the first token of its kind and past it, or up to the
end of the input, whichever comes first. It reports nothing by itself and never consumes the end, so
on a stream it stays inside, and it gets further unless it stands at the end already.
-/

namespace Descent

namespace State

variable {stream : TokenStream} {start stop : State} {kind : TokenKind} {bound : Nat}

theorem atEnd_iff {state : State} : state.atEnd ↔ state.peek.kind = .endOfInput :=
  TokenKind.isEnd_iff

/-- Skipping comes to rest at the first token that is of the end or of the kind. The end stays, and
a token of the kind is consumed. -/
theorem skipPast_rests (skipped : start.skipPast kind bound = some stop) :
    ∃ count, (∀ i < count, ¬ (start.skip i).atEnd ∧ (start.skip i).peek.kind ≠ kind) ∧
      ((start.skip count).atEnd ∧ stop = start.skip count ∨
        ¬ (start.skip count).atEnd ∧ (start.skip count).peek.kind = kind ∧
          stop = start.skip (count + 1)) := by
  induction bound generalizing start with
  | zero => cases skipped
  | succ bound ih =>
    simp only [skipPast] at skipped
    split at skipped
    · next atEnd =>
      cases skipped
      exact ⟨0, by simp, .inl ⟨atEnd, rfl⟩⟩
    · next inside =>
      split at skipped
      · next found =>
        cases skipped
        exact ⟨0, by simp, .inr ⟨inside, found, rfl⟩⟩
      · next other =>
        -- what is skipped from the next token on is skipped from here on, one token more
        have later : (start.skip 1).skipPast kind bound = some stop := skipped
        obtain ⟨count, before, rests⟩ := ih later
        simp only [skip_skip, Nat.add_comm 1] at before rests
        refine ⟨count + 1, fun i within => ?_, rests⟩
        cases i with
        | zero => exact ⟨inside, other⟩
        | succ i => exact before i (Nat.lt_of_succ_lt_succ within)

/-- Skipping changes nothing but the position. -/
theorem skipPast_eq_skip (skipped : start.skipPast kind bound = some stop) :
    ∃ count, stop = start.skip count := by
  obtain ⟨count, _, ⟨_, same⟩ | ⟨_, _, same⟩⟩ := skipPast_rests skipped
  · exact ⟨count, same⟩
  · exact ⟨count + 1, same⟩

theorem skipPast_log (skipped : start.skipPast kind bound = some stop) : stop.log = start.log := by
  obtain ⟨count, rfl⟩ := skipPast_eq_skip skipped
  rfl

/-- Skipping does not stay in front of a token that is not of the end. -/
theorem skipPast_lt (skipped : start.skipPast kind bound = some stop) (inside : ¬ start.atEnd) :
    start.position < stop.position := by
  obtain ⟨count, _, ⟨atEnd, rfl⟩ | ⟨_, _, rfl⟩⟩ := skipPast_rests skipped
  · cases count with
    | zero => exact absurd atEnd inside
    | succ count => exact Nat.lt_add_of_pos_right (Nat.succ_pos count)
  · exact Nat.lt_add_of_pos_right (Nat.succ_pos count)

/-- At the end nothing is skipped. -/
theorem skipPast_atEnd (atEnd : start.atEnd) : start.skipPast kind (bound + 1) = some start :=
  if_pos atEnd

/-- Everything that is skipped stands inside the stream. -/
theorem StaysIn.skipPast (ended : stream.Ended) (input : start.input = stream.tokenAt)
    (skipped : start.skipPast kind bound = some stop) : start.StaysIn stream stop := by
  have inside {i : Nat} (other : ¬ (start.skip i).atEnd) : start.position + i < stream.size := by
    apply ended.lt_size
    rw [← input]
    exact fun found => other (atEnd_iff.mpr found)
  obtain ⟨count, before, ⟨_, rfl⟩ | ⟨other, _, rfl⟩⟩ := skipPast_rests skipped
  · refine ⟨rfl, Nat.le_add_right _ _, ?_⟩
    cases count with
    | zero => exact Nat.le_max_left _ _
    | succ count =>
      have last := inside (before count (Nat.lt_succ_self count)).1
      simp only [skip_position]
      omega
  · have last := inside other
    exact ⟨rfl, Nat.le_add_right _ _, by simp only [skip_position]; omega⟩

end State

namespace Parser

variable {table : RuleTable} {body : Parser} {start : State} {result : Result} {kind : TokenKind}

/-- A resynchronised expression answers as it does, or else with nothing behind what is skipped. -/
theorem runs_recoverTo :
    (recoverTo kind body).Runs table start result ↔
      (body.Runs table start result ∧ result.tree ≠ .failed) ∨
      ∃ stop bound after, body.Runs table start ⟨.failed, stop⟩ ∧
        stop.skipPast kind bound = some after ∧ result = ⟨.nothing, after⟩ := by
  simp only [runs_iff_evaluates]
  constructor
  · intro run
    cases run with
    | recoverPassed attempt success => exact .inl ⟨attempt, success⟩
    | resynchronised _ attempt skipped => exact .inr ⟨_, _, _, attempt, skipped, rfl⟩
  · rintro (⟨attempt, success⟩ | ⟨stop, bound, after, attempt, skipped, rfl⟩)
    · exact .recoverPassed attempt success
    · exact .resynchronised trivial attempt skipped

end Parser

end Descent
