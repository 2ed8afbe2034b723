import Descent.Proofs.Confinement
import Descent.Proofs.Repetition
import Descent.Proofs.Reports
import Descent.Proofs.Separation

/-!
# Statements

A list of statements, each resynchronised where it fails, gets through the whole stream. The loop
makes one attempt behind another. An attempt inside the stream always moves: if the statement
succeeds, since it advances, and if it fails, since something is skipped then. The attempt at the
end fails and does not move, so the loop gives it up with its reports and ends.

`Visits` tells where the loop attempts a statement. Only there a statement has to come to an answer.
-/

namespace Descent

open Descent.Parser

/-- The states at which a repetition starts a round. -/
inductive Parser.Visits (table : RuleTable) (body : Parser) : State → State → Prop where
  | here {state} : Visits table body state state
  | later {start tree middle stop} (round : Proceeds table body start tree middle)
      (further : Visits table body middle stop) : Visits table body start stop

/-- An attempt, with its tree and with what it added to the log. -/
structure Attempt where
  start : State
  tree : Tree
  reports : List Diagnostic
  stop : State

/-- The attempts follow one another without a gap, from the one state to the other. -/
def Tiles : State → List Attempt → State → Prop
  | start, [], stop => start = stop
  | start, attempt :: rest, stop => attempt.start = start ∧ Tiles attempt.stop rest stop

/-- What an attempt of a resynchronised expression comes to. It moves. It has the tree and the state
of the expression if that succeeds. Otherwise its tree is nothing, and its reports are those of the
failure, at least one. -/
structure Attempt.Recovers (table : RuleTable) (kind : TokenKind) (body : Parser)
    (attempt : Attempt) : Prop where
  runs : (recoverTo kind body).Runs table attempt.start ⟨attempt.tree, attempt.stop⟩
  moved : attempt.start.position < attempt.stop.position
  log : attempt.stop.log.toList = attempt.start.log.toList ++ attempt.reports
  outcome :
    (attempt.tree ≠ .failed ∧ body.Runs table attempt.start ⟨attempt.tree, attempt.stop⟩) ∨
    (attempt.tree = .nothing ∧ attempt.reports ≠ [] ∧
      ∃ refused, body.Runs table attempt.start ⟨.failed, refused⟩ ∧
        attempt.stop.log = refused.log)

variable {table : RuleTable} {kind : TokenKind} {body : Parser} {stream : TokenStream}
variable {start stop : State} {attempt : Attempt} {attempts : List Attempt}

/-! ## Attempts in a row -/

theorem Attempt.Recovers.proceeds (h : attempt.Recovers table kind body) :
    Proceeds table (recoverTo kind body) attempt.start attempt.tree attempt.stop := by
  refine ⟨h.runs, ?_, Nat.ne_of_gt h.moved⟩
  obtain ⟨success, _⟩ | ⟨nothing, _⟩ := h.outcome
  · exact success
  · simp [nothing]

namespace Tiles

/-- Attempts in a row are the rounds of the loop if there is none behind them. -/
theorem repeats (tiles : Tiles start attempts stop)
    (each : ∀ attempt ∈ attempts, attempt.Recovers table kind body)
    (last : Exhausted table (recoverTo kind body) stop) :
    Repeats table (recoverTo kind body) start (attempts.map Attempt.tree) stop := by
  induction attempts generalizing start with
  | nil =>
    cases tiles
    exact .ended last
  | cons attempt rest ih =>
    obtain ⟨rfl, tiles⟩ := tiles
    obtain ⟨first, others⟩ := List.forall_mem_cons.mp each
    exact .next first.proceeds (ih tiles others)

/-- The reports of attempts in a row stand in the log one behind another. -/
theorem log (tiles : Tiles start attempts stop)
    (each : ∀ attempt ∈ attempts, attempt.Recovers table kind body) :
    stop.log.toList = start.log.toList ++ attempts.flatMap Attempt.reports := by
  induction attempts generalizing start with
  | nil =>
    cases tiles
    simp
  | cons attempt rest ih =>
    obtain ⟨rfl, tiles⟩ := tiles
    obtain ⟨first, others⟩ := List.forall_mem_cons.mp each
    rw [ih tiles others, first.log, List.flatMap_cons, List.append_assoc]

end Tiles

/-! ## One attempt -/

theorem TokenStream.not_atEnd (inside : ∀ token ∈ stream.toList, token.kind ≠ .endOfInput)
    (input : start.input = stream.tokenAt) (within : start.position < stream.size) :
    ¬ start.atEnd := by
  rw [State.atEnd_iff, State.peek, input, tokenAt_of_lt within]
  exact inside _ (List.getElem_mem within)

namespace Parser

theorem Confined.recoverTo (confined : body.Confined table) :
    (recoverTo kind body).Confined table :=
  .of_parts (by simp [Parser.recoverTo]) (by simp [Parser.recoverTo, feature?])
    (by simp [Parser.recoverTo, endOfInput]) (List.forall_mem_singleton.mpr confined)

/-- Inside the stream an attempt moves, whether the expression succeeds or not. -/
theorem exists_attempt (kind : TokenKind) (ended : stream.Ended)
    (inside : ∀ token ∈ stream.toList, token.kind ≠ .endOfInput) (confined : body.Confined table)
    (advances : body.Advances table) (input : start.input = stream.tokenAt)
    (within : start.position < stream.size) (ends : ∃ result, body.Runs table start result) :
    ∃ attempt : Attempt, attempt.start = start ∧ attempt.Recovers table kind body := by
  obtain ⟨⟨tree, stop⟩, run⟩ := ends
  by_cases failed : tree = .failed
  · subst failed
    have way := run.staysIn confined ended input
    have input' := way.input_eq.trans input
    obtain ⟨added, nonempty, log⟩ := run.explained confined.plain rfl
    obtain ⟨after, skipped, later⟩ := Step.exists_skipPast kind ended input' (Nat.lt_succ_self _)
    -- a failure at the end has moved by itself, and in front of it something is skipped
    have moved : start.position < after.position := by
      by_cases reached : stream.size ≤ stop.position
      · exact Nat.lt_of_lt_of_le within (Nat.le_trans reached later.le)
      · have token := TokenStream.not_atEnd inside input' (Nat.not_le.mp reached)
        exact Nat.lt_of_le_of_lt way.le (State.skipPast_lt skipped token)
    have same := State.skipPast_log skipped
    exact ⟨⟨start, .nothing, added, after⟩, rfl,
      runs_recoverTo.mpr (.inr ⟨stop, _, after, run, skipped, rfl⟩), moved, same ▸ log,
      .inr ⟨rfl, nonempty, stop, run, same⟩⟩
  · obtain ⟨added, log⟩ := ((runs_iff_evaluates.mp run).goesOn confined.plain).reports
    exact ⟨⟨start, tree, added, stop⟩, rfl, runs_recoverTo.mpr (.inl ⟨run, failed⟩),
      advances run failed, log, .inl ⟨failed, run⟩⟩

/-- At the end an expression that would have to advance fails where it stands, and nothing is
skipped. -/
theorem refused_at_end (kind : TokenKind) (ended : stream.Ended) (confined : body.Confined table)
    (advances : body.Advances table) (input : start.input = stream.tokenAt)
    (outside : start.position = stream.size) (ends : ∃ result, body.Runs table start result) :
    ∃ refused, body.Runs table start ⟨.failed, refused⟩ ∧ refused.position = start.position ∧
      (recoverTo kind body).Runs table start ⟨.nothing, refused⟩ := by
  obtain ⟨⟨tree, stop⟩, run⟩ := ends
  have way := run.staysIn confined ended input
  have stayed : stop.position = start.position := by
    have le_max : stop.position ≤ max start.position stream.size := way.le_max
    exact Nat.le_antisymm (by omega) way.le
  have failed : tree = .failed := by
    by_contra success
    exact Nat.ne_of_gt (advances run success) stayed
  subst failed
  have atEnd : stop.atEnd := by
    rw [State.atEnd_iff, State.peek, way.input_eq.trans input]
    exact ended.kind_of_size_le (by omega)
  exact ⟨stop, run, stayed,
    runs_recoverTo.mpr (.inr ⟨stop, 1, stop, run, State.skipPast_atEnd atEnd, rfl⟩)⟩

/-! ## All attempts -/

/-- Attempts follow one another up to the end of the stream. Each leaves fewer tokens. -/
theorem exists_attempts (ended : stream.Ended)
    (inside : ∀ token ∈ stream.toList, token.kind ≠ .endOfInput) (confined : body.Confined table)
    (advances : body.Advances table) (input : start.input = stream.tokenAt)
    (within : start.position ≤ stream.size)
    (ends : ∀ state, Visits table (recoverTo kind body) start state →
      ∃ result, body.Runs table state result) :
    ∃ attempts stop, Tiles start attempts stop ∧ stop.position = stream.size ∧
      stop.input = stream.tokenAt ∧ Visits table (recoverTo kind body) start stop ∧
      ∀ attempt ∈ attempts, attempt.start.position < stream.size ∧
        attempt.Recovers table kind body := by
  generalize left : stream.size - start.position = count
  induction count using Nat.strongRecOn generalizing start with
  | ind count ih =>
    by_cases outside : start.position = stream.size
    · exact ⟨[], start, rfl, outside, input, .here, by simp⟩
    have within' := Nat.lt_of_le_of_ne within outside
    obtain ⟨attempt, rfl, recovers⟩ :=
      exists_attempt kind ended inside confined advances input within' (ends _ .here)
    have way := recovers.runs.staysIn confined.recoverTo ended input
    have le_max := way.le_max
    have moved := recovers.moved
    obtain ⟨rest, stop, tiles, last, input', visited, each⟩ :=
      ih (stream.size - attempt.stop.position) (by omega) (way.input_eq.trans input) (by omega)
        (fun state visits => ends state (.later recovers.proceeds visits)) rfl
    exact ⟨attempt :: rest, stop, ⟨rfl, tiles⟩, last, input', .later recovers.proceeds visited,
      List.forall_mem_cons.mpr ⟨⟨within', recovers⟩, each⟩⟩

/-- A list of statements with resynchronisation gets through the whole stream. If the statement only
succeeds by advancing and comes to an answer wherever it is attempted, then the loop has one answer,
a sequence, at the end of the stream. The attempts inside the stream follow one another from the
start to there. Each gives one tree: that of the statement, with its reports, or nothing for a
statement that failed, with all its reports, at least one. The log has been extended by these
reports in this order. One more attempt is made at the end. It fails, is given nothing to skip, and
is forgotten with its reports. -/
theorem statements_recovered (kind : TokenKind) (ended : stream.Ended)
    (inside : ∀ token ∈ stream.toList, token.kind ≠ .endOfInput) (confined : body.Confined table)
    (advances : body.Advances table) (input : start.input = stream.tokenAt)
    (within : start.position ≤ stream.size)
    (ends : ∀ state, Visits table (recoverTo kind body) start state →
      ∃ result, body.Runs table state result) :
    ∃ (attempts : List Attempt) (stop : State),
      (∀ result, (many (recoverTo kind body)).Runs table start result ↔
        result = ⟨.sequence (attempts.map Attempt.tree), stop⟩) ∧
      stop.position = stream.size ∧ Tiles start attempts stop ∧
      (∀ attempt ∈ attempts, attempt.start.position < stream.size ∧
        attempt.Recovers table kind body) ∧
      stop.log.toList = start.log.toList ++ attempts.flatMap Attempt.reports ∧
      ∃ refused, body.Runs table stop ⟨.failed, refused⟩ ∧ refused.position = stop.position ∧
        (recoverTo kind body).Runs table stop ⟨.nothing, refused⟩ := by
  obtain ⟨attempts, stop, tiles, last, input', visited, each⟩ :=
    exists_attempts ended inside confined advances input within ends
  obtain ⟨refused, failure, stayed, skipped⟩ :=
    refused_at_end kind ended confined advances input' last (ends stop visited)
  have recovers := fun attempt mem => (each attempt mem).2
  have loop : (many (recoverTo kind body)).Runs table start
      ⟨.sequence (attempts.map Attempt.tree), stop⟩ :=
    (tiles.repeats recovers ⟨_, _, skipped, .inr stayed⟩).runs
  exact ⟨attempts, stop, fun _ => loop.iff_eq, last, tiles, each, tiles.log recovers, refused,
    failure, stayed, skipped⟩

theorem statements_recovered_crosses :
    (crossOrSkipTokens.Ended ∧ (∀ token ∈ crossOrSkipTokens.toList, token.kind ≠ .endOfInput) ∧
      (char 'x').Confined .empty ∧ (char 'x').Advances .empty ∧
      ∀ state, ∃ result, (char 'x').Runs .empty state result) ∧
    ∃ attempts : List Attempt,
      attempts.map Attempt.tree = [.token (crossOrSkipTokens.tokenAt 0), .nothing] ∧
      Tiles (.start crossOrSkipTokens.tokenAt) attempts behindCrosses ∧
      (∀ attempt ∈ attempts, attempt.start.position < crossOrSkipTokens.size ∧
        attempt.Recovers .empty (.ofChar ';') (char 'x')) ∧
      behindCrosses.log.toList = attempts.flatMap Attempt.reports ∧
      ∃ refused, (char 'x').Runs .empty behindCrosses ⟨.failed, refused⟩ ∧
        refused.position = behindCrosses.position ∧
        crossOrSkip.Runs .empty behindCrosses ⟨.nothing, refused⟩ := by
  have ended : crossOrSkipTokens.Ended := fun _ given => nomatch given
  have inside : ∀ token ∈ crossOrSkipTokens.toList, token.kind ≠ .endOfInput := by decide
  have spares : ¬ (char 'x').Reaches .empty endOfInput := fun reaches =>
    nomatch Contains.textHas reaches (fun | token kind => kind.isEnd | _ => false) rfl
  have confined : (char 'x').Confined .empty := ⟨lacks_of_not_mentions rfl rfl, spares⟩
  have advances : (char 'x').Advances .empty := token_advances (.ofChar 'x')
  have ends (state : State) : ∃ result, (char 'x').Runs .empty state result := by
    by_cases found : state.peek.kind = .ofChar 'x'
    · exact ⟨_, (runs_token_of_found found).mpr rfl⟩
    · exact ⟨_, (runs_token_of_other found).mpr rfl⟩
  have loop : (many crossOrSkip).Runs .empty (.start crossOrSkipTokens.tokenAt)
      ⟨.sequence [.token (crossOrSkipTokens.tokenAt 0), .nothing], behindCrosses⟩ := ⟨6, by rfl⟩
  have input : (State.start crossOrSkipTokens.tokenAt).input = crossOrSkipTokens.tokenAt := rfl
  obtain ⟨attempts, stop, only, -, tiles, each, log, last⟩ :=
    statements_recovered (.ofChar ';') ended inside confined advances input (Nat.zero_le _)
      fun state _ => ends state
  obtain ⟨trees, rfl⟩ :
      [.token (crossOrSkipTokens.tokenAt 0), .nothing] = attempts.map Attempt.tree ∧
        behindCrosses = stop := by
    simpa using (only _).mp loop
  exact ⟨⟨ended, inside, confined, advances, ends⟩, attempts, trees.symm, tiles, each, log, last⟩

end Parser

end Descent
