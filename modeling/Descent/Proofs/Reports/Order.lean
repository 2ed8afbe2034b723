import Descent.Proofs.Moves
import Descent.Proofs.Reports

/-!
# Order of the reports

Where nothing looks ahead, reports come in the order of the input: each is about the token at which
the state stood when it was made, and the state never moves back without forgetting what it has
reported. A run that fails stops at the token of its last report.
-/

namespace Descent

/-- The reports are about tokens of the input between two positions, in the order of the input. Both
positions count, and several reports may be about one token. -/
def ReportsAlong (input : Nat → Token) (start stop : Nat) (reports : List Diagnostic) : Prop :=
  ∃ positions : List Nat, reports.map (·.token) = positions.map input ∧
    positions.Pairwise (· ≤ ·) ∧ ∀ i ∈ positions, start ≤ i ∧ i ≤ stop

namespace ReportsAlong

variable {input : Nat → Token} {start middle stop : Nat} {front back : List Diagnostic}

theorem nil : ReportsAlong input start stop [] := ⟨[], by simp⟩

theorem single (problem : Problem) : ReportsAlong input start start [⟨input start, problem⟩] :=
  ⟨[start], by simp⟩

theorem append (first : ReportsAlong input start middle front)
    (later : ReportsAlong input middle stop back) (le : start ≤ middle) (le' : middle ≤ stop) :
    ReportsAlong input start stop (front ++ back) := by
  obtain ⟨positions, tokens, increasing, within⟩ := first
  obtain ⟨positions', tokens', increasing', within'⟩ := later
  refine ⟨positions ++ positions', by simp [tokens, tokens'], ?_, ?_⟩
  · refine List.pairwise_append.mpr ⟨increasing, increasing', fun i mem j mem' => ?_⟩
    exact Nat.le_trans (within i mem).2 (within' j mem').1
  · intro i mem
    rcases List.mem_append.mp mem with mem | mem
    · have bounds := within i mem
      omega
    · have bounds := within' i mem
      omega

end ReportsAlong

namespace State

/-- What was reported on the way from a state to another is about the tokens passed. -/
structure ReportsOnWay (start stop : State) : Prop where
  input_eq : stop.input = start.input
  le : start.position ≤ stop.position
  reports : ∃ added, stop.log.toList = start.log.toList ++ added ∧
    ReportsAlong start.input start.position stop.position added

theorem ReportsOnWay.trans {start middle stop : State} (first : start.ReportsOnWay middle)
    (later : middle.ReportsOnWay stop) : start.ReportsOnWay stop := by
  obtain ⟨added, log, along⟩ := first.reports
  obtain ⟨added', log', along'⟩ := later.reports
  rw [first.input_eq] at along'
  refine ⟨later.input_eq.trans first.input_eq, Nat.le_trans first.le later.le, added ++ added', ?_,
    along.append along' first.le later.le⟩
  rw [log', log, List.append_assoc]

/-- Without looking ahead every move reports on its way. -/
theorem Moves.reportsOnWay {looking : Prop} {start stop : State} (way : Moves looking start stop)
    (blind : ¬ looking) : start.ReportsOnWay stop := by
  induction way with
  | stay => exact ⟨rfl, Nat.le_refl _, [], by simp, .nil⟩
  | advance => exact ⟨rfl, Nat.le_succ _, [], by simp, .nil⟩
  | @report state problem _ =>
    exact ⟨rfl, Nat.le_refl _, [⟨state.peek, problem⟩], by simp, .single problem⟩
  | rewind allowed => exact absurd allowed blind
  | trans _ _ first later => exact first.trans later

/-- The state stands at the token of the last report. -/
def AtLastReport (state : State) : Prop :=
  ∃ last, state.log.toList.getLast? = some last ∧ last.token = state.peek

theorem atLastReport_reject (state : State) (problem : Problem) :
    (state.reject problem).state.AtLastReport :=
  ⟨⟨state.peek, problem⟩, by simp [reject, Result.failure], rfl⟩

theorem atLastReport_exhausted {start : State} {ends : List State}
    (stops : ∀ stop ∈ ends, stop.AtLastReport) : (start.exhausted ends).state.AtLastReport := by
  rcases exhausted_cases start ends with gaveUp | ⟨stop, mem, gaveUp⟩
  · rw [gaveUp]
    exact atLastReport_reject _ _
  · rw [gaveUp]
    exact stops stop mem

end State

namespace Parser

variable {table : RuleTable} {resync : Prop} {parser : Parser} {state : State} {result : Result}

/-- A failure without custom steps and without looking ahead stops at the token of its last
report. -/
theorem Evaluates.atLastReport {forbidden : Feature → Prop}
    (h : parser.Evaluates table resync state result) (avoids : parser.Avoids table forbidden)
    (plain : forbidden .custom) (blind : forbidden .lookahead) (failed : result.tree = .failed) :
    result.state.AtLastReport := by
  induction h with
  | token | sequenceNil | sequenceCons | backtracked | resynchronised | manyFailed | manyStayed
  | manyNext | many1 | separatedNil | separatedLast | separatedStayed | separatedNext | production
  | labeled => cases failed
  | chosen _ _ success | recoverPassed _ success | terminated _ success =>
    exact absurd failed success
  | mismatch | unbound | malformed => exact State.atLastReport_reject _ _
  | sequenceFailed _ attempt | rootFailed _ attempt | many1Failed _ attempt
  | separatedRefused _ attempt | terminatedFailed _ attempt | productionFailed _ attempt
  | labeledFailed _ attempt =>
    exact attempt (avoids.first rfl) rfl
  | sequenceStopped _ _ _ _ later => exact later avoids.rest rfl
  | terminatedOpen _ _ _ _ missing => exact missing (avoids.second rfl) rfl
  | exhausted _ failures =>
    apply State.atLastReport_exhausted
    intro stop mem
    obtain ⟨attempt, tried, rfl⟩ := List.mem_map.mp mem
    exact failures attempt tried
      (fun _ no => (avoids no).part (List.mem_map_of_mem tried)) rfl
  | lookahead => exact absurd blind (avoids.own rfl)
  | rule bound _ answer => exact answer (avoids.body bound) failed
  | recoverCustom | custom => exact absurd plain (avoids.own rfl)

/-- Diagnostics come in the order of the input. The reports that a run adds are about tokens at
positions from its start to its end that never decrease. If it fails, there is a last report, and it
is about the token at which the run stopped. -/
theorem reports_in_input_order (plain : parser.Lacks table .custom)
    (blind : parser.Lacks table .lookahead) (runs : parser.Runs table state result) :
    ∃ added, result.state.log.toList = state.log.toList ++ added ∧
      (∃ positions : List Nat, added.map (·.token) = positions.map state.input ∧
        positions.Pairwise (· ≤ ·) ∧
        ∀ i ∈ positions, state.position ≤ i ∧ i ≤ result.state.position) ∧
      (result.tree = .failed → ∃ last, added.getLast? = some last ∧
        last.token = state.input result.state.position) := by
  have evaluates := runs_iff_evaluates.mp runs
  have avoids : parser.Avoids table (parser.Lacks table) := fun _ lacks => lacks
  have way := (evaluates.moves avoids plain).reportsOnWay (not_not_intro blind)
  obtain ⟨added, log, along⟩ := way.reports
  refine ⟨added, log, along, fun failed => ?_⟩
  obtain ⟨last, isLast, token⟩ := evaluates.atLastReport avoids plain blind failed
  obtain ⟨added', reported, log'⟩ := runs.explained plain failed
  obtain rfl : added' = added := List.append_cancel_left (log'.symm.trans log)
  rw [log, List.getLast?_append_of_ne_nil _ reported] at isLast
  rw [State.peek, way.input_eq] at token
  exact ⟨last, isLast, token⟩

/-- A pair that may be skipped, and a full stop. -/
def pairAndStop : Parser := sequence [pairOrSkip, char '.']

/-- A bracket that is not closed, and nothing behind the semicolon. -/
def unfinishedTokens : TokenStream :=
  .ofList [{ kind := .ofChar '(', text := "(" }, { kind := .ofChar ';', text := ";" }] none

/-- The bracket is not closed at the semicolon, and there is no full stop at the end. -/
def unfinishedReports : List Diagnostic :=
  [⟨unfinishedTokens.tokenAt 1, .expected (.ofChar ')') "';'"⟩,
    ⟨unfinishedTokens.tokenAt 2, .expected (.ofChar '.') "EOF"⟩]

theorem reports_in_input_order_pairAndStop :
    (pairAndStop.Lacks .empty .custom ∧ pairAndStop.Lacks .empty .lookahead ∧
      pairAndStop.Runs .empty (.start unfinishedTokens.tokenAt)
        ⟨.failed, ⟨unfinishedTokens.tokenAt, 2, unfinishedReports.foldl .push .empty⟩⟩) ∧
    ∃ added, (unfinishedReports.foldl Log.push .empty).toList = Log.empty.toList ++ added ∧
      (∃ positions : List Nat,
        added.map (·.token) = positions.map unfinishedTokens.tokenAt ∧
        positions.Pairwise (· ≤ ·) ∧ ∀ i ∈ positions, 0 ≤ i ∧ i ≤ 2) ∧
      (Tree.failed = .failed → ∃ last, added.getLast? = some last ∧
        last.token = unfinishedTokens.tokenAt 2) := by
  have plain : pairAndStop.Lacks .empty .custom := lacks_of_not_mentions rfl rfl
  have blind : pairAndStop.Lacks .empty .lookahead := lacks_of_not_mentions rfl rfl
  have runs : pairAndStop.Runs .empty (.start unfinishedTokens.tokenAt)
      ⟨.failed, ⟨unfinishedTokens.tokenAt, 2, unfinishedReports.foldl .push .empty⟩⟩ :=
    ⟨5, by rfl⟩
  exact ⟨⟨plain, blind, runs⟩, reports_in_input_order plain blind runs⟩

end Parser

end Descent
