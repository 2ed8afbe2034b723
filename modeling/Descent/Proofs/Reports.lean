import Descent.Proofs.Locality

/-!
# Failures and reports

A failure is always explained: a run without custom steps that fails has added a report to the log
that it was given. A success is silent, unless a recovery kept the reports of what it gave up. So
where nothing is resynchronised a run fails exactly if its log has grown, although most combinators
try parts whose failures are forgotten.
-/

namespace Descent

namespace State

variable {a b start : State} {ends : List State}

theorem GoesOn.size_le (way : a.GoesOn b) : a.log.size ≤ b.log.size := by
  obtain ⟨added, log⟩ := way.reports
  have sizes := congrArg List.length log
  simp only [Log.length_toList, List.length_append] at sizes
  omega

theorem reject_size_lt (state : State) (problem : Problem) :
    state.log.size < (state.reject problem).state.log.size :=
  Nat.lt_succ_self _

/-- A choice that gives up adds a report if all its attempts did: either it ends as one of them or
it reports that there is no alternative. -/
theorem exhausted_size_lt (reported : ∀ stop ∈ ends, start.log.size < stop.log.size) :
    start.log.size < (start.exhausted ends).state.log.size := by
  rcases exhausted_cases start ends with gaveUp | ⟨stop, mem, gaveUp⟩
  · rw [gaveUp]
    exact reject_size_lt _ _
  · rw [gaveUp]
    exact reported stop mem

end State

namespace Parser

variable {table : RuleTable} {resync : Prop} {parser : Parser} {state : State} {result : Result}

/-- A failure of an expression without custom steps has added a report. -/
theorem Evaluates.failure_reported (h : parser.Evaluates table resync state result)
    (plain : parser.Lacks table .custom) (failed : result.tree = .failed) :
    state.log.size < result.state.log.size := by
  induction h with
  | token | sequenceNil | sequenceCons | backtracked | resynchronised | manyFailed | manyStayed
  | manyNext | many1 | separatedNil | separatedLast | separatedStayed | separatedNext | production
  | labeled => cases failed
  | chosen _ _ success | recoverPassed _ success | terminated _ success =>
    exact absurd failed success
  | mismatch | unbound => exact State.reject_size_lt _ _
  | sequenceFailed _ first => exact first (lacks_sequence_cons.mp plain).1 rfl
  | sequenceStopped first _ _ _ later =>
    obtain ⟨plainFirst, plainLater⟩ := lacks_sequence_cons.mp plain
    have before := (first.goesOn plainFirst).size_le
    have after := later plainLater rfl
    exact Nat.lt_of_le_of_lt before after
  | exhausted _ failures =>
    apply State.exhausted_size_lt
    intro stop mem
    obtain ⟨attempt, tried, rfl⟩ := List.mem_map.mp mem
    exact failures attempt tried (plain.part (List.mem_map_of_mem tried)) rfl
  | lookahead _ seen => exact seen (plain.first rfl) failed
  | rootFailed _ attempt | many1Failed _ attempt | separatedRefused _ attempt
  | terminatedFailed _ attempt | productionFailed _ attempt | labeledFailed _ attempt =>
    exact attempt (plain.first rfl) rfl
  | terminatedOpen first _ _ _ missing =>
    have before := (first.goesOn (plain.first rfl)).size_le
    have after := missing (plain.second rfl) rfl
    exact Nat.lt_of_le_of_lt before after
  | malformed content =>
    have before := (content.goesOn (plain.first rfl)).size_le
    exact Nat.lt_of_le_of_lt before (State.reject_size_lt _ _)
  | rule bound _ answer => exact answer (plain.body bound) failed
  | recoverCustom | custom => exact (plain.own rfl).elim

/-- A success adds no report if no recovery took place, be it that none can be reached. -/
theorem Evaluates.success_silent {forbidden : Feature → Prop}
    (h : parser.Evaluates table resync state result) (avoids : parser.Avoids table forbidden)
    (plain : forbidden .custom) (steady : resync → forbidden .resynchronisation)
    (success : result.tree ≠ .failed) : result.state.log = state.log := by
  induction h with
  | token | sequenceNil | backtracked | manyFailed | manyStayed | separatedNil => rfl
  | mismatch | sequenceFailed | sequenceStopped | rootFailed | many1Failed | separatedRefused
  | terminatedFailed | terminatedOpen | productionFailed | malformed | labeledFailed | unbound =>
    exact absurd rfl success
  | exhausted => exact absurd (State.exhausted_tree _ _) success
  | sequenceCons _ passed _ first later =>
    have head := first (avoids.first rfl) passed
    have tail := later avoids.rest (by simp)
    exact tail.trans head
  | chosen _ _ passed _ taken => exact taken avoids.chosen passed
  | lookahead _ seen => exact seen (avoids.first rfl) success
  | recoverPassed _ passed attempt => exact attempt (avoids.first rfl) passed
  | resynchronised allowed => exact absurd (steady allowed) (avoids.own rfl)
  | manyNext _ passed _ _ round later =>
    have head := round (avoids.first rfl) passed
    have tail := later avoids (by simp)
    exact tail.trans head
  | many1 _ passed _ first later =>
    have head := first (avoids.first rfl) passed
    have tail := later avoids.many (by simp)
    exact tail.trans head
  | separatedLast _ passed _ first => exact first (avoids.first rfl) passed
  | separatedStayed _ passed _ marked _ first between =>
    have head := first (avoids.first rfl) passed
    have tail := between (avoids.second rfl) marked
    exact tail.trans head
  | separatedNext _ passed _ marked _ _ first between later =>
    have head := first (avoids.first rfl) passed
    have middle := between (avoids.second rfl) marked
    have tail := later avoids.separated (by simp)
    exact tail.trans (middle.trans head)
  | terminated _ passed _ closed first last =>
    have head := first (avoids.first rfl) passed
    have tail := last (avoids.second rfl) closed
    exact tail.trans head
  | production _ passed _ content | labeled _ passed content =>
    exact content (avoids.first rfl) passed
  | rule bound _ answer => exact answer (avoids.body bound) success
  | recoverCustom | custom => exact absurd plain (avoids.own rfl)

/-- A recovery took place: the run has this answer, but not without resynchronisation. -/
def Recovers (table : RuleTable) (parser : Parser) (state : State) (result : Result) : Prop :=
  parser.Runs table state result ∧ ¬ parser.Evaluates table False state result

theorem Runs.explained (runs : parser.Runs table state result)
    (plain : parser.Lacks table .custom) (failed : result.tree = .failed) :
    ∃ added, added ≠ [] ∧ result.state.log.toList = state.log.toList ++ added := by
  have evaluates := runs_iff_evaluates.mp runs
  obtain ⟨added, log⟩ := (evaluates.goesOn plain).reports
  refine ⟨added, ?_, log⟩
  rintro rfl
  have grown := evaluates.failure_reported plain failed
  have same : result.state.log = state.log := Log.ext_toList (by simpa using log)
  rw [same] at grown
  exact Nat.lt_irrefl _ grown

theorem Runs.silent (runs : parser.Runs table state result) (plain : parser.Lacks table .custom)
    (steady : parser.Lacks table .resynchronisation) (success : result.tree ≠ .failed) :
    result.state.log = state.log := by
  have evaluates := runs_iff_evaluates.mp runs
  exact evaluates.success_silent (fun _ lacks => lacks) plain (fun _ => steady) success

theorem Runs.recovers (runs : parser.Runs table state result)
    (plain : parser.Lacks table .custom) (success : result.tree ≠ .failed)
    (reported : result.state.log ≠ state.log) : parser.Recovers table state result := by
  refine ⟨runs, fun evaluates => reported ?_⟩
  exact evaluates.success_silent (fun _ lacks => lacks) plain False.elim success

/-- Failures and reports agree. A failure has added reports to the log; a success has not, unless
something can be resynchronised. So without resynchronisation a run from the start of an input fails
exactly if it reports something, and reports beside a tree mean that a recovery took place. -/
theorem reports_agree_with_failure (plain : parser.Lacks table .custom) :
    (∀ state result, parser.Runs table state result → result.tree = .failed →
      ∃ added, added ≠ [] ∧ result.state.log.toList = state.log.toList ++ added) ∧
    (parser.Lacks table .resynchronisation → ∀ state result, parser.Runs table state result →
      result.tree ≠ .failed → result.state.log = state.log) ∧
    (parser.Lacks table .resynchronisation → ∀ input result,
      parser.Runs table (.start input) result →
        (result.tree = .failed ↔ result.state.log.toList ≠ [])) ∧
    ∀ input result, parser.Runs table (.start input) result → result.tree ≠ .failed →
      result.state.log.toList ≠ [] →
        parser.Uses table .resynchronisation ∧ parser.Recovers table (.start input) result := by
  refine ⟨fun _ _ runs => runs.explained plain, fun steady _ _ runs => runs.silent plain steady,
    ?_, ?_⟩
  · intro steady input result runs
    constructor
    · intro failed
      obtain ⟨added, nonempty, log⟩ := runs.explained plain failed
      simpa [log, State.start] using nonempty
    · intro reported
      by_contra success
      apply reported
      rw [runs.silent plain steady success]
      rfl
  · intro input result runs success reported
    have changed : result.state.log ≠ (State.start input).log := by
      intro same
      apply reported
      rw [same]
      rfl
    constructor
    · by_contra steady
      exact changed (runs.silent plain steady success)
    · exact runs.recovers plain success changed

/-- An open bracket and a semicolon. -/
def openInput : Nat → Token
  | 0 => { kind := .ofChar '(', text := "(" }
  | 1 => { kind := .ofChar ';', text := ";" }
  | _ => .endOfInput

theorem reports_agree_with_failure_pair :
    (pair.Lacks .empty .custom ∧ pair.Lacks .empty .resynchronisation ∧
      pair.Runs .empty (.start openInput) ⟨.failed, ⟨openInput, 1, .push .empty unclosed⟩⟩ ∧
      (Tree.failed = .failed ↔ (Log.push .empty unclosed).toList ≠ [])) ∧
    pairOrSkip.Lacks .empty .custom ∧
      pairOrSkip.Runs .empty (.start openInput) ⟨.nothing, ⟨openInput, 2, .push .empty unclosed⟩⟩ ∧
      pairOrSkip.Uses .empty .resynchronisation ∧
      pairOrSkip.Recovers .empty (.start openInput)
        ⟨.nothing, ⟨openInput, 2, .push .empty unclosed⟩⟩ := by
  have plain : pair.Lacks .empty .custom := lacks_of_not_mentions rfl rfl
  have steady : pair.Lacks .empty .resynchronisation := lacks_of_not_mentions rfl rfl
  have fails : pair.Runs .empty (.start openInput)
      ⟨.failed, ⟨openInput, 1, .push .empty unclosed⟩⟩ := ⟨5, by rfl⟩
  have plain' : pairOrSkip.Lacks .empty .custom := lacks_of_not_mentions rfl rfl
  have recovers : pairOrSkip.Runs .empty (.start openInput)
      ⟨.nothing, ⟨openInput, 2, .push .empty unclosed⟩⟩ := ⟨5, by rfl⟩
  obtain ⟨-, -, agree, -⟩ := reports_agree_with_failure plain
  obtain ⟨-, -, -, recovered⟩ := reports_agree_with_failure plain'
  exact ⟨⟨plain, steady, fails, agree steady _ _ fails⟩, plain', recovers,
    recovered _ _ recovers (by simp) (by simp)⟩

end Parser

end Descent
