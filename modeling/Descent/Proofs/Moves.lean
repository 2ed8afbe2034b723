import Descent.Proofs.Tree.WellFormed

/-!
# Moves

Whatever an expression without custom steps is made of, its run takes the state through a few kinds
of moves: consuming a token, reporting a problem at the current token, and going back after looking
ahead. What is proved along these moves holds of every run.

A malformed tree is not among the problems that are reported. Productions check their content, but
the content is well formed and the check never fails.
-/

namespace Descent

/-- Whether an expression without custom steps can report the problem. -/
def Problem.IsOrdinary : Problem → Prop
  | .malformedTree .. => False
  | _ => True

namespace State

/-- The ways from a state to another. Only `looking` allows to look ahead. -/
inductive Moves (looking : Prop) : State → State → Prop where
  | stay {state} : Moves looking state state
  | advance {state} : Moves looking state state.advance
  | report {state problem} (ordinary : problem.IsOrdinary) :
      Moves looking state (state.report state.peek problem)
  | rewind {start stop} (allowed : looking) (way : Moves looking start stop) :
      Moves looking start (stop.rewindTo start)
  | trans {start middle stop} (first : Moves looking start middle)
      (later : Moves looking middle stop) : Moves looking start stop

namespace Moves

variable {looking : Prop} {start stop : State}

theorem skipPast {kind : TokenKind} {bound : Nat}
    (skipped : start.skipPast kind bound = some stop) : Moves looking start stop := by
  induction bound generalizing start with
  | zero => cases skipped
  | succ bound ih =>
    simp only [State.skipPast] at skipped
    split at skipped
    · cases skipped
      exact .stay
    · split at skipped
      · cases skipped
        exact .advance
      · exact .trans .advance (ih skipped)

theorem exhausted {ends : List State} (ways : ∀ stop ∈ ends, Moves looking start stop) :
    Moves looking start (start.exhausted ends).state := by
  rcases exhausted_cases start ends with gaveUp | ⟨stop, mem, gaveUp⟩
  · rw [gaveUp]
    exact .report trivial
  · rw [gaveUp]
    exact ways stop mem

/-- Moves only add ordinary reports to the log. -/
theorem reports (way : Moves looking start stop) :
    ∃ added, stop.log.toList = start.log.toList ++ added ∧
      ∀ diagnostic ∈ added, diagnostic.problem.IsOrdinary := by
  induction way with
  | stay => exact ⟨[], by simp⟩
  | advance => exact ⟨[], by simp⟩
  | @report state problem ordinary =>
    exact ⟨[⟨state.peek, problem⟩], by simp, List.forall_mem_singleton.mpr ordinary⟩
  | rewind _ _ ih => exact ih
  | trans _ _ first later =>
    obtain ⟨added, log, ordinary⟩ := first
    obtain ⟨added', log', ordinary'⟩ := later
    refine ⟨added ++ added', by rw [log', log, List.append_assoc], ?_⟩
    exact List.forall_mem_append.mpr ⟨ordinary, ordinary'⟩

end Moves

end State

namespace Parser

variable {table : RuleTable} {resync : Prop} {parser : Parser} {state : State} {result : Result}

/-- A run of an expression without custom steps consists of moves. It looks ahead only if that is
not forbidden. -/
theorem Evaluates.moves {forbidden : Feature → Prop}
    (h : parser.Evaluates table resync state result) (avoids : parser.Avoids table forbidden)
    (plain : forbidden .custom) :
    State.Moves (¬ forbidden .lookahead) state result.state := by
  induction h with
  | token => exact .advance
  | mismatch | unbound => exact .report trivial
  | sequenceNil | backtracked | manyFailed | manyStayed | separatedNil => exact .stay
  | sequenceStopped _ _ _ first later | sequenceCons _ _ _ first later =>
    exact .trans (first (avoids.first rfl)) (later avoids.rest)
  | chosen _ _ _ _ taken => exact taken avoids.chosen
  | exhausted _ failures =>
    apply State.Moves.exhausted
    intro stop mem
    obtain ⟨attempt, tried, rfl⟩ := List.mem_map.mp mem
    exact failures attempt tried fun _ no => (avoids no).part (List.mem_map_of_mem tried)
  | lookahead _ seen => exact .rewind (avoids.own rfl) (seen (avoids.first rfl))
  | sequenceFailed _ attempt | recoverPassed _ _ attempt | rootFailed _ attempt
  | many1Failed _ attempt
  | separatedRefused _ attempt | terminatedFailed _ attempt | productionFailed _ attempt
  | labeledFailed _ attempt | production _ _ _ attempt | labeled _ _ attempt
  | separatedLast _ _ _ attempt =>
    exact attempt (avoids.first rfl)
  | resynchronised _ _ skipped attempt =>
    exact .trans (attempt (avoids.first rfl)) (.skipPast skipped)
  | manyNext _ _ _ _ round later => exact .trans (round (avoids.first rfl)) (later avoids)
  | many1 _ _ _ first later => exact .trans (first (avoids.first rfl)) (later avoids.many)
  | separatedStayed _ _ _ _ _ first between =>
    exact .trans (first (avoids.first rfl)) (between (avoids.second rfl))
  | separatedNext _ _ _ _ _ _ first between later =>
    have round := (first (avoids.first rfl)).trans (between (avoids.second rfl))
    exact round.trans (later avoids.separated)
  | terminatedOpen _ _ _ first last | terminated _ _ _ _ first last =>
    exact .trans (first (avoids.first rfl)) (last (avoids.second rfl))
  | malformed content success nested =>
    exact absurd nested (content.content_ok (avoids.first rfl plain) success)
  | rule bound _ answer => exact answer (avoids.body bound)
  | recoverCustom | custom => exact absurd plain (avoids.own rfl)

/-- Trees are well formed. A run without custom steps fails, or its tree holds no failure at any
depth. Every production in a tree has its children in one level: nothing, tokens, productions and
labeled trees. Therefore no production that the expression reaches finds its content malformed, and
no malformed tree is reported. -/
theorem trees_well_formed (plain : parser.Lacks table .custom)
    (runs : parser.Runs table state result) :
    (result.tree = .failed ∨ ∀ node : Tree, node.Occurs result.tree → node ≠ .failed) ∧
    (∀ name children, (Tree.production name children).Occurs result.tree →
      ∀ child ∈ children, child.isChild) ∧
    (∃ added, result.state.log.toList = state.log.toList ++ added ∧
      ∀ diagnostic ∈ added, ∀ name reason, diagnostic.problem ≠ .malformedTree name reason) ∧
    ∀ name body, parser.Reaches table (production name body) → ∀ start content,
      body.Runs table start content → content.tree ≠ .failed →
        ∃ children, Step.children content.tree = .ok children := by
  have evaluates := runs_iff_evaluates.mp runs
  obtain ⟨added, log, ordinary⟩ := (evaluates.moves (fun _ lacks => lacks) plain).reports
  refine ⟨?_, ?_, ⟨added, log, ?_⟩, ?_⟩
  · by_cases failed : result.tree = .failed
    · exact .inl failed
    · exact .inr fun node occurs => (evaluates.wellFormed plain failed).ne_failed occurs
  · intro name children occurs
    have success : result.tree ≠ .failed := by
      intro failed
      rw [failed] at occurs
      cases occurs with
      | part mem => cases mem
    exact fun child mem => (evaluates.wellFormed plain success).isChild occurs mem
  · intro diagnostic mem name reason same
    have ordinary := ordinary diagnostic mem
    rw [same] at ordinary
    exact ordinary
  · intro name body reaches start content runs success
    have plain' := (plain.reached reaches).first rfl
    obtain ⟨children, flat, -⟩ :=
      Step.exists_children ((runs_iff_evaluates.mp runs).wellFormed plain' success)
    exact ⟨children, flat⟩

/-- Any number of crosses, each with or without a comma behind it. -/
def row : Parser := production "row" (many (sequence [char 'x', optional (char ',')]))

/-- A cross, and a cross with a comma. -/
def rowTokens : TokenStream :=
  .ofList [{ kind := .ofChar 'x', text := "x" }, { kind := .ofChar 'x', text := "x" },
    { kind := .ofChar ',', text := "," }] none

def rowTree : Tree :=
  .production "row" [.token (rowTokens.tokenAt 0), .nothing, .token (rowTokens.tokenAt 1),
    .token (rowTokens.tokenAt 2)]

theorem trees_well_formed_row :
    (row.Lacks .empty .custom ∧
      row.Runs .empty (.start rowTokens.tokenAt) ⟨rowTree, ⟨rowTokens.tokenAt, 3, .empty⟩⟩) ∧
    (rowTree = .failed ∨ ∀ node : Tree, node.Occurs rowTree → node ≠ .failed) ∧
    (∀ name children, (Tree.production name children).Occurs rowTree →
      ∀ child ∈ children, child.isChild) ∧
    (∃ added, Log.empty.toList = Log.empty.toList ++ added ∧
      ∀ diagnostic ∈ added, ∀ name reason, diagnostic.problem ≠ .malformedTree name reason) ∧
    ∀ name body, row.Reaches .empty (production name body) → ∀ start content,
      body.Runs .empty start content → content.tree ≠ .failed →
        ∃ children, Step.children content.tree = .ok children := by
  have plain : row.Lacks .empty .custom := lacks_of_not_mentions rfl rfl
  have runs : row.Runs .empty (.start rowTokens.tokenAt)
      ⟨rowTree, ⟨rowTokens.tokenAt, 3, .empty⟩⟩ := ⟨5, by rfl⟩
  exact ⟨⟨plain, runs⟩, trees_well_formed plain runs⟩

end Parser

end Descent
