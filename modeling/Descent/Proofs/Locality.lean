import Descent.Proofs.Evaluation.Runs
import Descent.Proofs.Features
import Descent.Proofs.View

/-!
# Locality

What an expression does depends only on the input from its start on. From states that are alike
under a view, an expression without custom steps goes on alike and gives trees that look the same.
Looking at everything, this says that a run depends neither on the tokens before its start nor on
the reports that it was given, and comparing a run with itself, that it never moves back and only
adds to its log.
-/

namespace Descent

namespace Parser

open State

variable {table : RuleTable} {resync : Prop} {view : View} {parser : Parser} {a b stop : State}
variable {tree : Tree} {result : Result}

/-- From `b` the expression answers what looks like a given answer from `a`. -/
def AnswersAlike (table : RuleTable) (resync : Prop) (view : View) (parser : Parser) (a b : State)
    (result : Result) : Prop :=
  ∃ tree stop, parser.Evaluates table resync b ⟨tree, stop⟩ ∧
    tree.mapTokens view.token = result.tree.mapTokens view.token ∧
    GoAlike view a b result.state stop

namespace AnswersAlike

theorem failed (h : AnswersAlike table resync view parser a b ⟨.failed, stop⟩) :
    ∃ stop', parser.Evaluates table resync b ⟨.failed, stop'⟩ ∧ GoAlike view a b stop stop' := by
  obtain ⟨tree, stop', evaluates, same, way⟩ := h
  have failed : tree = .failed := (Tree.failed_iff_of_mapTokens_eq same).mpr rfl
  subst failed
  exact ⟨stop', evaluates, way⟩

theorem succeeds (h : AnswersAlike table resync view parser a b ⟨tree, stop⟩)
    (success : tree ≠ .failed) :
    ∃ tree' stop', parser.Evaluates table resync b ⟨tree', stop'⟩ ∧ tree' ≠ .failed ∧
      tree'.mapTokens view.token = tree.mapTokens view.token ∧ GoAlike view a b stop stop' := by
  obtain ⟨tree', stop', evaluates, same, way⟩ := h
  have success' : tree' ≠ .failed := fun failed =>
    success ((Tree.failed_iff_of_mapTokens_eq same).mp failed)
  exact ⟨tree', stop', evaluates, success', same, way⟩

theorem sequence {entries : List Tree}
    (h : AnswersAlike table resync view parser a b ⟨.sequence entries, stop⟩) :
    ∃ entries' stop', parser.Evaluates table resync b ⟨.sequence entries', stop'⟩ ∧
      Tree.mapTokensEach view.token entries' = Tree.mapTokensEach view.token entries ∧
      GoAlike view a b stop stop' := by
  obtain ⟨tree, stop', evaluates, same, way⟩ := h
  obtain ⟨entries', rfl, same'⟩ := Tree.exists_sequence_of_mapTokens_eq same
  exact ⟨entries', stop', evaluates, same', way⟩

/-- Attempts that are refused from `a` are refused from `b`, and end alike. -/
theorem refused {refused : List (Parser × State)}
    (h : ∀ attempt ∈ refused, AnswersAlike table resync view attempt.1 a b ⟨.failed, attempt.2⟩) :
    ∃ refused' : List (Parser × State), refused'.map Prod.fst = refused.map Prod.fst ∧
      (∀ attempt ∈ refused', attempt.1.Evaluates table resync b ⟨.failed, attempt.2⟩) ∧
      List.Forall₂ (GoAlike view a b) (refused.map Prod.snd) (refused'.map Prod.snd) := by
  induction refused with
  | nil => exact ⟨[], rfl, (fun _ mem => nomatch mem), .nil⟩
  | cons attempt refused ih =>
    obtain ⟨first, others⟩ := List.forall_mem_cons.mp h
    obtain ⟨stop, evaluates, way⟩ := first.failed
    obtain ⟨refused', same, failures, ways⟩ := ih others
    refine ⟨(attempt.1, stop) :: refused', by simp [same], ?_, .cons way ways⟩
    exact List.forall_mem_cons.mpr ⟨evaluates, failures⟩

end AnswersAlike

/-- From alike states an expression without custom steps answers alike. -/
theorem Evaluates.alike (h : parser.Evaluates table resync a result)
    (plain : parser.Lacks table .custom) (same : Alike view a b) :
    AnswersAlike table resync view parser a b result := by
  induction h generalizing b with
  | token found =>
    exact ⟨_, _, .token (same.peek_kind ▸ found), by simp [Tree.mapTokens, same.peek], same.advance⟩
  | mismatch other =>
    exact ⟨_, _, .mismatch (same.peek_kind ▸ other), rfl,
      same.report (view.expected_eq _ same.peek)⟩
  | sequenceNil => exact ⟨_, _, .sequenceNil, rfl, same.stay⟩
  | sequenceFailed _ first =>
    obtain ⟨plainFirst, _⟩ := lacks_sequence_cons.mp plain
    obtain ⟨stop, first, way⟩ := (first plainFirst same).failed
    exact ⟨_, _, .sequenceFailed first, rfl, way⟩
  | sequenceStopped _ success _ first later =>
    obtain ⟨plainFirst, plainLater⟩ := lacks_sequence_cons.mp plain
    obtain ⟨_, _, first, success, _, way⟩ := (first plainFirst same).succeeds success
    obtain ⟨_, later, way'⟩ := (later plainLater (same.go way)).failed
    exact ⟨_, _, .sequenceStopped first success later, rfl, way.trans way'⟩
  | sequenceCons _ success _ first later =>
    obtain ⟨plainFirst, plainLater⟩ := lacks_sequence_cons.mp plain
    obtain ⟨_, _, first, success, head, way⟩ := (first plainFirst same).succeeds success
    obtain ⟨_, _, later, tail, way'⟩ := (later plainLater (same.go way)).sequence
    exact ⟨_, _, .sequenceCons first success later, by simp [Tree.mapTokens, Tree.mapTokensEach,
      head, tail], way.trans way'⟩
  | chosen _ _ success failures taken =>
    obtain ⟨refused, names, failures, _⟩ := AnswersAlike.refused fun attempt mem =>
      failures attempt mem (plain.refused mem) same
    obtain ⟨_, _, taken, success, trees, way⟩ :=
      (taken plain.chosen same).succeeds success
    exact ⟨_, _, names ▸ .chosen failures taken success, trees, way⟩
  | exhausted _ failures =>
    obtain ⟨refused, names, failures, ends⟩ := AnswersAlike.refused fun attempt mem =>
      failures attempt mem (plain.part (List.mem_map_of_mem mem)) same
    -- The choice decides by how far its attempts got and by what they reported since its start.
    obtain ⟨_, stop, left, right, way⟩ := same.exhausted ends
    rw [left, ← names]
    exact ⟨.failed, stop, right ▸ .exhausted failures, rfl, way⟩
  | lookahead _ seen =>
    obtain ⟨_, _, seen, trees, way⟩ := seen (plain.first rfl) same
    exact ⟨_, _, .lookahead seen, trees, way.rewindTo same⟩
  | recoverPassed _ success attempt =>
    obtain ⟨_, _, attempt, success, trees, way⟩ :=
      (attempt (plain.first rfl) same).succeeds success
    exact ⟨_, _, .recoverPassed attempt success, trees, way⟩
  | rootFailed _ attempt =>
    obtain ⟨_, attempt, way⟩ := (attempt (plain.first rfl) same).failed
    exact ⟨_, _, .rootFailed attempt, rfl, way⟩
  | backtracked _ attempt =>
    obtain ⟨_, attempt, _⟩ := (attempt (plain.first rfl) same).failed
    exact ⟨_, _, .backtracked attempt, rfl, same.stay⟩
  | resynchronised allowed _ skipped attempt =>
    obtain ⟨_, attempt, way⟩ := (attempt (plain.first rfl) same).failed
    obtain ⟨_, skipped, way'⟩ := (same.go way).skipPast skipped
    exact ⟨_, _, .resynchronised allowed attempt skipped, rfl, way.trans way'⟩
  | recoverCustom => exact (plain.own rfl).elim
  | manyFailed _ attempt =>
    obtain ⟨_, attempt, _⟩ := (attempt (plain.first rfl) same).failed
    exact ⟨_, _, .manyFailed attempt, rfl, same.stay⟩
  | manyStayed _ success stayed attempt =>
    obtain ⟨_, _, attempt, success, _, way⟩ :=
      (attempt (plain.first rfl) same).succeeds success
    -- Rounds stay on both sides or on none, since they start and stop at the same positions.
    have stayed' := way.position_eq ▸ same.position_eq ▸ stayed
    exact ⟨_, _, .manyStayed attempt success stayed', rfl, same.stay⟩
  | manyNext _ success moved _ round later =>
    obtain ⟨_, _, round, success, head, way⟩ :=
      (round (plain.first rfl) same).succeeds success
    obtain ⟨_, _, later, tail, way'⟩ := (later plain (same.go way)).sequence
    have moved' := way.position_eq ▸ same.position_eq ▸ moved
    exact ⟨_, _, .manyNext round success moved' later, by simp [Tree.mapTokens,
      Tree.mapTokensEach, head, tail], way.trans way'⟩
  | many1Failed _ first =>
    obtain ⟨_, first, way⟩ := (first (plain.first rfl) same).failed
    exact ⟨_, _, .many1Failed first, rfl, way⟩
  | many1 _ success _ first later =>
    obtain ⟨_, _, first, success, head, way⟩ :=
      (first (plain.first rfl) same).succeeds success
    obtain ⟨_, _, later, tail, way'⟩ := (later plain.many (same.go way)).sequence
    exact ⟨_, _, .many1 first success later, by simp [Tree.mapTokens, Tree.mapTokensEach, head,
      tail], way.trans way'⟩
  | separatedRefused _ missing =>
    obtain ⟨_, missing, way⟩ := (missing (plain.first rfl) same).failed
    exact ⟨_, _, .separatedRefused missing, rfl, way⟩
  | separatedNil _ missing =>
    obtain ⟨_, missing, _⟩ := (missing (plain.first rfl) same).failed
    exact ⟨_, _, .separatedNil missing, rfl, same.stay⟩
  | separatedLast _ success _ first missing =>
    obtain ⟨_, _, first, success, head, way⟩ :=
      (first (plain.first rfl) same).succeeds success
    obtain ⟨_, missing, _⟩ := (missing (plain.second rfl) (same.go way)).failed
    exact ⟨_, _, .separatedLast first success missing, by simp [Tree.mapTokens,
      Tree.mapTokensEach, head], way⟩
  | separatedStayed _ success _ marked stayed first between =>
    obtain ⟨_, _, first, success, head, way⟩ :=
      (first (plain.first rfl) same).succeeds success
    obtain ⟨_, _, between, marked, _, way'⟩ :=
      (between (plain.second rfl) (same.go way)).succeeds marked
    have stayed' := way'.position_eq ▸ same.position_eq ▸ stayed
    exact ⟨_, _, .separatedStayed first success between marked stayed', by simp [Tree.mapTokens,
      Tree.mapTokensEach, head], way.trans way'⟩
  | separatedNext _ success _ marked moved _ first between later =>
    obtain ⟨_, _, first, success, head, way⟩ :=
      (first (plain.first rfl) same).succeeds success
    obtain ⟨_, _, between, marked, _, way'⟩ :=
      (between (plain.second rfl) (same.go way)).succeeds marked
    have round := way.trans way'
    obtain ⟨_, _, later, tail, way''⟩ := (later plain.separated (same.go round)).sequence
    have moved' := way'.position_eq ▸ same.position_eq ▸ moved
    exact ⟨_, _, .separatedNext first success between marked moved' later, by simp [Tree.mapTokens,
      Tree.mapTokensEach, head, tail], round.trans way''⟩
  | terminatedFailed _ first =>
    obtain ⟨_, first, way⟩ := (first (plain.first rfl) same).failed
    exact ⟨_, _, .terminatedFailed first, rfl, way⟩
  | terminatedOpen _ success _ first missing =>
    obtain ⟨_, _, first, success, _, way⟩ :=
      (first (plain.first rfl) same).succeeds success
    obtain ⟨_, missing, way'⟩ := (missing (plain.second rfl) (same.go way)).failed
    exact ⟨_, _, .terminatedOpen first success missing, rfl, way.trans way'⟩
  | terminated _ success _ closed first last =>
    obtain ⟨_, _, first, success, trees, way⟩ :=
      (first (plain.first rfl) same).succeeds success
    obtain ⟨_, _, last, closed, _, way'⟩ :=
      (last (plain.second rfl) (same.go way)).succeeds closed
    exact ⟨_, _, .terminated first success last closed, trees, way.trans way'⟩
  | productionFailed _ attempt =>
    obtain ⟨_, attempt, way⟩ := (attempt (plain.first rfl) same).failed
    exact ⟨_, _, .productionFailed attempt, rfl, way⟩
  | production _ success flat content =>
    obtain ⟨_, _, content, success, trees, way⟩ :=
      (content (plain.first rfl) same).succeeds success
    obtain ⟨_, flat, children⟩ := Step.children_ok_of_mapTokens_eq trees flat
    exact ⟨_, _, .production content success flat, by simp [Tree.mapTokens, children], way⟩
  | malformed _ success nested content =>
    obtain ⟨_, _, content, success, trees, way⟩ :=
      (content (plain.first rfl) same).succeeds success
    have nested := Step.children_error_of_mapTokens_eq trees nested
    exact ⟨_, _, .malformed content success nested, rfl, way.trans ((same.go way).report rfl)⟩
  | labeledFailed _ attempt =>
    obtain ⟨_, attempt, way⟩ := (attempt (plain.first rfl) same).failed
    exact ⟨_, _, .labeledFailed attempt, rfl, way⟩
  | labeled _ success content =>
    obtain ⟨_, _, content, success, trees, way⟩ :=
      (content (plain.first rfl) same).succeeds success
    exact ⟨_, _, .labeled content success, by simp [Tree.mapTokens, trees], way⟩
  | rule bound _ answer =>
    obtain ⟨_, _, answer, trees, way⟩ := answer (plain.body bound) same
    exact ⟨_, _, .rule bound answer, trees, way⟩
  | unbound missing => exact ⟨_, _, .unbound missing, rfl, same.report rfl⟩
  | custom => exact (plain.own rfl).elim

/-! ## Two runs -/

/-- An expression without custom steps keeps the input, never moves back and only adds reports. -/
theorem Evaluates.goesOn (h : parser.Evaluates table resync a result)
    (plain : parser.Lacks table .custom) : a.GoesOn result.state := by
  obtain ⟨_, _, _, _, way⟩ := h.alike plain (Alike.refl .exact a)
  exact way.goesOn

/-- A run depends only on the input from its start on. Wherever else an expression without custom
steps is started at the same position in front of the same tokens, it comes to an end too, and then
with the same tree, at the same position and with the same reports behind those it was given. -/
theorem runs_independent_of_past (plain : parser.Lacks table .custom)
    (position : a.position = b.position) (input : ∀ i, a.position ≤ i → a.input i = b.input i)
    (runs : parser.Runs table a result) :
    (∃ other, parser.Runs table b other) ∧
      ∀ other, parser.Runs table b other →
        other.tree = result.tree ∧ other.state.position = result.state.position ∧
          a.position ≤ result.state.position ∧
          ∃ added, result.state.log.toList = a.log.toList ++ added ∧
            other.state.log.toList = b.log.toList ++ added := by
  have evaluates : parser.Evaluates table True a result := runs_iff_evaluates.mp runs
  have same : Alike .exact a b := ⟨position, input⟩
  obtain ⟨tree, stop, evaluates', trees, way⟩ := evaluates.alike plain same
  have runs' : parser.Runs table b ⟨tree, stop⟩ := runs_iff_evaluates.mpr evaluates'
  refine ⟨⟨_, runs'⟩, fun other otherRuns => ?_⟩
  obtain rfl : other = ⟨tree, stop⟩ := otherRuns.unique runs'
  obtain ⟨added, added', log, log', reports⟩ := way.reports
  have reports : added = added' := View.exact_reports.mp reports
  subst reports
  exact ⟨View.exact_tree.mp trees, way.position_eq.symm, way.le, added, log, log'⟩

/-- Round or square brackets with nothing in them. -/
def pair : Parser :=
  choice [sequence [char '(', char ')'], sequence [char '[', char ']']]

/-- A pair that is skipped up to a semicolon if it is not closed. -/
def pairOrSkip : Parser := recoverTo (.ofChar ';') pair

/-- In front of a bracket that is not closed. -/
def atBracket (behind : Token) (log : Log) : State where
  input
    | 0 => behind
    | 1 => { kind := .ofChar '(', text := "(" }
    | 2 => { kind := .ofChar ';', text := ";" }
    | _ => .endOfInput
  position := 1
  log := log

def unclosed : Diagnostic :=
  ⟨{ kind := .ofChar ';', text := ";" }, .expected (.ofChar ')') "';'"⟩

def firstVisit : State := atBracket .endOfInput .empty

def secondVisit : State := atBracket (firstVisit.input 1) (Log.empty.push unclosed)

theorem runs_independent_of_past_pairOrSkip :
    (pairOrSkip.Lacks .empty .custom ∧ firstVisit.position = secondVisit.position ∧
      (∀ i, firstVisit.position ≤ i → firstVisit.input i = secondVisit.input i) ∧
      pairOrSkip.Runs .empty firstVisit ⟨.nothing, ⟨firstVisit.input, 3, .push .empty unclosed⟩⟩) ∧
    (∃ other, pairOrSkip.Runs .empty secondVisit other) ∧
      ∀ other, pairOrSkip.Runs .empty secondVisit other →
        other.tree = .nothing ∧ other.state.position = 3 ∧ 1 ≤ 3 ∧
          ∃ added, (Log.empty.push unclosed).toList = Log.empty.toList ++ added ∧
            other.state.log.toList = (Log.empty.push unclosed).toList ++ added := by
  have plain : pairOrSkip.Lacks .empty .custom := lacks_of_not_mentions rfl rfl
  have position : firstVisit.position = secondVisit.position := rfl
  have input : ∀ i, firstVisit.position ≤ i → firstVisit.input i = secondVisit.input i := by
    intro i le
    match i, le with
    | 1, _ => rfl
    | 2, _ => rfl
    | _ + 3, _ => rfl
  have runs : pairOrSkip.Runs .empty firstVisit
      ⟨.nothing, ⟨firstVisit.input, 3, .push .empty unclosed⟩⟩ := ⟨5, by rfl⟩
  exact ⟨⟨plain, position, input, runs⟩, runs_independent_of_past plain position input runs⟩

end Parser

end Descent
