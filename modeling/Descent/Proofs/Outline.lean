import Descent.Proofs.Locality
import Descent.Proofs.Reading

/-!
# Outlines

An outline keeps what a parser sees: of a token its kind and its place in the stream, of a problem
all but the text of the token that was found. Texts and locations are carried along and never
looked at, so on two streams with the same kinds a run takes the same course and leaves trees and
reports with the same outlines.
-/

namespace Descent

/-- The kind of a token and its place in the stream. -/
def Token.outline (token : Token) : Token :=
  { kind := token.kind, text := "", index := token.index }

/-- A problem without the text of the token that was found. -/
def Problem.outline : Problem → Problem
  | .expected kind _ => .expected kind ""
  | .noAlternative wanted _ => .noAlternative wanted ""
  | problem => problem

def Diagnostic.outline (diagnostic : Diagnostic) : Diagnostic :=
  ⟨diagnostic.token.outline, diagnostic.problem.outline⟩

def Tree.outline (tree : Tree) : Tree := tree.mapTokens Token.outline

theorem Token.outline_eq_iff {a b : Token} :
    a.outline = b.outline ↔ a.kind = b.kind ∧ a.index = b.index := by
  simp [outline]

/-- What was wanted belongs to the outline. -/
theorem Problem.expectations_of_outline_eq {p q : Problem} (same : p.outline = q.outline) :
    p.expectations = q.expectations := by
  cases p <;> cases q <;> simp_all [outline, expectations]

/-- Looking at outlines. -/
def View.outline : View where
  token := Token.outline
  problem := Problem.outline
  kind_eq same := (Token.outline_eq_iff.mp same).1
  expected_eq _ _ := rfl
  noAlternative_eq _ _ := rfl
  expectations_eq := Problem.expectations_of_outline_eq

/-- Streams with the same kinds look the same from every position on. -/
theorem TokenStream.alike_of_kinds {left right : TokenStream}
    (kinds : ∀ i, (left.tokenAt i).kind = (right.tokenAt i).kind) (position : Nat) :
    State.Alike .outline ⟨left.tokenAt, position, .empty⟩ ⟨right.tokenAt, position, .empty⟩ := by
  refine ⟨rfl, fun i _ => Token.outline_eq_iff.mpr ⟨kinds i, ?_⟩⟩
  rw [left.tokenAt_index, right.tokenAt_index]

namespace Parser

variable {table : RuleTable} {parser : Parser} {left right : TokenStream}

/-- A run on a stream is matched by one on any stream with the same kinds. -/
theorem Runs.exists_same_outline (plain : parser.Lacks table .custom)
    (kinds : ∀ i, (left.tokenAt i).kind = (right.tokenAt i).kind) {position : Nat} {result : Result}
    (runs : parser.Runs table ⟨left.tokenAt, position, .empty⟩ result) :
    ∃ other, parser.Runs table ⟨right.tokenAt, position, .empty⟩ other ∧
      other.state.position = result.state.position ∧
      other.tree.outline = result.tree.outline ∧
      other.state.log.toList.map Diagnostic.outline =
        result.state.log.toList.map Diagnostic.outline := by
  have alike := TokenStream.alike_of_kinds kinds position
  obtain ⟨tree, stop, evaluates, trees, way⟩ := (runs_iff_evaluates.mp runs).alike plain alike
  obtain ⟨added, added', log, log', reports⟩ := way.reports
  refine ⟨⟨tree, stop⟩, evaluates.runs, way.position_eq.symm, trees, ?_⟩
  -- Both logs were empty, so what was added is all there is.
  rw [log, log']
  exact reports.symm

/-- Only the kinds of tokens steer a run. On two streams whose tokens have the same kinds, an
expression without custom steps either comes to an end from the same position on both or on none.
Then it ends at the same position, and trees and reports have the same outlines. -/
theorem kinds_steer_runs (plain : parser.Lacks table .custom)
    (kinds : ∀ i, (left.tokenAt i).kind = (right.tokenAt i).kind) (position : Nat) :
    ((∃ result, parser.Runs table ⟨left.tokenAt, position, .empty⟩ result) ↔
      ∃ other, parser.Runs table ⟨right.tokenAt, position, .empty⟩ other) ∧
    ∀ result other, parser.Runs table ⟨left.tokenAt, position, .empty⟩ result →
      parser.Runs table ⟨right.tokenAt, position, .empty⟩ other →
        other.state.position = result.state.position ∧
        other.tree.outline = result.tree.outline ∧
        other.state.log.toList.map Diagnostic.outline =
          result.state.log.toList.map Diagnostic.outline := by
  refine ⟨⟨?_, ?_⟩, ?_⟩
  · rintro ⟨result, runs⟩
    obtain ⟨other, runs', -⟩ := runs.exists_same_outline plain kinds
    exact ⟨other, runs'⟩
  · rintro ⟨other, runs⟩
    obtain ⟨result, runs', -⟩ := runs.exists_same_outline plain fun i => (kinds i).symm
    exact ⟨result, runs'⟩
  · intro result other runs otherRuns
    obtain ⟨matching, matchingRuns, same⟩ := runs.exists_same_outline plain kinds
    obtain rfl := matchingRuns.unique otherRuns
    exact same

/-- A bracket that is not closed, and a word on either side of the semicolon behind it. -/
def unclosedWords (first second : Token) : TokenStream :=
  .ofList [{ kind := .ofChar '(', text := "(" }, { first with kind := ⟨"WORD"⟩ },
    { kind := .ofChar ';', text := ";" }, { second with kind := ⟨"WORD"⟩ }] none

/-- A pair or what is skipped for it, and a word. -/
def pairThenWord : Parser := sequence [pairOrSkip, token ⟨"WORD"⟩]

/-- The words of both streams differ in text and location. -/
def shortWords : TokenStream := unclosedWords { (default : Token) with text := "x" } default

def longWords : TokenStream :=
  unclosedWords { (default : Token) with text := "counter", offset := 9, line := 2, file := "a" }
    { (default : Token) with text := ";", column := 7 }

theorem kinds_steer_runs_words :
    (pairThenWord.Lacks .empty .custom ∧
      (∀ i, (shortWords.tokenAt i).kind = (longWords.tokenAt i).kind) ∧
      shortWords.tokenAt 1 ≠ longWords.tokenAt 1 ∧
      pairThenWord.Runs .empty ⟨shortWords.tokenAt, 0, .empty⟩
        ⟨.sequence [.nothing, .token (shortWords.tokenAt 3)], ⟨shortWords.tokenAt, 4,
          .push .empty ⟨shortWords.tokenAt 1, .expected (.ofChar ')') "[WORD x]"⟩⟩⟩) ∧
    (∃ other, pairThenWord.Runs .empty ⟨longWords.tokenAt, 0, .empty⟩ other) ∧
    ∀ other, pairThenWord.Runs .empty ⟨longWords.tokenAt, 0, .empty⟩ other →
      other.state.position = 4 ∧
      other.tree.outline = .sequence [.nothing, .token { kind := ⟨"WORD"⟩, text := "", index := 3 }] ∧
      other.state.log.toList.map Diagnostic.outline =
        [⟨{ kind := ⟨"WORD"⟩, text := "", index := 1 }, .expected (.ofChar ')') ""⟩] := by
  have plain : pairThenWord.Lacks .empty .custom := lacks_of_not_mentions rfl rfl
  have kinds : ∀ i, (shortWords.tokenAt i).kind = (longWords.tokenAt i).kind := by
    intro i
    match i with
    | 0 | 1 | 2 | 3 => rfl
    | i + 4 =>
      have short : shortWords.Ended := fun _ given => nomatch given
      have long : longWords.Ended := fun _ given => nomatch given
      have outside : 4 ≤ i + 4 := Nat.le_add_left 4 i
      rw [short.kind_of_size_le outside, long.kind_of_size_le outside]
  have runs : pairThenWord.Runs .empty ⟨shortWords.tokenAt, 0, .empty⟩
      ⟨.sequence [.nothing, .token (shortWords.tokenAt 3)], ⟨shortWords.tokenAt, 4,
        .push .empty ⟨shortWords.tokenAt 1, .expected (.ofChar ')') "[WORD x]"⟩⟩⟩ := ⟨5, by rfl⟩
  obtain ⟨ends, outlines⟩ := kinds_steer_runs plain kinds 0
  exact ⟨⟨plain, kinds, by decide, runs⟩, ends.mp ⟨_, runs⟩,
    fun other otherRuns => outlines _ other runs otherRuns⟩

end Parser

end Descent
