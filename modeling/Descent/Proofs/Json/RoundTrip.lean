import Descent.Proofs.Json.Building
import Descent.Proofs.Json.Words

/-!
# Printing and parsing values

The text of a value is scanned into the lexemes that the value is written with, whatever the layout.
These are a word of the grammar that reaches to the end of the text, so the parse is clean; and the
tree of the word denotes the value again.
-/

namespace Descent.Json

/-- A source whose lexemes are a word of the grammar is parsed cleanly up to its end, and its tree
denotes what the word does. -/
theorem parse_of_forms {source : String} {spellings : List Spelling} {value : Value}
    (scans : Lexeme.Scans source.toList spellings) (forms : Forms .value spellings value.Denoted)
    (file : String) :
    ∃ stream result parsed, tokensOf source file = .ok stream ∧
      grammar.parse Rule.value.id stream = some result ∧ result.state.position = stream.size ∧
      parse source file = .ok parsed ∧ parsed.tree = result.tree ∧
      parsed.isClean = true ∧ parsed.value = .ok value := by
  obtain ⟨stream, tokenized, spelled, ended⟩ := scans.tokenize file
  obtain ⟨tree, derived, denoted⟩ := forms spelled
  have tokens : tokensOf source file = .ok stream := by
    rw [tokensOf, tokenized]
    rfl
  have answer := parse_word ended derived List.prefix_rfl
  have parsed : parse source file = .ok ⟨tree, []⟩ := by
    simp only [parse, tokens, bind, Except.bind, answer]
    rfl
  have clean : tree.isFailed = false := by
    obtain ⟨_, _, rfl⟩ := derived.head_isProduction
    rfl
  refine ⟨stream, _, _, tokens, answer, ?_, parsed, rfl, ?_, denoted⟩
  · exact Nat.zero_add _
  · simp [Parsed.isClean, clean]

/-- Printing and parsing a value gives the value again. In every layout its text has tokens, the
parse consumes all of them and reports nothing, and its tree denotes the value. -/
theorem parse_render (layout : Layout) (file : String) {value : Value}
    (sorted : value.Everywhere Value.HasSortedMembers)
    (plain : value.Everywhere Value.HasPlainTexts) :
    ∃ stream result parsed, tokensOf (value.render layout) file = .ok stream ∧
      grammar.parse Rule.value.id stream = some result ∧ result.state.position = stream.size ∧
      parse (value.render layout) file = .ok parsed ∧ parsed.tree = result.tree ∧
      parsed.isClean = true ∧ parsed.value = .ok value := by
  have scans := value.scans_render layout
  have forms := Value.forms sorted plain
  exact parse_of_forms scans forms file

/-- Extreme numbers, empty parts, words in another script, and objects inside each other. -/
def mixture : Value :=
  .object [("", .array []), ("a b", .object [("k", .integer (-9223372036854775808)),
    ("ключ", .boolean false)]), ("z", .array [.integer 9223372036854775807, .object [],
    .array [.string "✓ tab-free", .integer (-1)], .boolean true, .string ""])]

theorem parse_render_mixture :
    (mixture.Everywhere Value.HasSortedMembers ∧ mixture.Everywhere Value.HasPlainTexts) ∧
    ∃ stream result parsed, tokensOf (mixture.render .pretty) "mixture.json" = .ok stream ∧
      grammar.parse Rule.value.id stream = some result ∧ result.state.position = stream.size ∧
      parse (mixture.render .pretty) "mixture.json" = .ok parsed ∧ parsed.tree = result.tree ∧
      parsed.isClean = true ∧ parsed.value = .ok mixture := by
  have sorted : mixture.Everywhere Value.HasSortedMembers := by
    simp only [mixture, Value.everywhere_object, Value.everywhere_array, Value.everywhere_integer,
      Value.everywhere_boolean, Value.everywhere_string, List.forall_mem_cons, List.not_mem_nil,
      false_implies, implies_true, and_true, Value.HasSortedMembers, NamedEntries.Sorted]
    decide
  have plain : mixture.Everywhere Value.HasPlainTexts := by
    simp only [mixture, Value.everywhere_object, Value.everywhere_array, Value.everywhere_integer,
      Value.everywhere_boolean, Value.everywhere_string, List.forall_mem_cons, List.not_mem_nil,
      false_implies, implies_true, and_true, Value.HasPlainTexts]
    decide
  exact ⟨⟨sorted, plain⟩, parse_render .pretty "mixture.json" sorted plain⟩

end Descent.Json
