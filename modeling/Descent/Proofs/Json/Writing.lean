import Descent.Json.Value
import Descent.Proofs.Json.Layout
import Descent.Proofs.Json.Scanning

/-!
# Writing

The lexemes that values are written with. Layouts differ in blanks only, so the text of a value
spells the same lexemes in each of them, at every depth.
-/

namespace Descent.Json

open Lexeme (isBlank Scans)

variable {rest : List Char} {later : List Spelling} {items : List String}
variable {each : List (List Spelling)}

/-- The lexemes of several items with commas between them. -/
def commaSeparated (each : List (List Spelling)) : List Spelling :=
  [Spelling.char ','].intercalate each

namespace Value

mutual

/-- The lexemes that a value is written with. -/
def spellings : Value → List Spelling
  | .integer value => [.integer value]
  | .boolean value => [.boolean value]
  | .string text => [.quoted text]
  | .array elements => .char '[' :: (commaSeparated (elementSpellings elements) ++ [.char ']'])
  | .object members => .char '{' :: (commaSeparated (memberSpellings members) ++ [.char '}'])

/-- The lexemes of each element. -/
def elementSpellings : List Value → List (List Spelling)
  | [] => []
  | value :: rest => value.spellings :: elementSpellings rest

/-- The lexemes of each member. -/
def memberSpellings : List (String × Value) → List (List Spelling)
  | [] => []
  | (name, value) :: rest => (.quoted name :: .char ':' :: value.spellings) :: memberSpellings rest

end

end Value

/-! ## Separated items -/

@[simp] theorem commaSeparated_nil : commaSeparated [] = [] := rfl

@[simp] theorem commaSeparated_cons (first : List Spelling) (rest : List (List Spelling)) :
    commaSeparated (first :: rest) = first ++ rest.flatMap (.char ',' :: ·) :=
  intercalate_cons _ _ _

/-! ## Layouts -/

theorem noDigitAhead_blanks {blanks : List Char} (blank : ∀ c ∈ blanks, isBlank c = true)
    (apart : NoDigitAhead rest) : NoDigitAhead (blanks ++ rest) := by
  cases blanks with
  | nil => exact apart
  | cons c blanks =>
    have first := blank c List.mem_cons_self
    by_contra digit
    rw [isBlank_digit (Bool.of_not_eq_false digit)] at first
    cases first

/-- What a layout puts between two lexemes are blanks. -/
theorem Layout.lineBreak_blank (layout : Layout) (depth : Nat) :
    ∀ c ∈ (layout.lineBreak depth).toList, isBlank c = true := by
  intro c mem
  rcases layout.mem_lineBreak depth mem with rfl | rfl <;> decide

/-- Items that spell their lexemes, each with a comma in front and blanks behind the comma. -/
theorem scans_items (layout : Layout) (depth : Nat)
    (spells : List.Forall₂ (fun item => Spells item.toList) items each)
    (apart : NoDigitAhead rest) (behind : Scans rest later) :
    NoDigitAhead (layout.behindCommas depth items ++ rest) ∧
      Scans (layout.behindCommas depth items ++ rest) (each.flatMap (.char ',' :: ·) ++ later) := by
  have comma := isPunctuation ',' (by decide)
  induction spells with
  | nil => exact ⟨apart, behind⟩
  | cons first _ ih =>
    obtain ⟨apart, behind⟩ := ih
    have back := (first apart behind).blanks (layout.lineBreak_blank depth)
    simp only [Layout.behindCommas, List.flatMap_cons, List.cons_append, List.append_assoc]
    exact ⟨comma.noDigitAhead _, comma.scans back⟩

/-- Items between brackets spell their lexemes with commas between them, in any layout. -/
theorem spells_bracketed (layout : Layout) (depth : Nat) {opening closing : Char}
    (opens : IsPunctuation opening) (closes : IsPunctuation closing)
    (spells : List.Forall₂ (fun item => Spells item.toList) items each) :
    Spells (layout.bracketed depth opening.toString closing.toString items).toList
      (.char opening :: (commaSeparated each ++ [.char closing])) := by
  intro rest later _ behind
  have last := closes.scans behind
  cases spells with
  | nil =>
    rw [layout.toList_bracketed_nil]
    exact opens.scans last
  | @cons item first items each spells others =>
    have apart := noDigitAhead_blanks (layout.lineBreak_blank depth) (closes.noDigitAhead rest)
    have back := last.blanks (layout.lineBreak_blank depth)
    obtain ⟨apart', behind'⟩ := scans_items layout (depth + 1) others apart back
    have whole := opens.scans ((spells apart' behind').blanks (layout.lineBreak_blank (depth + 1)))
    rw [layout.toList_bracketed_cons, commaSeparated_cons]
    simpa using whole

/-! ## Values -/

namespace Value

variable (layout : Layout)

/-- A member spells its name, a colon and its value. -/
theorem spells_member {name : String} {value : Value} {text : String}
    (spells : Spells text.toList value.spellings) :
    Spells ("\"" ++ Quoted.encode name ++ "\"" ++ layout.colon ++ text).toList
      (.quoted name :: .char ':' :: value.spellings) := by
  intro rest later apart behind
  have colon := isPunctuation ':' (by decide)
  have back := spells apart behind
  have between : Scans (layout.colon.toList ++ (text.toList ++ rest))
      (.char ':' :: (value.spellings ++ later)) := by
    cases layout with
    | compact => exact colon.scans back
    | pretty => exact colon.scans (.blank (by decide) back)
  have whole := scans_quoted name between
  simpa [Spelling.quoted] using whole

mutual

/-- The text of a value spells its lexemes, in any layout and at any depth. -/
theorem spells (depth : Nat) : ∀ value : Value,
    Spells (value.toDocument.renderAt layout depth).toList value.spellings
  | .integer value => spells_integer value
  | .boolean value => spells_boolean value
  | .string text => fun _ _ _ behind => scans_quoted text behind
  | .array elements => by
    have written := spells_bracketed layout depth (isPunctuation '[' (by decide))
      (isPunctuation ']' (by decide)) (elements_spell (depth + 1) elements)
    rw [toDocument, Document.renderAt, spellings]
    exact written
  | .object members => by
    have written := spells_bracketed layout depth (isPunctuation '{' (by decide))
      (isPunctuation '}' (by decide)) (members_spell (depth + 1) members)
    rw [toDocument, Document.renderAt, spellings]
    exact written

theorem elements_spell (depth : Nat) : ∀ elements : List Value,
    List.Forall₂ (fun item => Spells item.toList)
      (Document.renderElements layout depth (toDocuments elements)) (elementSpellings elements)
  | [] => .nil
  | value :: rest => .cons (spells depth value) (elements_spell depth rest)

theorem members_spell (depth : Nat) : ∀ members : List (String × Value),
    List.Forall₂ (fun item => Spells item.toList)
      (Document.renderMembers layout depth (toMembers members)) (memberSpellings members)
  | [] => .nil
  | (_, value) :: rest =>
    .cons (spells_member layout (spells depth value)) (members_spell depth rest)

end

/-- The text of a value has its lexemes, whatever the layout. -/
theorem scans_render (value : Value) : Scans (value.render layout).toList value.spellings :=
  (value.spells layout 0).scans

end Value

end Descent.Json
