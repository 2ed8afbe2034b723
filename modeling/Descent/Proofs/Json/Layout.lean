import Descent.Json.Document

/-!
# Layouts

The text of a list or an object is an opening bracket, the first item, every other item behind a
comma, and the closing bracket. Layouts differ in the blanks between these.
-/

namespace Descent.Json

theorem intercalate_cons {α : Type} (separator first : List α) (rest : List (List α)) :
    separator.intercalate (first :: rest) = first ++ rest.flatMap (separator ++ ·) := by
  induction rest generalizing first with
  | nil => simp
  | cons second rest ih =>
    rw [List.intercalate_cons_cons, ih, List.flatMap_cons, List.append_assoc, List.append_assoc]

namespace Layout

variable (layout : Layout) (depth : Nat)

/-- A layout puts nothing but spaces and line ends between the parts of a document. -/
theorem mem_lineBreak {c : Char} (mem : c ∈ (layout.lineBreak depth).toList) :
    c = '\n' ∨ c = ' ' := by
  cases layout with
  | compact => simp [lineBreak] at mem
  | pretty =>
    simp only [lineBreak, String.toList_append, String.toList_ofList] at mem
    rcases List.mem_append.mp mem with mem | mem
    · exact .inl (List.mem_singleton.mp mem)
    · exact .inr (List.eq_of_mem_replicate mem)

/-- The characters of items, each behind a comma and a line break. -/
def behindCommas (items : List String) : List Char :=
  items.flatMap fun item => ',' :: ((layout.lineBreak depth).toList ++ item.toList)

theorem toList_bracketed_nil (opening closing : Char) :
    (layout.bracketed depth opening.toString closing.toString []).toList = [opening, closing] := by
  simp [bracketed, Char.toString]

theorem toList_bracketed_cons (opening closing : Char) (item : String) (items : List String) :
    (layout.bracketed depth opening.toString closing.toString (item :: items)).toList =
      opening :: ((layout.lineBreak (depth + 1)).toList ++ (item.toList
        ++ (layout.behindCommas (depth + 1) items
          ++ ((layout.lineBreak depth).toList ++ [closing])))) := by
  simp [bracketed, behindCommas, Char.toString, intercalate_cons, List.flatMap_map]

end Layout

end Descent.Json
