import Descent.Proofs.Lines

/-!
# Offsets from lines and columns

A scanner tells a place by the newlines in front of it and by the bytes since the start of its line.
`Lines.locate` inverts this at every character boundary of every source. It has a fallback for lines
that do not exist, for columns past the end of the source and for columns inside a character; none
of the three is used there.

The lines themselves start at the beginning of the source and right behind every newline, and
nowhere else.
-/

namespace Descent

namespace Lines

/-- The offsets at which lines start. -/
def starts (lines : Lines) : List Nat := lines.all.toList.map Line.start

/-- The characters in front of a position. -/
def textBefore {source : String} (position : source.Pos) : List Char :=
  (source.sliceTo position).copy.toList

/-- The characters from a position on. -/
def textFrom {source : String} (position : source.Pos) : List Char :=
  (source.sliceFrom position).copy.toList

variable {offset n : Nat} {text : List Char} {source : String}

theorem toList_eq_append (position : source.Pos) :
    source.toList = textBefore position ++ textFrom position := by
  conv_lhs => rw [position.splits.eq_append, String.toList_append]
  rfl

theorem byteSize_textBefore (position : source.Pos) :
    byteSize (textBefore position) = position.offset.byteIdx := by
  rw [textBefore, byteSize_toList, position.splits.offset_eq_rawEndPos]
  rfl

/-! ## Where lines start -/

/-- Lines start right behind newlines, and nowhere else. -/
theorem mem_starts_startingIn :
    n ∈ (startingIn offset text).map Line.start ↔
      ∃ front back, text = front ++ '\n' :: back ∧ n = offset + byteSize front + 1 := by
  constructor
  · intro mem
    induction text generalizing offset with
    | nil => cases mem
    | cons c text ih =>
      have behind (later : n ∈ (startingIn (offset + c.utf8Size) text).map Line.start) :
          ∃ front back, c :: text = front ++ '\n' :: back ∧ n = offset + byteSize front + 1 := by
        obtain ⟨front, back, rfl, rfl⟩ := ih later
        exact ⟨c :: front, back, rfl, by rw [byteSize_cons, ← Nat.add_assoc]⟩
      simp only [startingIn] at mem
      split at mem
      · next newline =>
        subst newline
        obtain rfl | later := List.mem_cons.mp mem
        · exact ⟨[], text, rfl, rfl⟩
        · exact behind later
      · exact behind mem
  · rintro ⟨front, back, rfl, rfl⟩
    have newline : ('\n').utf8Size = 1 := rfl
    simp [startingIn_append, startingIn, newline]

theorem pairwise_starts_startingIn (offset : Nat) (text : List Char) :
    ((startingIn offset text).map Line.start).Pairwise (· < ·) := by
  induction text generalizing offset with
  | nil => exact .nil
  | cons c text ih =>
    simp only [startingIn]
    split
    · refine .cons (fun n mem => ?_) (ih _)
      obtain ⟨front, _, _, same⟩ := mem_starts_startingIn.mp mem
      rw [same, Nat.add_assoc]
      exact Nat.lt_add_of_pos_right (Nat.succ_pos _)
    · exact ih _

theorem size_ofSource (text : List Char) : (ofSource text).size = byteSize text := rfl

theorem starts_ofSource (text : List Char) :
    (ofSource text).starts = 0 :: (startingIn 0 text).map Line.start :=
  rfl

/-- Lines start at the beginning of a source and right behind its newlines. -/
theorem mem_starts :
    n ∈ (ofSource text).starts ↔
      n = 0 ∨ ∃ front back, text = front ++ '\n' :: back ∧ n = byteSize front + 1 := by
  rw [starts_ofSource, List.mem_cons, mem_starts_startingIn]
  simp only [Nat.zero_add]

/-- Lines start one behind the other. -/
theorem pairwise_starts (text : List Char) : (ofSource text).starts.Pairwise (· < ·) := by
  rw [starts_ofSource]
  refine .cons (fun n mem => ?_) (pairwise_starts_startingIn 0 text)
  obtain ⟨_, _, _, rfl⟩ := mem_starts_startingIn.mp mem
  exact Nat.succ_pos _

/-! ## The inverse -/

/-- The conversion inverts lines and columns. The lines of a source start at its beginning and right
behind each newline, in increasing order. For every position of the source take the number of
newlines in front of it and the bytes since the last of them. There is a line of that number, it
starts that many bytes in front of the position, the position is not past the end, and the
characters from the start of the line to the position can be counted. So no fallback is used, and
the answer is the offset of the position with its line and its column in characters, both counted
from one. -/
theorem locate_inverts (source : String) :
    ((ofSource source.toList).starts.Pairwise (· < ·) ∧
      ∀ n, n ∈ (ofSource source.toList).starts ↔ n = 0 ∨
        ∃ front back, source.toList = front ++ '\n' :: back ∧ n = byteSize front + 1) ∧
    ∀ position : source.Pos, ∃ line,
      (ofSource source.toList).all[(textBefore position).count '\n']? = some line ∧
      line.start + byteSize (lastLine (textBefore position)) = position.offset.byteIdx ∧
      position.offset.byteIdx ≤ (ofSource source.toList).size ∧
      charsIn? 0 line.text (position.offset.byteIdx - line.start) =
        some (lastLine (textBefore position)).length ∧
      (ofSource source.toList).locate ((textBefore position).count '\n')
          (byteSize (lastLine (textBefore position))) =
        ⟨position.offset.byteIdx, (textBefore position).count '\n' + 1,
          1 + (lastLine (textBefore position)).length⟩ := by
  refine ⟨⟨pairwise_starts _, fun _ => mem_starts⟩, fun position => ?_⟩
  rw [toList_eq_append position, ← byteSize_textBefore]
  obtain ⟨start, bytes, found⟩ := line_of_front (textBefore position) (textFrom position)
  refine ⟨_, found, bytes.symm, ?_, ?_, ?_⟩
  · rw [size_ofSource, byteSize_append]
    exact Nat.le_add_right _ _
  · rw [bytes, Nat.add_sub_cancel_left, charsIn_append, Nat.zero_add]
  · rw [locate_behind, Location.behind, Nat.add_comm 1]

end Lines

end Descent
