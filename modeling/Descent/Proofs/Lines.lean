import Descent.Source.Lines
import Mathlib.Data.List.DropRight

/-!
# Places in a source

`Location.behind` is the place right behind a text: its bytes, its newlines and the characters since
the last of them. A scanner that counts newlines, and bytes since the last newline, tells enough to
find that place again, and `Lines.locate` does.
-/

namespace Descent

namespace Lines

variable {offset : Nat} {c : Char} {text front back before after : List Char}

/-- The text behind the last newline. -/
def lastLine (text : List Char) : List Char := text.rtakeWhile (· ≠ '\n')

@[simp] theorem byteSize_nil : byteSize [] = 0 := rfl

@[simp] theorem byteSize_cons : byteSize (c :: text) = c.utf8Size + byteSize text := rfl

@[simp] theorem byteSize_append : byteSize (front ++ back) = byteSize front + byteSize back := by
  induction front with
  | nil => simp
  | cons c front ih => simp [ih, Nat.add_assoc]

theorem eq_nil_of_byteSize_eq_zero (none : byteSize text = 0) : text = [] := by
  cases text with
  | nil => rfl
  | cons c text =>
    have positive := c.utf8Size_pos
    rw [byteSize_cons] at none
    omega

/-- Of two fronts of a text the one with fewer bytes is the front of the other. -/
theorem split_of_byteSize_le {front' back' : List Char} (same : front ++ back = front' ++ back')
    (less : byteSize front ≤ byteSize front') :
    ∃ between, front' = front ++ between ∧ back = between ++ back' := by
  rcases List.append_eq_append_iff.mp same with split | ⟨between, rfl, rfl⟩
  · exact split
  · rw [byteSize_append] at less
    obtain rfl : between = [] := eq_nil_of_byteSize_eq_zero (by omega)
    exact ⟨[], by simp, by simp⟩

/-! ## Bytes -/

/-- The bytes that encode a text. -/
def bytes (text : List Char) : List UInt8 := text.flatMap String.utf8EncodeChar

@[simp] theorem bytes_append (front back : List Char) :
    bytes (front ++ back) = bytes front ++ bytes back :=
  List.flatMap_append

@[simp] theorem length_bytes (text : List Char) : (bytes text).length = byteSize text := by
  induction text with
  | nil => rfl
  | cons c text ih =>
    rw [byteSize_cons, ← ih, ← String.length_utf8EncodeChar, ← List.length_append]
    rfl

theorem byteSize_toList (text : String) : byteSize text.toList = text.utf8ByteSize := by
  have encoded : text.toByteArray = text.toList.utf8Encode := by
    rw [← String.toByteArray_ofList, String.ofList_toList]
  rw [String.utf8ByteSize, encoded, ← length_bytes]
  simp [bytes, List.utf8Encode]

/-! ## The last line -/

@[simp] theorem lastLine_nil : lastLine [] = [] := rfl

@[simp] theorem lastLine_newline (text : List Char) : lastLine (text ++ ['\n']) = [] :=
  List.rtakeWhile_concat_neg _ _ _ (by simp)

theorem lastLine_concat (other : c ≠ '\n') : lastLine (text ++ [c]) = lastLine text ++ [c] :=
  List.rtakeWhile_concat_pos _ _ _ (by simpa using other)

theorem lastLine_append (same : '\n' ∉ back) : lastLine (front ++ back) = lastLine front ++ back := by
  induction back using List.reverseRecOn with
  | nil => simp
  | append_singleton back c ih =>
    rw [List.mem_append, not_or, List.mem_singleton] at same
    rw [← List.append_assoc, lastLine_concat (Ne.symm same.2), ih same.1, List.append_assoc]

/-- A text is its last line, or that behind a newline. -/
theorem lastLine_cases (text : List Char) :
    '\n' ∉ text ∧ lastLine text = text ∨
      ∃ earlier, text = earlier ++ '\n' :: lastLine text ∧ '\n' ∉ lastLine text := by
  induction text using List.reverseRecOn with
  | nil => exact .inl ⟨by simp, rfl⟩
  | append_singleton text c ih =>
    by_cases newline : c = '\n'
    · subst newline
      exact .inr ⟨text, by simp, by simp⟩
    · rw [lastLine_concat newline]
      have other : '\n' ∉ [c] := by simpa using Ne.symm newline
      rcases ih with ⟨none, same⟩ | ⟨earlier, split, none⟩
      · exact .inl ⟨by simp [none, Ne.symm newline], by rw [same]⟩
      · refine .inr ⟨earlier, ?_, by simp [none, Ne.symm newline]⟩
        conv_lhs => rw [split]
        simp

/-! ## Where lines start -/

theorem length_startingIn (offset : Nat) (text : List Char) :
    (startingIn offset text).length = text.count '\n' := by
  induction text generalizing offset with
  | nil => rfl
  | cons c text ih =>
    simp only [startingIn]
    split
    · next newline => simp [ih, newline]
    · next other => rw [ih, List.count_cons_of_ne other]

theorem startingIn_append (offset : Nat) (front back : List Char) :
    startingIn offset (front ++ back) =
      (startingIn offset front).map (fun line => ⟨line.start, line.text ++ back⟩) ++
        startingIn (offset + byteSize front) back := by
  induction front generalizing offset with
  | nil => rfl
  | cons c front ih =>
    simp only [List.cons_append, startingIn, byteSize_cons, ← Nat.add_assoc]
    split
    · rw [ih, List.map_cons, List.cons_append]
    · exact ih _

/-- The line in which a text ends, as the source of which it is the front has it. -/
theorem line_of_front (before after : List Char) :
    ∃ start, byteSize before = start + byteSize (lastLine before) ∧
      (ofSource (before ++ after)).all[before.count '\n']? =
        some ⟨start, lastLine before ++ after⟩ := by
  rcases lastLine_cases before with ⟨none, same⟩ | ⟨earlier, split, none⟩
  · refine ⟨0, by rw [same, Nat.zero_add], ?_⟩
    rw [List.count_eq_zero_of_not_mem none, same]
    rfl
  · generalize lastLine before = line at split none
    subst split
    refine ⟨byteSize earlier + ('\n').utf8Size, by simp [Nat.add_assoc], ?_⟩
    have count : (earlier ++ '\n' :: line).count '\n' = (startingIn 0 earlier).length + 1 := by
      rw [length_startingIn, List.count_append, List.count_cons_self,
        List.count_eq_zero_of_not_mem none]
    rw [count, ofSource, List.getElem?_toArray, List.getElem?_cons_succ, List.append_assoc,
      List.cons_append, startingIn_append, List.getElem?_append_right (by simp)]
    simp [startingIn]

/-! ## Finding a place -/

/-- The characters of a text are found from its bytes, whatever follows. -/
theorem charsIn_append (count : Nat) (front back : List Char) :
    charsIn? count (front ++ back) (byteSize front) = some (count + front.length) := by
  induction front generalizing count with
  | nil => cases back <;> rfl
  | cons c front ih =>
    have positive := c.utf8Size_pos
    obtain ⟨size, succ⟩ : ∃ size, byteSize (c :: front) = size + 1 :=
      Nat.exists_eq_succ_of_ne_zero (by rw [byteSize_cons]; omega)
    have behind : size + 1 - c.utf8Size = byteSize front := by
      rw [← succ, byteSize_cons, Nat.add_sub_cancel_left]
    have inside : ¬ size + 1 < c.utf8Size := by
      rw [← succ, byteSize_cons]
      omega
    rw [succ, List.cons_append]
    simp only [charsIn?, if_neg inside, behind, ih, List.length_cons]
    congr 1
    omega

end Lines

open Lines

/-- The place right behind a text. -/
def Location.behind (text : List Char) : Location where
  offset := byteSize text
  line := text.count '\n' + 1
  column := (lastLine text).length + 1

namespace Lines

/-- A place on the last line of the front of a source is found if the bytes that are counted from
the start of the line lead to it. -/
theorem locate_of_reaches (before after : List Char) (column : Nat)
    (reaches : ∀ start, byteSize before = start + byteSize (lastLine before) →
      min (start + column) (byteSize (before ++ after)) = byteSize before) :
    (ofSource (before ++ after)).locate (before.count '\n') column = .behind before := by
  obtain ⟨start, bytes, found⟩ := line_of_front before after
  have offset : min (start + column) (ofSource (before ++ after)).size = byteSize before :=
    reaches start bytes
  have within : byteSize before - start = byteSize (lastLine before) := by omega
  simp only [locate, Array.getD_eq_getD_getElem?, found, Option.getD_some, offset, within,
    charsIn_append, Location.behind, Nat.zero_add]

/-- From the newlines in front of a place and the bytes since the last of them the place is found
again. -/
theorem locate_behind (before after : List Char) :
    (ofSource (before ++ after)).locate (before.count '\n') (byteSize (lastLine before)) =
      .behind before := by
  apply locate_of_reaches
  intro start bytes
  rw [byteSize_append]
  omega

/-- The end of a source is the place behind all of it. -/
theorem stop_ofSource (source : List Char) : (ofSource source).stop = .behind source := by
  have last : (ofSource source).all.size - 1 = source.count '\n' := by
    simp [ofSource, length_startingIn]
  have found := locate_of_reaches source [] (byteSize source) fun start _ => by
    rw [List.append_nil]
    omega
  rw [List.append_nil] at found
  rw [stop, last]
  exact found

end Lines

end Descent
