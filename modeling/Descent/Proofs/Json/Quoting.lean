import Descent.Json.Quoted
import Mathlib.Data.Option.Basic

/-!
# Quoted texts are read back

Each character is written in one of three ways: as an escape of one letter, as an escape of four
digits, or as it is. However it is written, the reader goes past it and finds the character again.
So what stands between the quotes for a text is cut off at the closing quote and decoded to the
text, for every text.
-/

namespace Descent.Json.Quoted

/-- The ways to write a character between quotes. -/
inductive Written (c : Char) : List Char → Prop where
  | letter {escape} (stands : shortEscape? escape = some c) : Written c ['\\', escape]
  | digits {high low} (high_lt : high < 16) (low_lt : low < 16)
      (value : high * 16 + low = c.toNat) (control : c.toNat < 0x20) :
      Written c ['\\', 'u', '0', '0', hexDigit high, hexDigit low]
  | plain (quote : c ≠ '"') (escape : c ≠ '\\') (visible : 0x20 ≤ c.toNat) : Written c [c]

theorem written_encodeChar (c : Char) : Written c (encodeChar c) := by
  unfold encodeChar
  split
  iterate 7
    next same =>
      subst same
      exact .letter rfl
    split
  · next control => exact .digits (by omega) (by omega) (by omega) control
  · next quote escape _ _ _ _ _ visible => exact .plain quote escape (Nat.not_lt.mp visible)

/-! ## Escapes -/

theorem hexDigit_plain {n : Nat} (small : n < 16) : hexDigit n ≠ '"' ∧ hexDigit n ≠ '\\' := by
  revert n
  decide

theorem hexValue_hexDigit {n : Nat} (small : n < 16) : hexValue? (hexDigit n) = some n := by
  revert n
  decide

/-- No escape of one letter stands for a line break, nor is one written with the letter of the
escapes of four digits. -/
theorem shortEscape_letter {escape c : Char} (stands : shortEscape? escape = some c) :
    escape ≠ '\n' ∧ escape ≠ 'u' := by
  constructor <;> rintro rfl <;> cases stands

theorem hexValue4_written {c : Char} {high low : Nat} (high_lt : high < 16) (low_lt : low < 16)
    (value : high * 16 + low = c.toNat) :
    hexValue4? '0' '0' (hexDigit high) (hexDigit low) = some c.toNat := by
  have zero : hexValue? '0' = some 0 := by decide
  simp [hexValue4?, zero, hexValue_hexDigit high_lt, hexValue_hexDigit low_lt, value]

/-! ## Cutting -/

/-- The reader takes what is written for a character as a whole. -/
theorem Written.cut {c : Char} {written : List Char} (h : Written c written) (rest : List Char) :
    cut? (written ++ rest) = (cut? rest).map fun (raw, rest) => (written ++ raw, rest) := by
  cases h with
  | @letter escape stands =>
    obtain ⟨-, notUnicode⟩ := shortEscape_letter stands
    simp only [List.cons_append, List.nil_append]
    rw [cut?, stands]
    · cases cut? rest <;> rfl
    · simp [notUnicode]
  | digits high_lt low_lt value =>
    simp only [List.cons_append, List.nil_append]
    rw [cut?, hexValue4_written high_lt low_lt value]
    cases cut? rest <;> rfl
  | plain quote escape visible =>
    simp only [List.cons_append, List.nil_append]
    have allowed : (decide (c ≠ '\\') && decide (0x20 ≤ c.toNat)) = true := by
      simp [escape, visible]
    rw [cut?, allowed]
    · cases cut? rest <;> rfl
    all_goals simp [quote, escape]

/-- The text between quotes ends at the closing quote. -/
theorem cut_encoded (chars rest : List Char) :
    cut? (chars.flatMap encodeChar ++ '"' :: rest) = some (chars.flatMap encodeChar, rest) := by
  induction chars with
  | nil => rfl
  | cons c chars ih =>
    rw [List.flatMap_cons, List.append_assoc, (written_encodeChar c).cut, ih]
    rfl

/-! ## Decoding -/

/-- The piece is the character by itself, whatever follows. -/
def Piece.IsChar (c : Char) (piece : Piece) : Prop :=
  ∀ later, join? (piece :: later) = (join? later).map (c :: ·)

theorem isChar_plain (c : Char) : (Piece.plain c).IsChar c := by
  intro later
  rw [join?, Option.map_eq_map]

/-- A unit outside the range of halves is a character by itself. -/
theorem isChar_unit {c : Char} (small : c.toNat < 0xD800) : (Piece.unit c.toNat).IsChar c := by
  have notLeading : isLeading c.toNat = false := by simp [isLeading]; omega
  have notTrailing : isTrailing c.toNat = false := by simp [isTrailing]; omega
  rintro (_ | ⟨_ | _, later⟩) <;> simp [join?, notLeading, notTrailing]

theorem Written.pieces {c : Char} {written : List Char} (h : Written c written)
    (rest : List Char) :
    ∃ piece : Piece, piece.IsChar c ∧
      pieces? (written ++ rest) = (pieces? rest).map (piece :: ·) := by
  cases h with
  | @letter escape stands =>
    obtain ⟨-, notUnicode⟩ := shortEscape_letter stands
    refine ⟨.plain c, isChar_plain c, ?_⟩
    simp only [List.cons_append, List.nil_append]
    rw [pieces?, stands]
    · cases pieces? rest <;> rfl
    · simp [notUnicode]
  | digits high_lt low_lt value control =>
    refine ⟨.unit c.toNat, isChar_unit (by omega), ?_⟩
    simp only [List.cons_append, List.nil_append]
    rw [pieces?, hexValue4_written high_lt low_lt value]
    cases pieces? rest <;> rfl
  | plain quote escape visible =>
    refine ⟨.plain c, isChar_plain c, ?_⟩
    simp only [List.cons_append, List.nil_append]
    rw [pieces?]
    · cases pieces? rest <;> rfl
    all_goals simp [escape]

theorem decode_encoded (chars : List Char) :
    ∃ pieces, pieces? (chars.flatMap encodeChar) = some pieces ∧ join? pieces = some chars := by
  induction chars with
  | nil => exact ⟨[], rfl, rfl⟩
  | cons c chars ih =>
    obtain ⟨pieces, resolved, joined⟩ := ih
    obtain ⟨piece, isChar, first⟩ := (written_encodeChar c).pieces (chars.flatMap encodeChar)
    refine ⟨piece :: pieces, ?_, ?_⟩
    · rw [List.flatMap_cons, first, resolved]
      rfl
    · rw [isChar, joined]
      rfl

/-- Every text is decoded from what is written for it. -/
@[simp] theorem decode_encode (text : String) : decode? (encode text) = some text := by
  obtain ⟨pieces, resolved, joined⟩ := decode_encoded text.toList
  simp [decode?, encode, resolved, joined]

end Descent.Json.Quoted
