import Descent.Json.Value.OfTree

/-!
# The values of literals

Digits denote the number that they spell, as long as it has a place in 64 bits. So every integer is
read back from the way it is written, and so is every text that needs no escapes between its quotes.
-/

namespace Descent.Json

/-! ## Digits -/

theorem isDigit_toDigits (n : Nat) : ∀ c ∈ Nat.toDigits 10 n, c.isDigit = true :=
  fun _ mem => Nat.isDigit_of_mem_toDigits (by decide) (by decide) mem

theorem repr_ofNat (n : Nat) : (Int.ofNat n).repr = String.ofList (Nat.toDigits 10 n) :=
  Nat.repr_eq_ofList_toDigits

theorem repr_negSucc (n : Nat) :
    (Int.negSucc n).repr = String.ofList ('-' :: Nat.toDigits 10 (n + 1)) := by
  rw [← Nat.toList_repr]
  apply String.toList_injective
  simp [Int.repr]

namespace Literal

variable {negative : Bool} {value : Nat} {digits : List Char}

/-- Further digits never make a number smaller. -/
theorem le_ofDigitChars (value : Nat) (digits : List Char) :
    value ≤ Nat.ofDigitChars 10 digits value := by
  induction digits generalizing value with
  | nil => exact Nat.le_refl _
  | cons c digits ih =>
    have later := ih (10 * value + (c.toNat - '0'.toNat))
    rw [Nat.ofDigitChars_cons]
    omega

/-- Digits denote the number that they spell, or are refused if that is beyond the limit. -/
theorem magnitude_eq (all : ∀ c ∈ digits, c.isDigit = true) (le : value ≤ limit negative) :
    magnitude negative value digits =
      if Nat.ofDigitChars 10 digits value ≤ limit negative
      then .ok (Nat.ofDigitChars 10 digits value)
      else .error (if negative then .tooSmall else .tooLarge) := by
  induction digits generalizing value with
  | nil => simp [magnitude, le]
  | cons c digits ih =>
    obtain ⟨first, others⟩ := List.forall_mem_cons.mp all
    have grows := le_ofDigitChars (10 * value + (c.toNat - '0'.toNat)) digits
    rw [magnitude, if_pos first, Nat.ofDigitChars_cons]
    by_cases within : 10 * value + (c.toNat - '0'.toNat) ≤ limit negative
    · rw [if_pos within, ih others within]
    · have beyond := mt (Nat.le_trans grows) within
      rw [if_neg within, if_neg beyond]

theorem signed_digits (all : ∀ c ∈ digits, c.isDigit = true) (nonempty : digits ≠ []) :
    signed negative digits =
      if Nat.ofDigitChars 10 digits 0 ≤ limit negative
      then .ok (Int64.ofInt (if negative then -Nat.ofDigitChars 10 digits 0
        else Nat.ofDigitChars 10 digits 0))
      else .error (if negative then .tooSmall else .tooLarge) := by
  have read := magnitude_eq all (Nat.zero_le (limit negative))
  have some : digits.isEmpty = false := List.isEmpty_eq_false_iff.mpr nonempty
  by_cases within : Nat.ofDigitChars 10 digits 0 ≤ limit negative
  · rw [if_pos within] at read ⊢
    simp [signed, some, read, bind, Except.bind, pure, Except.pure]
  · rw [if_neg within] at read ⊢
    simp [signed, some, read, bind, Except.bind]

theorem signed_toDigits {n : Nat} (le : n ≤ limit negative) :
    signed negative (Nat.toDigits 10 n) = .ok (Int64.ofInt (if negative then -n else n)) := by
  rw [signed_digits (isDigit_toDigits n) Nat.toDigits_ne_nil, Nat.ofDigitChars_ten_toDigits,
    if_pos le]

theorem integer_digits (all : ∀ c ∈ digits, c.isDigit = true) (nonempty : digits ≠ []) :
    integer (String.ofList digits) = signed false digits := by
  unfold integer
  rw [String.toList_ofList]
  split
  · exact absurd rfl nonempty
  · exact absurd (all '+' List.mem_cons_self) (by decide)
  · exact absurd (all '-' List.mem_cons_self) (by decide)
  · rfl

theorem integer_negated (digits : List Char) :
    integer (String.ofList ('-' :: digits)) = signed true digits := by
  unfold integer
  rw [String.toList_ofList]
  rfl

/-- Digits behind an optional minus. -/
inductive IsInteger : List Char → Prop where
  | natural {digits : List Char} (nonempty : digits ≠ []) (all : ∀ c ∈ digits, c.isDigit = true) :
      IsInteger digits
  | negated {digits : List Char} (nonempty : digits ≠ []) (all : ∀ c ∈ digits, c.isDigit = true) :
      IsInteger ('-' :: digits)

/-- The number that digits behind an optional minus spell. -/
def decimal : List Char → Int
  | '-' :: digits => -(Nat.ofDigitChars 10 digits 0 : Int)
  | digits => Nat.ofDigitChars 10 digits 0

/-- The number has a place in 64 bits. -/
def InRange (number : Int) : Prop :=
  -9223372036854775808 ≤ number ∧ number ≤ 9223372036854775807

instance : DecidablePred InRange := fun _ => inferInstanceAs (Decidable (_ ∧ _))

theorem decimal_digits (all : ∀ c ∈ digits, c.isDigit = true) :
    decimal digits = Nat.ofDigitChars 10 digits 0 := by
  unfold decimal
  split
  · exact absurd (all '-' List.mem_cons_self) (by decide)
  · rfl

/-- An integer denotes the number that it spells, or is refused if that has no place in 64 bits. -/
theorem integer_eq {text : List Char} (h : IsInteger text) :
    integer (String.ofList text) =
      if InRange (decimal text) then .ok (Int64.ofInt (decimal text))
      else .error (if decimal text < 0 then .tooSmall else .tooLarge) := by
  cases h with
  | natural nonempty all =>
    have largest : limit false = 2 ^ 63 - 1 := rfl
    rw [integer_digits all nonempty, signed_digits all nonempty, decimal_digits all]
    generalize Nat.ofDigitChars 10 text 0 = n
    have range : InRange n ↔ n ≤ limit false := by
      rw [InRange, largest]
      omega
    have notNegative : ¬ (n : Int) < 0 := by omega
    simp [range, notNegative]
  | @negated digits nonempty all =>
    have smallest : limit true = 2 ^ 63 := rfl
    have spelled : decimal ('-' :: digits) = -(Nat.ofDigitChars 10 digits 0 : Int) := rfl
    rw [integer_negated, signed_digits all nonempty, spelled]
    generalize Nat.ofDigitChars 10 digits 0 = n
    have range : InRange (-n) ↔ n ≤ limit true := by
      rw [InRange, smallest]
      omega
    by_cases within : n ≤ limit true
    · simp [range, within]
    · have nonzero : n ≠ 0 := by omega
      simp [range, within, nonzero]

theorem toInt_ofInt {number : Int} (range : InRange number) :
    (Int64.ofInt number).toInt = number := by
  obtain ⟨lower, upper⟩ := range
  exact Int64.toInt_ofInt_of_le lower (by omega)

/-- Every integer is read back from the way it is written. -/
theorem integer_repr (value : Int64) : integer value.toInt.repr = .ok value := by
  have lower := value.le_toInt
  have upper := value.toInt_lt
  have same := value.ofInt_toInt
  cases number : value.toInt with
  | ofNat n =>
    have le : n ≤ limit false := by
      have largest : limit false = 2 ^ 63 - 1 := rfl
      rw [number, Int.ofNat_eq_natCast] at upper
      omega
    rw [repr_ofNat, integer_digits (isDigit_toDigits n) Nat.toDigits_ne_nil, signed_toDigits le,
      ← same, number]
    rfl
  | negSucc n =>
    have le : n + 1 ≤ limit true := by
      have smallest : limit true = 2 ^ 63 := rfl
      rw [number] at lower
      omega
    rw [repr_negSucc, integer_negated, signed_toDigits le, ← same, number]
    rfl

/-- The text between two quotes is read as it stands. -/
theorem string_quoted (raw : String) : string ("\"" ++ raw ++ "\"") = .ok raw := by
  have chars : ("\"" ++ raw ++ "\"").toList = '"' :: (raw.toList ++ ['"']) := by simp
  unfold string
  simp only [chars]
  simp

theorem boolean_word (value : Bool) :
    boolean (if value then "true" else "false") = .ok value := by
  cases value <;> rfl

end Literal

namespace Quoted

/-- A character that stands for itself between quotes. -/
def IsPlain (c : Char) : Prop := c ≠ '"' ∧ c ≠ '\\' ∧ 0x20 ≤ c.toNat

instance : DecidablePred IsPlain := fun _ => inferInstanceAs (Decidable (_ ∧ _))

/-- A text that stands for itself between quotes. -/
def IsPlainText (text : String) : Prop := ∀ c ∈ text.toList, IsPlain c

instance : DecidablePred IsPlainText := fun text => List.decidableBAll IsPlain text.toList

theorem encodeChar_plain {c : Char} (plain : IsPlain c) : encodeChar c = [c] := by
  obtain ⟨quote, escape, visible⟩ := plain
  have ne : ∀ d : Char, d.toNat < 0x20 → c ≠ d := by
    rintro d control rfl
    omega
  simp only [encodeChar, quote, escape, ne '\x08' (by decide), ne '\x0c' (by decide),
    ne '\n' (by decide), ne '\r' (by decide), ne '\t' (by decide), if_false,
    if_neg (Nat.not_lt.mpr visible)]

theorem flatMap_encodeChar {chars : List Char} (plain : ∀ c ∈ chars, IsPlain c) :
    chars.flatMap encodeChar = chars := by
  induction chars with
  | nil => rfl
  | cons c chars ih =>
    obtain ⟨first, others⟩ := List.forall_mem_cons.mp plain
    rw [List.flatMap_cons, encodeChar_plain first, ih others, List.singleton_append]

theorem encode_plain {text : String} (plain : IsPlainText text) : encode text = text := by
  rw [encode, flatMap_encodeChar plain, String.ofList_toList]

end Quoted

end Descent.Json
