import Descent.Json.Tokens
import Descent.Proofs.Json.Literals
import Descent.Proofs.Json.Quoting
import Descent.Proofs.Reading

/-!
# Scanning

`Lexeme.Scans` gives the lexemes of a text one by one, without their places. What it gives is what
the scanner answers and what the tokens of a source are spelled like.

A text spells lexemes if it does so in front of every other text that does not lengthen its last
number. Numbers, words, quoted texts and punctuation do.
-/

namespace Descent

/-- A token without its place. -/
structure Spelling where
  kind : TokenKind
  text : String

namespace Spelling

/-- Punctuation is spelled as its own kind. -/
def char (c : Char) : Spelling := ⟨.ofChar c, c.toString⟩

def integer (value : Int64) : Spelling := ⟨Json.integerKind, value.toInt.repr⟩

def boolean (value : Bool) : Spelling := ⟨Json.booleanKind, if value then "true" else "false"⟩

/-- A text between quotes. -/
def quoted (text : String) : Spelling :=
  ⟨Json.stringKind, "\"" ++ Json.Quoted.encode text ++ "\""⟩

end Spelling

def Token.spelling (token : Token) : Spelling := ⟨token.kind, token.text⟩

namespace TokenStream

theorem map_spelling_number (tokens : List Token) :
    (number tokens).map Token.spelling = tokens.map Token.spelling := by
  apply List.ext_getElem
  · simp
  · intro i _ _
    simp [number, Token.spelling]

end TokenStream

namespace Json

open Lexeme (isBlank starting? stringTail? digitCount)

variable {text rest : List Char} {later spellings : List Spelling}

def Lexeme.spelling (lexeme : Lexeme) : Spelling := ⟨lexeme.lexemeClass.kind, lexeme.text⟩

/-- The spellings of the lexemes of a text, from left to right. -/
inductive Lexeme.Scans : List Char → List Spelling → Prop where
  | nil : Scans [] []
  | blank {c rest later} (blank : isBlank c = true) (behind : Scans rest later) :
      Scans (c :: rest) later
  | lexeme {c tail rest lexemeClass later} (visible : isBlank c = false)
      (starts : starting? c (tail ++ rest) = some (lexemeClass, tail.length))
      (behind : Scans rest later) :
      Scans (c :: (tail ++ rest)) (⟨lexemeClass.kind, String.ofList (c :: tail)⟩ :: later)

open Lexeme (Scans)

/-! ## The scanner -/

theorem Lexeme.Scans.scanFrom (h : Scans text spellings) (done : List Lexeme) (offset : Nat)
    (mark : Mark) :
    ∃ lexemes, Lexeme.scanFrom done offset mark text = .ok (done.reverse ++ lexemes) ∧
      lexemes.map Lexeme.spelling = spellings := by
  induction h generalizing done offset mark with
  | nil => exact ⟨[], by simp [Lexeme.scanFrom], rfl⟩
  | blank blank behind ih =>
    rw [Lexeme.scanFrom, if_pos blank]
    exact ih done _ _
  | lexeme visible starts behind ih =>
    rw [Lexeme.scanFrom, if_neg (by simp [visible]), starts]
    simp only [List.take_left, List.drop_left]
    obtain ⟨lexemes, scanned, same⟩ := ih _ _ _
    rw [scanned, List.reverse_cons, List.append_assoc]
    exact ⟨_ :: lexemes, rfl, congrArg _ same⟩

/-- The tokens of a source are spelled like its lexemes, and the end stands behind them. -/
theorem Lexeme.Scans.tokenize {source : String} (h : Scans source.toList spellings)
    (file : String) : ∃ stream, tokenize source file = .ok stream ∧
      stream.toList.map Token.spelling = spellings ∧ stream.Ended := by
  obtain ⟨lexemes, scanned, same⟩ := h.scanFrom [] 0 ⟨0, 0⟩
  have scanned' : Lexeme.scan source = .ok lexemes := by
    rw [Lexeme.scan, scanned]
    rfl
  rw [Json.tokenize, scanned']
  refine ⟨_, rfl, ?_, ?_⟩
  · rw [TokenStream.toList_ofList, TokenStream.map_spelling_number, ← same, List.map_map]
    rfl
  · rintro token given
    obtain rfl := Option.some.inj given
    rfl

/-! ## What texts spell -/

/-- No digit stands in front. -/
def NoDigitAhead : List Char → Prop
  | [] => True
  | c :: _ => c.isDigit = false

/-- The text spells lexemes in front of everything that does not begin with a digit. -/
def Spells (text : List Char) (spellings : List Spelling) : Prop :=
  ∀ ⦃rest later⦄, NoDigitAhead rest → Scans rest later → Scans (text ++ rest) (spellings ++ later)

theorem Spells.scans (h : Spells text spellings) : Scans text spellings := by
  have whole := h (show NoDigitAhead [] from trivial) .nil
  rwa [List.append_nil, List.append_nil] at whole

/-- Blanks spell nothing. -/
theorem Lexeme.Scans.blanks {blanks : List Char} (blank : ∀ c ∈ blanks, isBlank c = true)
    (h : Scans rest later) : Scans (blanks ++ rest) later := by
  induction blanks with
  | nil => exact h
  | cons c blanks ih =>
    obtain ⟨first, others⟩ := List.forall_mem_cons.mp blank
    exact .blank first (ih others)

/-! ## Punctuation -/

/-- The character is a lexeme by itself, whatever follows. -/
structure IsPunctuation (c : Char) : Prop where
  visible : isBlank c = false
  not_digit : c.isDigit = false
  starts : ∃ lexemeClass, lexemeClass.kind = .ofChar c ∧
    ∀ rest, starting? c rest = some (lexemeClass, 0)

theorem isPunctuation (c : Char) (mem : c ∈ ['[', ']', '{', '}', ',', ':']) : IsPunctuation c := by
  simp only [List.mem_cons, List.not_mem_nil, or_false] at mem
  rcases mem with rfl | rfl | rfl | rfl | rfl | rfl
  all_goals exact ⟨by decide, by decide, _, rfl, fun _ => rfl⟩

theorem IsPunctuation.scans {c : Char} (h : IsPunctuation c) (behind : Scans rest later) :
    Scans (c :: rest) (.char c :: later) := by
  obtain ⟨lexemeClass, kind, starts⟩ := h.starts
  have scans : Scans (c :: ([] ++ rest)) _ := .lexeme h.visible (starts _) behind
  rw [kind] at scans
  exact scans

theorem IsPunctuation.noDigitAhead {c : Char} (h : IsPunctuation c) (rest : List Char) :
    NoDigitAhead (c :: rest) :=
  h.not_digit

/-! ## Words -/

theorem spells_boolean (value : Bool) :
    Spells (Spelling.boolean value).text.toList [.boolean value] := by
  intro rest later _ behind
  cases value with
  | true =>
    have starts : starting? 't' (['r', 'u', 'e'] ++ rest) = some (.trueWord, 3) := rfl
    exact .lexeme (by decide) starts behind
  | false =>
    have starts : starting? 'f' (['a', 'l', 's', 'e'] ++ rest) = some (.falseWord, 4) := rfl
    exact .lexeme (by decide) starts behind

/-! ## Numbers -/

theorem digitCount_append {digits : List Char} (all : ∀ c ∈ digits, c.isDigit = true)
    (apart : NoDigitAhead rest) : digitCount (digits ++ rest) = digits.length := by
  have behind : rest.takeWhile Char.isDigit = [] := by
    cases rest with
    | nil => rfl
    | cons c rest => exact List.takeWhile_cons_of_neg (Bool.not_eq_true _ ▸ apart)
  rw [digitCount, List.takeWhile_append_of_pos all, behind, List.append_nil]

theorem starting_digit {c : Char} (digit : c.isDigit = true) (rest : List Char) :
    starting? c rest = some (.integer, digitCount rest) := by
  unfold starting?
  split
  all_goals first | exact absurd digit (by decide) | exact if_pos digit

theorem isBlank_digit {c : Char} (digit : c.isDigit = true) : isBlank c = false := by
  by_contra blank
  simp only [isBlank, Bool.or_eq_false_iff, decide_eq_false_iff_not, not_and_or, not_not] at blank
  rcases blank with (((rfl | rfl) | rfl) | rfl) | rfl <;> exact absurd digit (by decide)

theorem spells_digits {digits : List Char} (all : ∀ c ∈ digits, c.isDigit = true)
    (nonempty : digits ≠ []) : Spells digits [⟨integerKind, String.ofList digits⟩] := by
  intro rest later apart behind
  obtain ⟨c, digits, rfl⟩ := List.exists_cons_of_ne_nil nonempty
  obtain ⟨first, others⟩ := List.forall_mem_cons.mp all
  have starts : starting? c (digits ++ rest) = some (.integer, digits.length) := by
    rw [starting_digit first, digitCount_append others apart]
  exact .lexeme (isBlank_digit first) starts behind

theorem spells_negated {digits : List Char} (all : ∀ c ∈ digits, c.isDigit = true)
    (nonempty : digits ≠ []) :
    Spells ('-' :: digits) [⟨integerKind, String.ofList ('-' :: digits)⟩] := by
  intro rest later apart behind
  have count := digitCount_append all apart
  have positive : digits.length ≠ 0 := mt List.length_eq_zero_iff.mp nonempty
  have starts : starting? '-' (digits ++ rest) = some (.integer, digits.length) := by
    simp [starting?, count, positive]
  exact .lexeme (by decide) starts behind

/-- A number spells itself, with its sign. -/
theorem spells_integer (value : Int64) :
    Spells (Spelling.integer value).text.toList [.integer value] := by
  rw [Spelling.integer]
  cases value.toInt with
  | ofNat n =>
    rw [repr_ofNat, String.toList_ofList]
    exact spells_digits (isDigit_toDigits n) Nat.toDigits_ne_nil
  | negSucc n =>
    rw [repr_negSucc, String.toList_ofList]
    exact spells_negated (isDigit_toDigits (n + 1)) Nat.toDigits_ne_nil

/-! ## Quoted texts -/

theorem stringTail_plain {c : Char} (rest : List Char) (quote : c ≠ '"') (escape : c ≠ '\\') :
    stringTail? (c :: rest) = (stringTail? rest).map (· + 1) := by
  rw [stringTail?]
  all_goals simp [quote, escape]

theorem stringTail_escape {c : Char} (rest : List Char) (line : c ≠ '\n') :
    stringTail? ('\\' :: c :: rest) = (stringTail? rest).map (· + 2) := by
  rw [stringTail?, if_neg line]

/-- However a character is written, it does not close the string. -/
theorem Quoted.Written.stringTail {c : Char} {written : List Char} (h : Written c written)
    (rest : List Char) :
    stringTail? (written ++ rest) = (stringTail? rest).map (· + written.length) := by
  cases h with
  | letter stands => exact stringTail_escape rest (shortEscape_letter stands).1
  | digits high_lt low_lt =>
    obtain ⟨quote, escape⟩ := hexDigit_plain high_lt
    obtain ⟨quote', escape'⟩ := hexDigit_plain low_lt
    simp only [List.cons_append, List.nil_append]
    rw [stringTail_escape _ (by decide), stringTail_plain _ (by decide) (by decide),
      stringTail_plain _ (by decide) (by decide), stringTail_plain _ quote escape,
      stringTail_plain _ quote' escape']
    simp only [Option.map_map]
    rfl
  | plain quote escape => exact stringTail_plain rest quote escape

theorem stringTail_encode (chars rest : List Char) :
    stringTail? (chars.flatMap Quoted.encodeChar ++ '"' :: rest) =
      some ((chars.flatMap Quoted.encodeChar).length + 1) := by
  induction chars with
  | nil => rfl
  | cons c chars ih =>
    rw [List.flatMap_cons, List.append_assoc, (Quoted.written_encodeChar c).stringTail, ih,
      List.length_append]
    simp only [Option.map_some]
    congr 1
    omega

/-- A quoted text is one lexeme, whatever follows. -/
theorem scans_quoted (text : String) (behind : Scans rest later) :
    Scans ((Spelling.quoted text).text.toList ++ rest) (.quoted text :: later) := by
  let tail := text.toList.flatMap Quoted.encodeChar ++ ['"']
  have spelled : (Spelling.quoted text).text.toList = '"' :: tail := by
    simp [Spelling.quoted, Quoted.encode, tail]
  have starts : starting? '"' (tail ++ rest) = some (.string, tail.length) := by
    rw [List.append_assoc]
    show (stringTail? _).map _ = _
    rw [List.singleton_append, stringTail_encode, List.length_append]
    rfl
  have scans : Scans ('"' :: (tail ++ rest)) _ := .lexeme (by decide) starts behind
  rw [← spelled, String.ofList_toList] at scans
  rwa [spelled]

end Json

end Descent
