import Descent.Proofs.Json.Scanning

/-!
# Lexemes of a source

Whatever the scanner answers is a list of lexemes in the sense of `Lexeme.Scans`, and the text of
each lexeme is one that its class admits. So the tokens of a source are spelled like its lexemes: the
text of an integer is digits behind an optional minus, that of a string stands between quotes, and
that of a truth value is one of the two words.
-/

namespace Descent.Json

open Lexeme (isBlank starting? stringTail? digitCount wordTail? Scans)

variable {c : Char} {text rest tail : List Char} {lexemeClass : LexemeClass} {length : Nat}

/-! ## Texts of lexemes -/

/-- The texts that lexemes of a class have. Of a string it is said only where it ends. -/
def LexemeClass.Admits : LexemeClass → List Char → Prop
  | .leftBracket, text => text = ['[']
  | .rightBracket, text => text = [']']
  | .leftBrace, text => text = ['{']
  | .rightBrace, text => text = ['}']
  | .comma, text => text = [',']
  | .colon, text => text = [':']
  | .trueWord, text => text = ['t', 'r', 'u', 'e']
  | .falseWord, text => text = ['f', 'a', 'l', 's', 'e']
  | .integer, text => Literal.IsInteger text
  | .string, text => ∃ inner, text = '"' :: (inner ++ ['"'])

/-- A string ends at a quote. -/
theorem stringTail_quote (h : stringTail? text = some length) :
    ∃ inner rest, text = inner ++ '"' :: rest ∧ length = inner.length + 1 := by
  fun_induction stringTail? text generalizing length with
  | case1 => cases h
  | case2 rest =>
    cases h
    exact ⟨[], rest, rfl, rfl⟩
  | case3 => cases h
  | case4 => cases h
  | case5 c rest line ih =>
    obtain ⟨count, found, rfl⟩ := Option.map_eq_some_iff.mp h
    obtain ⟨inner, rest, rfl, rfl⟩ := ih found
    exact ⟨'\\' :: c :: inner, rest, rfl, rfl⟩
  | case6 c rest _ _ _ ih =>
    obtain ⟨count, found, rfl⟩ := Option.map_eq_some_iff.mp h
    obtain ⟨inner, rest, rfl, rfl⟩ := ih found
    exact ⟨c :: inner, rest, rfl, rfl⟩

theorem wordTail_eq {other : LexemeClass}
    (h : wordTail? lexemeClass tail rest = some (other, length)) :
    other = lexemeClass ∧ length = tail.length ∧ ∃ behind, rest = tail ++ behind := by
  unfold wordTail? at h
  split at h
  · next found =>
    obtain ⟨behind, rfl⟩ := List.isPrefixOf_iff_prefix.mp found
    cases h
    exact ⟨rfl, rfl, behind, rfl⟩
  · cases h

/-- The digits in front of a text. -/
theorem digitCount_split (text : List Char) :
    ∃ digits rest, text = digits ++ rest ∧ digitCount text = digits.length ∧
      ∀ c ∈ digits, c.isDigit = true :=
  ⟨text.takeWhile Char.isDigit, text.dropWhile Char.isDigit, List.takeWhile_append_dropWhile.symm,
    rfl, List.all_eq_true.mp List.all_takeWhile⟩

/-- A lexeme that starts somewhere is all there, and its class admits its text. -/
theorem starting_admits (h : starting? c text = some (lexemeClass, length)) :
    ∃ tail rest, text = tail ++ rest ∧ length = tail.length ∧ lexemeClass.Admits (c :: tail) := by
  unfold starting? at h
  split at h
  iterate 6
    next =>
      cases h
      exact ⟨[], text, rfl, rfl, rfl⟩
  · obtain ⟨rfl, rfl, rest, rfl⟩ := wordTail_eq h
    exact ⟨_, rest, rfl, rfl, rfl⟩
  · obtain ⟨rfl, rfl, rest, rfl⟩ := wordTail_eq h
    exact ⟨_, rest, rfl, rfl, rfl⟩
  · obtain ⟨digits, rest, rfl, count, all⟩ := digitCount_split text
    rw [count] at h
    split at h
    · cases h
    · next some =>
      cases h
      exact ⟨digits, rest, rfl, rfl, .negated (mt List.length_eq_zero_iff.mpr some) all⟩
  · obtain ⟨count, found, same⟩ := Option.map_eq_some_iff.mp h
    cases same
    obtain ⟨inner, rest, rfl, rfl⟩ := stringTail_quote found
    exact ⟨inner ++ ['"'], rest, by simp, by simp, inner, rfl⟩
  · split at h
    · next digit =>
      obtain ⟨digits, rest, rfl, count, all⟩ := digitCount_split text
      rw [count] at h
      cases h
      exact ⟨digits, rest, rfl, rfl, .natural (by simp) (List.forall_mem_cons.mpr ⟨digit, all⟩)⟩
    · cases h

/-! ## Sources -/

/-- Whatever the scanner answers, it went from lexeme to lexeme. -/
theorem scans_of_scanFrom {done lexemes : List Lexeme} {offset : Nat} {mark : Mark}
    (h : Lexeme.scanFrom done offset mark text = .ok lexemes) :
    ∃ later, lexemes = done.reverse ++ later ∧ Scans text (later.map Lexeme.spelling) := by
  fun_induction Lexeme.scanFrom done offset mark text with
  | case1 done =>
    cases h
    exact ⟨[], by simp, .nil⟩
  | case2 done offset mark c rest blank ih =>
    obtain ⟨later, same, scans⟩ := ih h
    exact ⟨later, same, .blank blank scans⟩
  | case3 => cases h
  | case4 done offset mark c rest visible lexemeClass length starts text stop ih =>
    obtain ⟨later, rfl, scans⟩ := ih h
    obtain ⟨tail, rest, rfl, rfl, -⟩ := starting_admits starts
    rw [List.drop_left] at scans
    refine ⟨⟨lexemeClass, text, mark, stop⟩ :: later, by simp, ?_⟩
    have lexeme : Scans (c :: (tail ++ rest)) _ := .lexeme (by simpa using visible) starts scans
    simpa [Lexeme.spelling, text, List.take_left] using lexeme

/-- The tokens of a source are spelled like its lexemes, and the end stands behind them. -/
theorem scans_of_tokenize {source file : String} {stream : TokenStream}
    (h : tokenize source file = .ok stream) :
    Scans source.toList (stream.toList.map Token.spelling) ∧ stream.Ended := by
  cases scanned : Lexeme.scanFrom [] 0 ⟨0, 0⟩ source.toList with
  | error => simp [tokenize, Lexeme.scan, scanned, Except.mapError, bind, Except.bind] at h
  | ok lexemes =>
    obtain ⟨later, -, scans⟩ := scans_of_scanFrom scanned
    obtain ⟨stream', tokenized, same, ended⟩ := scans.tokenize file
    obtain rfl : stream' = stream := Except.ok.inj (tokenized.symm.trans h)
    exact ⟨same ▸ scans, ended⟩

/-- The spelling is that of a lexeme. -/
def IsLexical (spelling : Spelling) : Prop :=
  ∃ lexemeClass : LexemeClass, spelling.kind = lexemeClass.kind ∧
    lexemeClass.Admits spelling.text.toList

theorem Lexeme.Scans.isLexical {spellings : List Spelling} (h : Scans text spellings) :
    ∀ spelling ∈ spellings, IsLexical spelling := by
  induction h with
  | nil => exact fun _ mem => absurd mem List.not_mem_nil
  | blank _ _ ih => exact ih
  | @lexeme c tail rest lexemeClass later visible starts behind ih =>
    obtain ⟨tail', rest', split, lengths, admits⟩ := starting_admits starts
    obtain ⟨rfl, -⟩ := List.append_inj split lengths
    refine List.forall_mem_cons.mpr ⟨⟨lexemeClass, rfl, ?_⟩, ih⟩
    rwa [String.toList_ofList]

/-! ## Literals -/

namespace IsLexical

variable {token : Token}

theorem integer (h : IsLexical token.spelling) (kind : token.kind = integerKind) :
    Literal.IsInteger token.text.toList := by
  obtain ⟨lexemeClass, same, admits⟩ := h
  have kind' : lexemeClass.kind = integerKind := same.symm.trans kind
  cases lexemeClass with
  | integer => exact admits
  | _ => exact absurd kind' (by decide)

theorem string (h : IsLexical token.spelling) (kind : token.kind = stringKind) :
    ∃ inner, token.text = "\"" ++ inner ++ "\"" := by
  obtain ⟨lexemeClass, same, admits⟩ := h
  have kind' : lexemeClass.kind = stringKind := same.symm.trans kind
  cases lexemeClass with
  | string =>
    obtain ⟨inner, quoted⟩ := admits
    have quoted' : token.text.toList = '"' :: (inner ++ ['"']) := quoted
    refine ⟨String.ofList inner, ?_⟩
    apply String.toList_injective
    simp [quoted']
  | _ => exact absurd kind' (by decide)

theorem boolean (h : IsLexical token.spelling) (kind : token.kind = booleanKind) :
    ∃ value : Bool, token.text = if value then "true" else "false" := by
  obtain ⟨lexemeClass, same, admits⟩ := h
  have kind' : lexemeClass.kind = booleanKind := same.symm.trans kind
  cases lexemeClass with
  | trueWord => exact ⟨true, String.toList_injective admits⟩
  | falseWord => exact ⟨false, String.toList_injective admits⟩
  | _ => exact absurd kind' (by decide)

end IsLexical

end Descent.Json
