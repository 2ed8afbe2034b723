import Descent.Proofs.Json.RoundTrip

/-!
# Escapes in strings

Every text can be written between quotes, and the parse of what is written is clean. But the value
that is built has the text between the quotes as it stands, so a text is built from the way it is
written only if it needs no escapes. The escapes can be resolved afterwards, because nothing of the
text is lost.
-/

namespace Descent.Json

namespace Quoted

/-- A character is written with at least one character, and with one only if that is itself. -/
theorem Written.length {c : Char} {written : List Char} (h : Written c written) :
    1 ≤ written.length ∧ (written.length = 1 → IsPlain c) := by
  cases h with
  | letter => simp
  | digits => simp
  | plain quote escape visible => exact ⟨Nat.le_refl 1, fun _ => ⟨quote, escape, visible⟩⟩

theorem length_le_encoded (chars : List Char) :
    chars.length ≤ (chars.flatMap encodeChar).length := by
  induction chars with
  | nil => exact Nat.le_refl _
  | cons c chars ih =>
    have first := (written_encodeChar c).length.1
    rw [List.flatMap_cons, List.length_append, List.length_cons]
    omega

/-- Characters that are written as they are need no escapes. -/
theorem plain_of_encoded {chars : List Char} (same : chars.flatMap encodeChar = chars) :
    ∀ c ∈ chars, IsPlain c := by
  induction chars with
  | nil => exact fun _ mem => absurd mem List.not_mem_nil
  | cons c chars ih =>
    obtain ⟨some, single⟩ := (written_encodeChar c).length
    have others := length_le_encoded chars
    have total := congrArg List.length same
    rw [List.flatMap_cons, List.length_append, List.length_cons] at total
    -- Nothing behind the first character gets shorter, so it has no room for an escape.
    have plain : IsPlain c := single (by omega)
    rw [List.flatMap_cons, encodeChar_plain plain] at same
    exact List.forall_mem_cons.mpr ⟨plain, ih (List.cons.inj same).2⟩

/-- A text is written as it is exactly if it needs no escapes. -/
theorem encode_eq_self_iff {text : String} : encode text = text ↔ IsPlainText text := by
  constructor
  · intro same
    have chars := congrArg String.toList same
    rw [encode, String.toList_ofList] at chars
    exact plain_of_encoded chars
  · exact encode_plain

end Quoted

/-- A string that is written denotes the text between its quotes, escapes included. -/
theorem quoted_forms (text : String) :
    Forms .value [.quoted text] (Value.string (Quoted.encode text)).Denoted := by
  refine Value.alternative_forms (by decide) (atom_forms .string fun token quoted => ?_)
  have read : Value.literal Literal.string [.token token] = .ok (Quoted.encode text) := by
    rw [Value.literal, quoted, Literal.string_quoted]
    rfl
  simp [Value.Denoted, Value.ofTree, Rule.name, read]

/-- What is written for a text has the text between the quotes as its value. -/
theorem parse_quoted (text file : String) :
    ∃ parsed, parse ("\"" ++ Quoted.encode text ++ "\"") file = .ok parsed ∧
      parsed.isClean = true ∧ parsed.value = .ok (.string (Quoted.encode text)) := by
  have scans := (Value.string text).scans_render .compact
  obtain ⟨_, _, parsed, _, _, _, parses, _, clean, value⟩ :=
    parse_of_forms scans (quoted_forms text) file
  exact ⟨parsed, parses, clean, value⟩

/-- Every text is parsed cleanly from the way it is written, and the value is a string that can be
decoded to the text. The value is the text itself if and only if no character of the text needs an
escape. -/
theorem string_keeps_escapes (text file : String) :
    ∃ parsed raw, parse ("\"" ++ Quoted.encode text ++ "\"") file = .ok parsed ∧
      parsed.isClean = true ∧ parsed.value = .ok (.string raw) ∧ raw = Quoted.encode text ∧
      Quoted.decode? raw = some text ∧
      (parsed.value = .ok (.string text) ↔ Quoted.IsPlainText text) := by
  obtain ⟨parsed, parses, clean, value⟩ := parse_quoted text file
  refine ⟨parsed, _, parses, clean, value, rfl, Quoted.decode_encode text, ?_⟩
  rw [value, Except.ok.injEq, Value.string.injEq]
  exact Quoted.encode_eq_self_iff

/-- A line break is written as a backslash and a letter, and these two characters are built. -/
theorem line_break_not_built :
    ∃ parsed, parse "\"\\n\"" "line.json" = .ok parsed ∧ parsed.isClean = true ∧
      parsed.value = .ok (.string "\\n") ∧ parsed.value ≠ .ok (.string "\n") := by
  obtain ⟨parsed, parses, clean, value⟩ := parse_quoted "\n" "line.json"
  have other : Quoted.encode "\n" ≠ "\n" := mt Quoted.encode_eq_self_iff.mp (by decide)
  refine ⟨parsed, parses, clean, value, fun built => other ?_⟩
  simpa using value.symm.trans built

end Descent.Json
