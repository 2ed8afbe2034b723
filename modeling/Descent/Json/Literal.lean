/-!
# Literals

The texts of literal tokens and the values that they denote. Integers have 64 bits; their digits
are read from left to right, and the first thing that is wrong decides the answer. The text of a
string is what stands between its quotes, with escapes left as they are.
-/

namespace Descent.Json

/-- Why a text is not the literal it should be. -/
inductive LiteralError where
  | emptyInteger
  | invalidDigit
  | tooLarge
  | tooSmall
  | notBoolean
  | missingQuotes
deriving DecidableEq, Repr

def LiteralError.message : LiteralError → String
  | .emptyInteger => "cannot parse integer from empty string"
  | .invalidDigit => "invalid digit found in string"
  | .tooLarge => "number too large to fit in target type"
  | .tooSmall => "number too small to fit in target type"
  | .notBoolean => "provided string was not `true` or `false`"
  | .missingQuotes => "missing quotes"

namespace Literal

/-- The largest absolute value on either side of zero. -/
def limit (negative : Bool) : Nat := if negative then Nat.pow 2 63 else Nat.pow 2 63 - 1

/-- The absolute value of the digits in `value` and in the text. -/
def magnitude (negative : Bool) (value : Nat) : List Char → Except LiteralError Nat
  | [] => .ok value
  | c :: rest =>
    if c.isDigit then
      let value := 10 * value + (c.toNat - '0'.toNat)
      if value ≤ limit negative then magnitude negative value rest
      else .error (if negative then .tooSmall else .tooLarge)
    else .error .invalidDigit

/-- A number with the given sign. -/
def signed (negative : Bool) (digits : List Char) : Except LiteralError Int64 := do
  if digits.isEmpty then throw .invalidDigit
  let value ← magnitude negative 0 digits
  return Int64.ofInt (if negative then -value else value)

/-- Digits behind an optional sign. -/
def integer (text : String) : Except LiteralError Int64 :=
  match text.toList with
  | [] => .error .emptyInteger
  | '+' :: digits => signed false digits
  | '-' :: digits => signed true digits
  | digits => signed false digits

/-- One of the two words for truth values. -/
def boolean (text : String) : Except LiteralError Bool :=
  if text = "true" then .ok true
  else if text = "false" then .ok false
  else .error .notBoolean

/-- What stands between a quote in front and a quote at the end. -/
def string (text : String) : Except LiteralError String :=
  match text.toList with
  | '"' :: rest =>
    if rest.getLast? = some '"' then .ok (String.ofList rest.dropLast) else .error .missingQuotes
  | _ => .error .missingQuotes

end Literal

end Descent.Json
