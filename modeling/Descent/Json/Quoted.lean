/-!
# Quoted text

Between quotes, JSON writes quotes, backslashes and control characters as escapes. `encode` goes
from a text to what stands between the quotes and `decode?` back. Some escapes denote no text:
one half of a surrogate pair needs the other half next to it.
-/

namespace Descent.Json.Quoted

/-! ## Writing -/

/-- The lower-case hexadecimal digit of a number below sixteen. -/
def hexDigit (n : Nat) : Char :=
  if n < 10 then Char.ofNat ('0'.toNat + n) else Char.ofNat ('a'.toNat + (n - 10))

/-- How one character is written: escaped if it has to be, else as it is. -/
def encodeChar (c : Char) : List Char :=
  if c = '"' then ['\\', '"']
  else if c = '\\' then ['\\', '\\']
  else if c = '\x08' then ['\\', 'b']
  else if c = '\x0c' then ['\\', 'f']
  else if c = '\n' then ['\\', 'n']
  else if c = '\r' then ['\\', 'r']
  else if c = '\t' then ['\\', 't']
  else if c.toNat < 0x20 then
    ['\\', 'u', '0', '0', hexDigit (c.toNat / 16), hexDigit (c.toNat % 16)]
  else [c]

/-- What stands between the quotes for a text. -/
def encode (text : String) : String := String.ofList (text.toList.flatMap encodeChar)

/-! ## Reading -/

/-- The value of a hexadecimal digit of either case. -/
def hexValue? (c : Char) : Option Nat :=
  if c.isDigit then some (c.toNat - '0'.toNat)
  else if 'a' ≤ c && c ≤ 'f' then some (c.toNat - 'a'.toNat + 10)
  else if 'A' ≤ c && c ≤ 'F' then some (c.toNat - 'A'.toNat + 10)
  else none

/-- The value of four hexadecimal digits. -/
def hexValue4? (a b c d : Char) : Option Nat := do
  return (((← hexValue? a) * 16 + (← hexValue? b)) * 16 + (← hexValue? c)) * 16 + (← hexValue? d)

/-- What an escape of one letter stands for. -/
def shortEscape? : Char → Option Char
  | '"' => some '"'
  | '\\' => some '\\'
  | '/' => some '/'
  | 'b' => some '\x08'
  | 'f' => some '\x0c'
  | 'n' => some '\n'
  | 'r' => some '\r'
  | 't' => some '\t'
  | _ => none

/-- Cuts the source behind an opening quote at the closing one. Control characters and unknown
escapes are refused. -/
def cut? : List Char → Option (List Char × List Char)
  | [] => none
  | '"' :: rest => some ([], rest)
  | '\\' :: 'u' :: a :: b :: c :: d :: rest => do
    guard (hexValue4? a b c d).isSome
    let (raw, rest) ← cut? rest
    return ('\\' :: 'u' :: a :: b :: c :: d :: raw, rest)
  | '\\' :: letter :: rest => do
    guard (shortEscape? letter).isSome
    let (raw, rest) ← cut? rest
    return ('\\' :: letter :: raw, rest)
  | c :: rest => do
    guard (c ≠ '\\' && 0x20 ≤ c.toNat)
    let (raw, rest) ← cut? rest
    return (c :: raw, rest)

/-- A character, or a sixteen-bit unit that may be half of one. -/
inductive Piece where
  | plain (c : Char)
  | unit (value : Nat)
deriving DecidableEq, Repr

/-- Resolves the escapes one by one. -/
def pieces? : List Char → Option (List Piece)
  | [] => some []
  | '\\' :: 'u' :: a :: b :: c :: d :: rest => do
    let value ← hexValue4? a b c d
    return .unit value :: (← pieces? rest)
  | '\\' :: letter :: rest => do
    let c ← shortEscape? letter
    return .plain c :: (← pieces? rest)
  | c :: rest => return .plain c :: (← pieces? rest)

/-- Whether a unit is the first half of a pair. -/
def isLeading (unit : Nat) : Bool := 0xD800 ≤ unit && unit < 0xDC00

/-- Whether a unit is the second half of a pair. -/
def isTrailing (unit : Nat) : Bool := 0xDC00 ≤ unit && unit < 0xE000

/-- The character that a pair of halves denotes. -/
def pair (leading trailing : Nat) : Char :=
  Char.ofNat (0x10000 + (leading - 0xD800) * 0x400 + (trailing - 0xDC00))

/-- Joins the halves of pairs. A half on its own denotes nothing. -/
def join? : List Piece → Option (List Char)
  | [] => some []
  | .plain c :: rest => (c :: ·) <$> join? rest
  | .unit leading :: .unit trailing :: rest =>
    if isLeading leading then
      if isTrailing trailing then (pair leading trailing :: ·) <$> join? rest
      else none
    else if isTrailing leading then none
    else (Char.ofNat leading :: ·) <$> join? (.unit trailing :: rest)
  | .unit value :: rest =>
    if isLeading value || isTrailing value then none else (Char.ofNat value :: ·) <$> join? rest

/-- The text that stands between quotes. -/
def decode? (raw : String) : Option String := do
  return String.ofList (← join? (← pieces? raw.toList))

end Descent.Json.Quoted
