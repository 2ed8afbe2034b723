/-!
# Lexemes of JSON

The scanner cuts a source into lexemes. At each place it takes the longest lexeme that starts
there; the first character already tells which class that can be. Words end where they end, so
`truefalse` is two lexemes. Blanks between lexemes are skipped.

Marks count lines and the bytes since the last newline that was skipped as a blank. A newline
inside a string starts no new line for them.
-/

namespace Descent.Json

inductive LexemeClass where
  | leftBracket
  | rightBracket
  | leftBrace
  | rightBrace
  | comma
  | colon
  | trueWord
  | falseWord
  | integer
  | string
deriving DecidableEq, Repr

/-- A place as the scanner counts it: lines and bytes from zero. -/
structure Mark where
  line : Nat
  column : Nat
deriving DecidableEq, Repr

/-- Where scanning goes on after a blank. -/
def Mark.afterBlank (mark : Mark) (c : Char) : Mark :=
  if c = '\n' then ⟨mark.line + 1, 0⟩ else ⟨mark.line, mark.column + 1⟩

structure Lexeme where
  lexemeClass : LexemeClass
  text : String
  start : Mark
  stop : Mark
deriving DecidableEq, Repr

/-- No lexeme starts at `offset`, where `rest` of the source is left. -/
structure ScanError where
  source : String
  offset : Nat
  rest : String
deriving DecidableEq, Repr

def ScanError.message (error : ScanError) : String :=
  "Failed to lex '" ++ error.source ++ "' at position " ++ Nat.repr error.offset
    ++ "; remaining '" ++ error.rest ++ "'"

namespace Lexeme

/-- Space, tab, newline, carriage return and form feed separate lexemes. -/
def isBlank (c : Char) : Bool :=
  c = ' ' || c = '\t' || c = '\n' || c = '\r' || c = '\x0c'

/-- The number of characters up to the closing quote of a string, the quote included. A
backslash takes the next character with it, which may be anything but a newline. -/
def stringTail? : List Char → Option Nat
  | [] => none
  | '"' :: _ => some 1
  | ['\\'] => none
  | '\\' :: c :: rest => if c = '\n' then none else (stringTail? rest).map (· + 2)
  | _ :: rest => (stringTail? rest).map (· + 1)

/-- The number of digits in front. -/
def digitCount (text : List Char) : Nat := (text.takeWhile Char.isDigit).length

/-- The given word after its first letter, if it stands in front. -/
def wordTail? (lexemeClass : LexemeClass) (tail rest : List Char) : Option (LexemeClass × Nat) :=
  if tail.isPrefixOf rest then some (lexemeClass, tail.length) else none

/-- The class of the lexeme that starts with `c`, and how many of the following characters belong
to it. -/
def starting? (c : Char) (rest : List Char) : Option (LexemeClass × Nat) :=
  match c with
  | '[' => some (.leftBracket, 0)
  | ']' => some (.rightBracket, 0)
  | '{' => some (.leftBrace, 0)
  | '}' => some (.rightBrace, 0)
  | ',' => some (.comma, 0)
  | ':' => some (.colon, 0)
  | 't' => wordTail? .trueWord ['r', 'u', 'e'] rest
  | 'f' => wordTail? .falseWord ['a', 'l', 's', 'e'] rest
  | '-' => if digitCount rest = 0 then none else some (.integer, digitCount rest)
  | '"' => (stringTail? rest).map (.string, ·)
  | c => if c.isDigit then some (.integer, digitCount rest) else none

/-- Scans from a byte offset and its mark, behind the lexemes in `done` (newest first). A
failure is told by its offset and the text left there. -/
def scanFrom (done : List Lexeme) (offset : Nat) (mark : Mark) :
    List Char → Except (Nat × List Char) (List Lexeme)
  | [] => .ok done.reverse
  | c :: rest =>
    if isBlank c then scanFrom done (offset + 1) (mark.afterBlank c) rest
    else
      match starting? c rest with
      | none => .error (offset, c :: rest)
      | some (lexemeClass, length) =>
        let text := String.ofList (c :: rest.take length)
        let stop : Mark := ⟨mark.line, mark.column + text.utf8ByteSize⟩
        scanFrom (⟨lexemeClass, text, mark, stop⟩ :: done) (offset + text.utf8ByteSize) stop
          (rest.drop length)
termination_by text => text.length
decreasing_by
  · simp
  · simp only [List.length_drop, List.length_cons]; omega

/-- The lexemes of a source from left to right. -/
def scan (source : String) : Except ScanError (List Lexeme) :=
  (scanFrom [] 0 ⟨0, 0⟩ source.toList).mapError fun (offset, rest) =>
    ⟨source, offset, String.ofList rest⟩

end Lexeme

end Descent.Json
