import Descent.Json.Lexeme
import Descent.Source.Lines
import Descent.Token.Stream

/-!
# Tokens of JSON

Lexemes become tokens by getting a kind and a location. Both words for truth values have one kind.
The token of the end stands just past the last character, so that even an empty source has a place
for its diagnostics.
-/

namespace Descent.Json

def integerKind : TokenKind := ⟨"INT_LITERAL"⟩

def stringKind : TokenKind := ⟨"STRING_LITERAL"⟩

def booleanKind : TokenKind := ⟨"BOOL_LITERAL"⟩

def LexemeClass.kind : LexemeClass → TokenKind
  | .leftBracket => .ofChar '['
  | .rightBracket => .ofChar ']'
  | .leftBrace => .ofChar '{'
  | .rightBrace => .ofChar '}'
  | .comma => .ofChar ','
  | .colon => .ofChar ':'
  | .trueWord => booleanKind
  | .falseWord => booleanKind
  | .integer => integerKind
  | .string => stringKind

/-- A token of the given kind and text at a location. -/
def tokenAt (kind : TokenKind) (text : String) (location : Location) (file : String) : Token where
  kind := kind
  text := text
  offset := location.offset
  line := location.line
  column := location.column
  file := file

/-- The tokens of a source; `file` is the name that diagnostics show. -/
def tokenize (source file : String) : Except ScanError TokenStream := do
  let lexemes ← Lexeme.scan source
  let lines := Lines.ofSource source.toList
  let tokens := lexemes.map fun lexeme =>
    tokenAt lexeme.lexemeClass.kind lexeme.text
      (lines.locate lexeme.start.line lexeme.start.column) file
  return .ofList tokens (some (tokenAt .endOfInput "EOF" lines.stop file))

end Descent.Json
