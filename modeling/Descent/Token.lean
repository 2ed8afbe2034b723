/-!
# Tokens

A token is a piece of source text together with a kind and a location. Parsers look at the
kind only; the text and the location are for the reader of a tree or of a diagnostic.

The empty tag is reserved for the end of input, so that reading past the last token needs no
case of its own.
-/

namespace Descent

/-- The tag by which parsers tell tokens apart, such as `NUMBER` or `[`. -/
structure TokenKind where
  tag : String
deriving DecidableEq, Repr, Inhabited

namespace TokenKind

/-- The kind of the token that stands past the last one. -/
def endOfInput : TokenKind := ⟨""⟩

/-- Punctuation is tagged with its own character. -/
def ofChar (c : Char) : TokenKind := ⟨c.toString⟩

def isEnd (kind : TokenKind) : Bool := kind = endOfInput

/-- Whether the tag is one character long, as it is for punctuation. -/
def isPunctuation (kind : TokenKind) : Bool := kind.tag.length = 1

/-- The tag itself, or `EOF` at the end of input. -/
def render (kind : TokenKind) : String :=
  if kind.isEnd then "EOF" else kind.tag

/-- Kinds are ordered as their tags are, character by character. -/
def le (a b : TokenKind) : Bool := a.tag ≤ b.tag

@[simp] theorem isEnd_endOfInput : endOfInput.isEnd = true := rfl

@[simp] theorem isEnd_iff {kind : TokenKind} : kind.isEnd = true ↔ kind = endOfInput := by
  simp [isEnd]

@[simp] theorem ofChar_inj {c d : Char} : ofChar c = ofChar d ↔ c = d := by
  simp [ofChar, Char.toString]

end TokenKind

/-- A lexical unit of the input. Lines and columns count from one; the offset counts bytes from
zero, and the index is the place of the token in its stream. -/
structure Token where
  kind : TokenKind
  text : String
  offset : Nat := 0
  line : Nat := 0
  column : Nat := 0
  index : Nat := 0
  file : String := ""
deriving DecidableEq, Repr, Inhabited

namespace Token

/-- The end of input at no particular place. -/
def endOfInput : Token := { kind := .endOfInput, text := "EOF" }

def isEnd (token : Token) : Bool := token.kind.isEnd

/-- The byte offset just past the text of the token. -/
def endOffset (token : Token) : Nat := token.offset + token.text.utf8ByteSize

/-- How diagnostics and trees name a token: punctuation in quotes, any other token by its kind
and text. -/
def render (token : Token) : String :=
  if token.isEnd then "EOF"
  else if token.kind.isPunctuation then "'" ++ token.kind.tag ++ "'"
  else "[" ++ token.kind.tag ++ " " ++ token.text ++ "]"

@[simp] theorem isEnd_endOfInput : endOfInput.isEnd = true := rfl

end Token

end Descent
