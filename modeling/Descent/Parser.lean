import Descent.Step

/-!
# Parsers

A parser is an expression built from a few combinators; running it is another module's matter.
Rules are referred to by number, so an expression may use a rule that has no body yet, also the
one whose body it is going to be.

`custom` admits any step, and `Recovery.custom` any answer to a failure. An expression without
them is called standard; most laws are about standard expressions.
-/

namespace Descent

/-- The number of a rule in its table. -/
abbrev RuleId := Nat

/-- What to do when a parser fails. -/
inductive Recovery where
  /-- Fail, and keep the reports. -/
  | fail
  /-- Match nothing at the start, and forget the reports. -/
  | backtrack
  /-- Keep the reports, skip past the next token of the kind and match nothing. -/
  | skipPast (kind : TokenKind)
  /-- Answer from the states before and after the attempt. -/
  | custom (keepReports : Bool) (action : State → State → Option Result)

/-- Parser expressions. -/
inductive Parser where
  /-- One token of a kind. -/
  | token (kind : TokenKind)
  /-- All parts in order. -/
  | sequence (parts : List Parser)
  /-- The first alternative that does not fail. -/
  | choice (alternatives : List Parser)
  /-- The body without moving. -/
  | lookahead (body : Parser)
  /-- The body, and an answer to its failure. -/
  | recover (recovery : Recovery) (body : Parser)
  /-- Any number of bodies. -/
  | many (body : Parser)
  /-- At least one body. -/
  | many1 (body : Parser)
  /-- Elements between delimiters; at least one if `required`. -/
  | separated (required : Bool) (element delimiter : Parser)
  /-- The body, closed by a terminator that leaves no trace in the tree. -/
  | terminated (body terminator : Parser)
  /-- The body as a production of the grammar. -/
  | production (name : String) (body : Parser)
  /-- The body under a label. -/
  | labeled (name : String) (body : Parser)
  /-- Whatever the rule is bound to when the parser runs. -/
  | rule (id : RuleId)
  /-- Any step. -/
  | custom (step : Step)

namespace Parser

instance : Inhabited Parser := ⟨sequence []⟩

/-! ## Derived forms -/

/-- Punctuation. -/
def char (c : Char) : Parser := token (.ofChar c)

/-- The end of the input. It is consumed like any other token. -/
def endOfInput : Parser := token .endOfInput

/-- The body or nothing. -/
def optional (body : Parser) : Parser := recover .backtrack body

/-- Looks ahead for a body that may be missing. -/
def optionalLookahead (body : Parser) : Parser := lookahead (optional body)

/-- Marks the topmost rule of a grammar: its failures stay failures. -/
def root (body : Parser) : Parser := recover .fail body

/-- Goes on behind the next token of the kind if the body fails. -/
def recoverTo (kind : TokenKind) (body : Parser) : Parser := recover (.skipPast kind) body

/-- Any number of elements between delimiters. -/
def separatedBy (element delimiter : Parser) : Parser := separated false element delimiter

/-- At least one element, with delimiters between them. -/
def separatedBy1 (element delimiter : Parser) : Parser := separated true element delimiter

/-- Any number of elements between delimiters, up to a terminator. -/
def separatedByUntil (element delimiter terminator : Parser) : Parser :=
  terminated (separatedBy element delimiter) terminator

/-- At least one element between delimiters, up to a terminator. -/
def separatedBy1Until (element delimiter terminator : Parser) : Parser :=
  terminated (separatedBy1 element delimiter) terminator

end Parser

end Descent
