import Descent.Json.Grammar
import Descent.Json.Literal
import Descent.Json.Value

/-!
# Values of trees

A tree of the JSON grammar denotes a value. Trees from elsewhere are looked at in the same way,
and the first node that does not fit is the error: productions are known by their name, literals
by their first child, fields by their labels.
-/

namespace Descent.Json

/-- What a place in a tree should hold. -/
inductive Wanted where
  | production
  | jsonProduction
  | value
  | token
  | fieldKey
  | fieldValue
deriving DecidableEq, Repr

def Wanted.render : Wanted → String
  | .production => "a production"
  | .jsonProduction => "a JSON production"
  | .value => "a value"
  | .token => "a token"
  | .fieldKey => "a field key"
  | .fieldValue => "a field value"

/-- Why a tree denotes no value. -/
inductive BuildError where
  | malformedLiteral (token : Token) (reason : LiteralError)
  | unexpectedNode (wanted : Wanted) (found : String)
deriving DecidableEq, Repr

namespace BuildError

def message : BuildError → String
  | .malformedLiteral token reason =>
    "malformed literal " ++ token.render ++ ": " ++ reason.message
  | .unexpectedNode wanted found => "expected " ++ wanted.render ++ ", found " ++ found

/-- The error of finding a tree, or nothing, in the place of what was wanted. -/
def mismatch (wanted : Wanted) (found : Option Tree) : BuildError :=
  .unexpectedNode wanted ((found.map Tree.render).getD "nothing")

end BuildError

namespace Value

/-- The value of the literal token that comes first among the children. -/
def literal {α : Type} (read : String → Except LiteralError α) :
    List Tree → Except BuildError α
  | .token token :: _ => (read token.text).mapError (.malformedLiteral token)
  | children => .error (.mismatch .token children.head?)

/-- The key of a field. -/
def fieldKey (children : List Tree) : Except BuildError String :=
  match Tree.labeledValue? "key" children with
  | some (.production _ key) => literal Literal.string key
  | other => .error (.mismatch .fieldKey other)

mutual

/-- The value that a tree denotes. -/
def ofTree : Tree → Except BuildError Value
  | .production name children =>
    if name = Rule.value.name then ofChoice (.production name children) children
    else if name = Rule.integer.name then .integer <$> literal Literal.integer children
    else if name = Rule.string.name then .string <$> literal Literal.string children
    else if name = Rule.boolean.name then .boolean <$> literal Literal.boolean children
    else if name = Rule.list.name then .array <$> ofElements children
    else if name = Rule.dict.name then .object <$> ofFields [] children
    else .error (.unexpectedNode .jsonProduction name)
  | tree => .error (.mismatch .production (some tree))

/-- The value of the first production among the children of `parent`. -/
def ofChoice (parent : Tree) : List Tree → Except BuildError Value
  | [] => .error (.mismatch .value (some parent))
  | .production name children :: _ => ofTree (.production name children)
  | _ :: rest => ofChoice parent rest

/-- The values of all children but the opening brackets. -/
def ofElements : List Tree → Except BuildError (List Value)
  | [] => .ok []
  | tree :: rest =>
    if tree.token?.any (·.kind = .ofChar '[') then ofElements rest
    else do
      let value ← ofTree tree
      let values ← ofElements rest
      return value :: values

/-- The members of the productions among the children, put into those that came before. -/
def ofFields (members : NamedEntries Value) : List Tree → Except BuildError (NamedEntries Value)
  | [] => .ok members
  | .production _ children :: rest => do
    let key ← fieldKey children
    let value ← ofFieldValue children
    ofFields (members.insert key value) rest
  | _ :: rest => ofFields members rest

/-- The value of a field. -/
def ofFieldValue : List Tree → Except BuildError Value
  | [] => .error (.mismatch .fieldValue none)
  | .labeled name tree :: rest => if name = "value" then ofTree tree else ofFieldValue rest
  | _ :: rest => ofFieldValue rest

end

end Value

end Descent.Json
