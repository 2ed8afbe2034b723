import Descent.Grammar
import Descent.Json.Tokens

/-!
# The grammar of JSON

```text
IntLiteral     := INT_LITERAL
StringLiteral  := STRING_LITERAL
BooleanLiteral := BOOL_LITERAL
List           := "[" (Value ("," Value)* ","?)? "]"
Dict           := "{" (Field ("," Field)* ","?)? "}"
Field          := StringLiteral ":" Value
Value          := IntLiteral | StringLiteral | BooleanLiteral | List | Dict
```

A comma may follow the last element of a list or dictionary. There is no null, and numbers are
integers.
-/

namespace Descent.Json

/-- The rules of the grammar. -/
inductive Rule where
  | integer
  | string
  | boolean
  | list
  | dict
  | field
  | value
deriving DecidableEq, Repr

namespace Rule

/-- All rules in the order of their declaration. -/
def all : List Rule := [integer, string, boolean, list, dict, field, value]

/-- The place of a rule in the order of declaration, which is its number in the table. -/
def id : Rule → RuleId
  | integer => 0
  | string => 1
  | boolean => 2
  | list => 3
  | dict => 4
  | field => 5
  | value => 6

/-- The name of a rule and of its production. -/
def name : Rule → String
  | integer => "IntLiteral"
  | string => "StringLiteral"
  | boolean => "BooleanLiteral"
  | list => "List"
  | dict => "Dict"
  | field => "Field"
  | value => "Value"

/-- What the production of a rule stands for. -/
def shape : Rule → Shape
  | integer => .integer
  | string => .string
  | boolean => .boolean
  | list => .list
  | dict => .mapping
  | field => .reference "DictField"
  | value => .reference "JsonValue"

/-- The use of a rule in a parser. -/
def parser (rule : Rule) : Parser := .rule rule.id

/-- What a rule matches. -/
def body : Rule → Parser
  | integer => .token integerKind
  | string => .token stringKind
  | boolean => .token booleanKind
  | list => .sequence [.char '[', .separatedByUntil value.parser (.char ',') (.char ']')]
  | dict => .sequence [.char '{', .separatedByUntil field.parser (.char ',') (.char '}')]
  | field => .sequence [.labeled "key" string.parser, .char ':', .labeled "value" value.parser]
  | value => .choice [integer.parser, string.parser, boolean.parser, list.parser, dict.parser]

end Rule

/-- All rules declared, none defined. -/
def declarations : Draft :=
  Rule.all.foldl (fun draft rule => (draft.declare rule.name).2) (.start "json" .empty)

/-- All rules declared and defined. -/
def draft : Draft :=
  Rule.all.foldl (fun draft rule => (draft.define rule.id (some rule.shape) rule.body).2)
    declarations

/-- The grammar of JSON. Its draft has nothing to be refused for. -/
def grammar : Grammar := ⟨draft.name, draft.rules, draft.registry, draft.declared⟩

theorem finish_draft : draft.finish = .ok grammar := by rfl

end Descent.Json
