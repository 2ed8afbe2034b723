import Descent.Json.Quoted

/-!
# Documents

A document is JSON as it is written: numbers and strings keep their spelling, members keep their
order and may repeat. `render` lays a document out on one line or on several.
-/

namespace Descent.Json

/-- JSON text without its blanks. -/
inductive Document where
  | null
  | boolean (value : Bool)
  /-- A number as it is spelled. -/
  | number (spelling : String)
  /-- What stands between the quotes, escapes included. -/
  | string (raw : String)
  | array (elements : List Document)
  /-- Members with what stands between the quotes of their keys. -/
  | object (members : List (String × Document))
deriving Repr, Inhabited

/-- How documents are laid out. -/
inductive Layout where
  /-- Everything on one line, without blanks. -/
  | compact
  /-- An element or member per line, indented by two blanks per level. -/
  | pretty
deriving DecidableEq, Repr

namespace Layout

/-- What stands before an element at a depth, and before the closing bracket around it. -/
def lineBreak (layout : Layout) (depth : Nat) : String :=
  match layout with
  | .compact => ""
  | .pretty => "\n" ++ String.ofList (List.replicate (2 * depth) ' ')

/-- What stands between a key and its value. -/
def colon : Layout → String
  | .compact => ":"
  | .pretty => ": "

/-- Puts items between brackets. No items make an empty pair of brackets. -/
def bracketed (layout : Layout) (depth : Nat) (opening closing : String) (items : List String) :
    String :=
  if items.isEmpty then opening ++ closing
  else
    opening ++ layout.lineBreak (depth + 1)
      ++ String.intercalate ("," ++ layout.lineBreak (depth + 1)) items
      ++ layout.lineBreak depth ++ closing

end Layout

namespace Document

/-- The document that stands for a text. -/
def ofText (text : String) : Document := .string (Quoted.encode text)

mutual

/-- The text of a document at a depth of nesting. -/
def renderAt (layout : Layout) (depth : Nat) : Document → String
  | .null => "null"
  | .boolean value => if value then "true" else "false"
  | .number spelling => spelling
  | .string raw => "\"" ++ raw ++ "\""
  | .array elements =>
    layout.bracketed depth "[" "]" (renderElements layout (depth + 1) elements)
  | .object members =>
    layout.bracketed depth "\x7b" "\x7d" (renderMembers layout (depth + 1) members)

/-- The texts of several documents. -/
def renderElements (layout : Layout) (depth : Nat) : List Document → List String
  | [] => []
  | element :: rest => renderAt layout depth element :: renderElements layout depth rest

/-- The texts of members, keys included. -/
def renderMembers (layout : Layout) (depth : Nat) : List (String × Document) → List String
  | [] => []
  | (key, value) :: rest =>
    ("\"" ++ key ++ "\"" ++ layout.colon ++ renderAt layout depth value)
      :: renderMembers layout depth rest

end

/-- The text of a document. -/
def render (layout : Layout) (document : Document) : String := renderAt layout 0 document

/-! ## Access -/

/-- The text that a string stands for. -/
def text? : Document → Option String
  | .string raw => Quoted.decode? raw
  | _ => none

/-- Members with the texts of their keys. -/
def members? (members : List (String × Document)) : Option (List (String × Document)) :=
  members.mapM fun (raw, value) => do return (← Quoted.decode? raw, value)

/-- The value of a member that may be missing but not repeated. There is no answer if it is
repeated. -/
def single? (key : String) (members : List (String × Document)) : Option (Option Document) :=
  match members.filter (·.1 = key) with
  | [] => some none
  | [(_, value)] => some (some value)
  | _ => none

end Document

end Descent.Json
