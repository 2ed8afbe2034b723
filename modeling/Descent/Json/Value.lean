import Descent.Json.Document
import Descent.NameMap

/-!
# JSON values

The values that documents of the grammar denote. Members of an object are sorted by name, each
name once.
-/

namespace Descent.Json

inductive Value where
  | integer (value : Int64)
  | boolean (value : Bool)
  | string (text : String)
  | array (elements : List Value)
  | object (members : List (String × Value))
deriving Inhabited

namespace Value

mutual

/-- How a value is written. -/
def toDocument : Value → Document
  | .integer value => .number value.toInt.repr
  | .boolean value => .boolean value
  | .string text => .ofText text
  | .array elements => .array (toDocuments elements)
  | .object members => .object (toMembers members)

/-- How several values are written. -/
def toDocuments : List Value → List Document
  | [] => []
  | value :: rest => value.toDocument :: toDocuments rest

/-- How members are written. -/
def toMembers : List (String × Value) → List (String × Document)
  | [] => []
  | (name, value) :: rest => (Quoted.encode name, value.toDocument) :: toMembers rest

end

/-- The text of a value. -/
def render (layout : Layout) (value : Value) : String := value.toDocument.render layout

end Value

end Descent.Json
