import Descent.Json.Document.Read
import Descent.Registry

/-!
# Registries as JSON

A registry is written as an object with the names under `order` and the shapes under `schemas`.
A shape is an object with the word for it under `shape` and, for a reference, the name of the type
under `name`.

The reader also takes the two parts of either object as a list. Under `shape`, though not in a
list, the word may be the key of a null. Members that it does not know are ignored, and a part that
is given twice is refused. Of several shapes for one production it takes the last.
-/

namespace Descent

open Json

namespace Shape

/-- The word for a shape. -/
def word : Shape → String
  | .integer => "integer"
  | .string => "string"
  | .boolean => "boolean"
  | .list => "list"
  | .mapping => "mapping"
  | .reference _ => "reference"

def toDocument : Shape → Document
  | .reference name =>
    .object [("shape", .ofText "reference"), ("name", .ofText name)]
  | shape => .object [("shape", .ofText shape.word)]

/-- The shape for a word. Only a reference takes a name; for the others it may be null. -/
def ofWord? (word : String) (name : Option Document) : Option Shape :=
  let plain (shape : Shape) : Option Shape :=
    match name with
    | none => some shape
    | some .null => some shape
    | some _ => none
  match word with
  | "integer" => plain .integer
  | "string" => plain .string
  | "boolean" => plain .boolean
  | "list" => plain .list
  | "mapping" => plain .mapping
  | "reference" => (name.bind Document.text?).map .reference
  | _ => none

/-- The word under `shape`: a string, or the only key of an object that has null under it. -/
def word? : Document → Option String
  | .string raw => Quoted.decode? raw
  | .object [(raw, .null)] => Quoted.decode? raw
  | _ => none

/-- The shape that a document describes. -/
def ofDocument? : Document → Option Shape
  | .object raw => do
    let members ← Document.members? raw
    let word ← Document.single? "shape" members
    let name ← Document.single? "name" members
    ofWord? (← word? (← word)) name
  | .array [word, name] => do ofWord? (← Document.text? word) (some name)
  | _ => none

end Shape

namespace Registry

/-- The shape of a production as a document, null if it has none. -/
def shapeDocument : Option Shape → Document
  | none => .null
  | some shape => shape.toDocument

def toDocument (registry : Registry) : Document :=
  .object [
    ("order", .array (registry.order.map .ofText)),
    ("schemas", .object (registry.shapes.entries.map fun (name, shape) =>
      (Quoted.encode name, shapeDocument shape)))]

/-- The registry as JSON text. -/
def render (registry : Registry) : String := registry.toDocument.render .pretty

/-- The names under `order`. -/
def orderOf? : Document → Option (List String)
  | .array names => names.mapM Document.text?
  | _ => none

/-- The shape of a production, or null. -/
def shapeOf? : Document → Option (Option Shape)
  | .null => some none
  | document => some <$> Shape.ofDocument? document

/-- The shapes under `schemas`. -/
def shapesOf? : Document → Option (NameMap (Option Shape))
  | .object raw => do
    let members ← Document.members? raw
    members.foldlM (fun shapes (name, document) => do
      return shapes.insert name (← shapeOf? document)) .empty
  | _ => none

/-- The registry that a document describes. -/
def ofDocument? : Document → Option Registry
  | .object raw => do
    let members ← Document.members? raw
    let order ← Document.single? "order" members
    let shapes ← Document.single? "schemas" members
    return ⟨← orderOf? (← order), ← shapesOf? (← shapes)⟩
  | .array [order, shapes] => do return ⟨← orderOf? order, ← shapesOf? shapes⟩
  | _ => none

/-- Reads a registry from JSON text. -/
def parse? (text : String) : Option Registry := (Document.parse? text).bind ofDocument?

end Registry

end Descent
