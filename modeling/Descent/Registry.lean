import Descent.NameMap
import Descent.Rules

/-!
# Registry of productions

A grammar keeps a registry of its productions for programs that generate code from it: the names
in the order of their declaration, and the shape of what each production stands for, where one was
declared.
-/

namespace Descent

/-- The shape of the values that a production stands for. -/
inductive Shape where
  | integer
  | string
  | boolean
  | list
  | mapping
  /-- A type that the reader of the registry knows by name. -/
  | reference (name : String)
deriving DecidableEq, Repr

/-- The productions of a grammar. -/
structure Registry where
  order : List String
  shapes : NameMap (Option Shape)
deriving DecidableEq

namespace Registry

def empty : Registry := ⟨[], .empty⟩

instance : Inhabited Registry := ⟨empty⟩

def contains (registry : Registry) (name : String) : Bool := registry.shapes.contains name

/-- The shape of a production, if it has one. -/
def shape? (registry : Registry) (name : String) : Option Shape :=
  (registry.shapes.find? name).join

/-- Names and shapes in the order of declaration. -/
def entries (registry : Registry) : List (String × Option Shape) :=
  registry.order.map fun name => (name, registry.shape? name)

def size (registry : Registry) : Nat := registry.order.length

def isEmpty (registry : Registry) : Bool := registry.order.isEmpty

/-- Adds a production. A name is given once. -/
def register (registry : Registry) (name : String) (shape : Option Shape) :
    Except GrammarError Registry :=
  if registry.contains name then .error (.duplicateProduction name)
  else .ok ⟨registry.order ++ [name], registry.shapes.insert name shape⟩

end Registry

end Descent
