import Descent.Token

/-!
# Parse trees

Every parser answers with a tree of one shape. Two trees stand for outcomes without content:
`nothing` for a match of nothing and `failed` for a failure, which a diagnostic explains.

Productions hold their children in one level. `flatten` makes that level out of nested
sequences and refuses a failure among the entries.
-/

namespace Descent

/-- The outcome of running a parser. -/
inductive Tree where
  /-- Nothing matched, and nothing had to. -/
  | nothing
  /-- Nothing matched, and a problem was reported. -/
  | failed
  | token (t : Token)
  /-- The result of a named rule of a grammar. -/
  | production (name : String) (children : List Tree)
  /-- A result that its parent can be asked for by name, such as the key of a field. -/
  | labeled (name : String) (value : Tree)
  | sequence (entries : List Tree)
deriving Repr, Inhabited

namespace Tree

def isFailed : Tree → Bool
  | .failed => true
  | _ => false

def isNothing : Tree → Bool
  | .nothing => true
  | _ => false

def token? : Tree → Option Token
  | .token t => some t
  | _ => none

/-- The name and children of a production. -/
def production? : Tree → Option (String × List Tree)
  | .production name children => some (name, children)
  | _ => none

/-- The name and value of a labeled tree. -/
def labeled? : Tree → Option (String × Tree)
  | .labeled name value => some (name, value)
  | _ => none

def sequence? : Tree → Option (List Tree)
  | .sequence entries => some entries
  | _ => none

@[simp] theorem isFailed_iff {tree : Tree} : tree.isFailed = true ↔ tree = .failed := by
  cases tree <;> simp [isFailed]

/-! ## Equality -/

mutual

/-- Structural equality, the locations of tokens included. -/
def beq : Tree → Tree → Bool
  | .nothing, .nothing => true
  | .failed, .failed => true
  | .token a, .token b => a = b
  | .production name children, .production name' children' =>
    name = name' && beqEach children children'
  | .labeled name value, .labeled name' value' => name = name' && beq value value'
  | .sequence entries, .sequence entries' => beqEach entries entries'
  | _, _ => false

/-- Equality entry by entry. -/
def beqEach : List Tree → List Tree → Bool
  | [], [] => true
  | a :: as, b :: bs => beq a b && beqEach as bs
  | _, _ => false

end

mutual

theorem beq_iff_eq : ∀ a b : Tree, beq a b = true ↔ a = b
  | .nothing, b => by cases b <;> simp [beq]
  | .failed, b => by cases b <;> simp [beq]
  | .token _, b => by cases b <;> simp [beq]
  | .production _ children, b => by cases b <;> simp [beq, beqEach_iff_eq children]
  | .labeled _ value, b => by cases b <;> simp [beq, beq_iff_eq value]
  | .sequence entries, b => by cases b <;> simp [beq, beqEach_iff_eq entries]

theorem beqEach_iff_eq : ∀ as bs : List Tree, beqEach as bs = true ↔ as = bs
  | [], bs => by cases bs <;> simp [beqEach]
  | a :: as, bs => by cases bs <;> simp [beqEach, beq_iff_eq a, beqEach_iff_eq as]

end

instance : DecidableEq Tree := fun a b => decidable_of_iff _ (beq_iff_eq a b)

/-! ## Text -/

mutual

/-- The tree as text: productions and labels in brackets, the entries of a sequence side by
side. -/
def render : Tree → String
  | .nothing => "Nil"
  | .failed => "Err"
  | .token t => t.render
  | .production name children =>
    "(" ++ name ++ " " ++ String.intercalate " " (renderEach children) ++ ")"
  | .labeled name value => "(\"" ++ name ++ "\" " ++ value.render ++ ")"
  | .sequence entries => String.intercalate " " (renderEach entries)

/-- The texts of several trees. -/
def renderEach : List Tree → List String
  | [] => []
  | tree :: rest => tree.render :: renderEach rest

end

/-! ## Children -/

/-- Why a sequence has no flat form. -/
inductive FlattenError where
  /-- A failure stands among the entries. -/
  | embeddedFailure
deriving DecidableEq, Repr

def FlattenError.message : FlattenError → String
  | .embeddedFailure => "an error sentinel cannot appear inside a sequence"

mutual

/-- What a tree contributes to a flat sequence: a sequence its own entries, any other tree
itself. A failure has no place there. -/
def leaves : Tree → Except FlattenError (List Tree)
  | .failed => .error .embeddedFailure
  | .sequence entries => flatten entries
  | tree => .ok [tree]

/-- Puts nested sequences into one level, from left to right. -/
def flatten : List Tree → Except FlattenError (List Tree)
  | [] => .ok []
  | tree :: rest => do
    let front ← tree.leaves
    let back ← flatten rest
    return front ++ back

end

/-- Leaves out the tokens of the given kinds. Only the entries themselves are looked at. -/
def dropTokens (kinds : List TokenKind) (entries : List Tree) : List Tree :=
  entries.filter fun
    | .token t => !kinds.contains t.kind
    | _ => true

/-- The entries that are productions, each with its children. -/
def productions (entries : List Tree) : List (String × List Tree) :=
  entries.filterMap production?

/-- The value of the first entry labeled `name`. -/
def labeledValue? (name : String) (entries : List Tree) : Option Tree :=
  ((entries.filterMap labeled?).find? (·.1 = name)).map (·.2)

end Tree

end Descent
