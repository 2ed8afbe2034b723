import Descent.Json.Grammar
import Descent.Proofs.Tree.Tokens

/-!
# The language of JSON

`Derives` gives the words of the grammar together with their trees, apart from any parser. It
follows the grammar rule by rule; the part between two brackets, an optional list with an optional
comma behind it, is unrolled into `items` and `more`.

The first token of a word tells which alternative of a value it belongs to.
-/

namespace Descent

namespace Tree

/-- The result of a rule. -/
def IsProduction (tree : Tree) : Prop := ∃ name children, tree = .production name children

theorem IsProduction.success {tree : Tree} (h : tree.IsProduction) : tree ≠ .failed := by
  obtain ⟨_, _, rfl⟩ := h
  simp

theorem IsProduction.children {tree : Tree} (h : tree.IsProduction) :
    Step.children tree = .ok [tree] := by
  obtain ⟨_, _, rfl⟩ := h
  rfl

/-- Productions already stand in one level. -/
theorem flatten_productions {entries : List Tree} (h : ∀ tree ∈ entries, tree.IsProduction) :
    flatten entries = .ok entries := by
  induction entries with
  | nil => rfl
  | cons tree entries ih =>
    obtain ⟨⟨_, _, rfl⟩, others⟩ := List.forall_mem_cons.mp h
    rw [flatten, ih others]
    rfl

end Tree

namespace Json

/-- The rules for single tokens. -/
inductive Atom : Rule → TokenKind → Prop where
  | integer : Atom .integer integerKind
  | string : Atom .string stringKind
  | boolean : Atom .boolean booleanKind

/-- The rules for lists of elements in brackets. -/
inductive Brackets : Rule → (opening : Char) → (element : Rule) → (closing : Char) → Prop where
  | list : Brackets .list '[' .value ']'
  | dict : Brackets .dict '{' .field '}'

namespace Rule

/-- What a value can be. -/
def alternatives : List Rule := [integer, string, boolean, list, dict]

end Rule

/-- The parts of a document. -/
inductive Phrase where
  | rule (rule : Rule)
  /-- The elements between two brackets. -/
  | items (element : Rule)
  /-- What may follow an element between two brackets. -/
  | more (element : Rule)

/-- The words of each part, with the trees that they stand for. -/
inductive Derives : Phrase → List Token → List Tree → Prop where
  | atom {rule kind token} (shape : Atom rule kind) (found : token.kind = kind) :
      Derives (.rule rule) [token] [.production rule.name [.token token]]
  | brackets {rule opening element closing first last word entries}
      (shape : Brackets rule opening element closing) (opens : first.kind = .ofChar opening)
      (content : Derives (.items element) word entries) (closes : last.kind = .ofChar closing) :
      Derives (.rule rule) (first :: (word ++ [last]))
        [.production rule.name (.token first :: entries)]
  | field {word word' colon key value} (name : Derives (.rule .string) word [key])
      (between : colon.kind = .ofChar ':') (content : Derives (.rule .value) word' [value]) :
      Derives (.rule .field) (word ++ colon :: word')
        [.production "Field" [.labeled "key" key, .token colon, .labeled "value" value]]
  | value {alternative word tree} (mem : alternative ∈ Rule.alternatives)
      (content : Derives (.rule alternative) word [tree]) :
      Derives (.rule .value) word [.production "Value" [tree]]
  | none {element} : Derives (.items element) [] []
  | some {element word word' tree entries} (first : Derives (.rule element) word [tree])
      (rest : Derives (.more element) word' entries) :
      Derives (.items element) (word ++ word') (tree :: entries)
  | last {element} : Derives (.more element) [] []
  | trailing {element comma} (between : comma.kind = .ofChar ',') :
      Derives (.more element) [comma] []
  | next {element comma word word' tree entries} (between : comma.kind = .ofChar ',')
      (first : Derives (.rule element) word [tree])
      (rest : Derives (.more element) word' entries) :
      Derives (.more element) (comma :: (word ++ word')) (tree :: entries)

namespace Derives

/-- All trees of a derivation are productions. -/
theorem isProduction {phrase : Phrase} {word : List Token} {trees : List Tree}
    (h : Derives phrase word trees) : ∀ tree ∈ trees, tree.IsProduction := by
  induction h with
  | atom | brackets | field | value => exact List.forall_mem_singleton.mpr ⟨_, _, rfl⟩
  | none | last | trailing => exact fun _ mem => absurd mem List.not_mem_nil
  | some _ _ first rest | next _ _ _ first rest =>
    exact List.forall_mem_cons.mpr ⟨first _ List.mem_cons_self, rest⟩

theorem head_isProduction {phrase : Phrase} {word : List Token} {tree : Tree}
    (h : Derives phrase word [tree]) : tree.IsProduction :=
  h.isProduction tree List.mem_cons_self

/-- A comma and what may stand between brackets can follow an element. -/
theorem more_of_items {element : Rule} {comma : Token} {word : List Token} {trees : List Tree}
    (between : comma.kind = .ofChar ',') :
    Derives (.items element) word trees → Derives (.more element) (comma :: word) trees
  | .none => .trailing between
  | .some first rest => .next between first rest

end Derives

/-! ## First tokens -/

namespace Rule

/-- The kinds of the tokens with which the words of a rule begin. -/
def starters : Rule → List TokenKind
  | integer => [integerKind]
  | string => [stringKind]
  | boolean => [booleanKind]
  | list => [.ofChar '[']
  | dict => [.ofChar '{']
  | field => [stringKind]
  | value => [integerKind, stringKind, booleanKind, .ofChar '[', .ofChar '{']

theorem starters_subset_value {rule : Rule} (mem : rule ∈ alternatives) :
    rule.starters ⊆ value.starters := by
  simp only [alternatives, List.mem_cons, List.not_mem_nil, or_false] at mem
  rcases mem with rfl | rfl | rfl | rfl | rfl <;> decide

theorem end_not_starter (rule : Rule) : .endOfInput ∉ rule.starters := by
  cases rule <;> decide

end Rule

section Brackets

variable {rule element : Rule} {opening closing : Char}

theorem Brackets.mem_alternatives (shape : Brackets rule opening element closing) :
    rule ∈ Rule.alternatives := by
  cases shape <;> decide

/-- An opening bracket begins no other alternative. -/
theorem Brackets.begins_only (shape : Brackets rule opening element closing) :
    ∀ other ∈ Rule.alternatives, other ≠ rule → .ofChar opening ∉ other.starters := by
  cases shape <;> decide

end Brackets

/-- Every word of a rule begins with one of its starters. -/
theorem Derives.starts {rule : Rule} {word : List Token} {trees : List Tree} :
    Derives (.rule rule) word trees →
      ∃ first rest, word = first :: rest ∧ first.kind ∈ rule.starters
  | .atom shape found => by
    cases shape <;> exact ⟨_, _, rfl, by simp [Rule.starters, found]⟩
  | .brackets shape opens _ _ => by
    cases shape <;> exact ⟨_, _, rfl, by simp [Rule.starters, opens]⟩
  | .field name _ _ => by
    obtain ⟨first, rest, rfl, starts⟩ := name.starts
    exact ⟨first, _, rfl, starts⟩
  | .value mem content => by
    obtain ⟨first, rest, rfl, starts⟩ := content.starts
    exact ⟨first, rest, rfl, Rule.starters_subset_value mem starts⟩

end Json

end Descent
