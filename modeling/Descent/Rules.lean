import Descent.Parser

/-!
# Rules

A rule is a name that can be used in parsers before it has a body. A table holds the rules of a
grammar under their numbers. Each rule is bound at most once, and a bound rule keeps its body.
-/

namespace Descent

/-- What can be wrong with the declarations of a grammar. -/
inductive GrammarError where
  | alreadyBound (rule : String)
  | neverBound (rule : String)
  | duplicateProduction (name : String)
deriving DecidableEq, Repr

def GrammarError.message : GrammarError → String
  | .alreadyBound rule => "rule '" ++ rule ++ "' is already bound"
  | .neverBound rule => "rule '" ++ rule ++ "' was declared but never bound"
  | .duplicateProduction name => "production '" ++ name ++ "' is declared more than once"

/-- A name with a body, once there is one. -/
structure Rule where
  name : String
  body : Option Parser

def Rule.isBound (rule : Rule) : Bool := rule.body.isSome

/-- Rules in the order of their declaration. A rule's number is its place. -/
structure RuleTable where
  rules : List Rule

namespace RuleTable

def empty : RuleTable := ⟨[]⟩

instance : Inhabited RuleTable := ⟨empty⟩

/-- The number that the next declaration gets. -/
def size (table : RuleTable) : Nat := table.rules.length

/-- The rule with a number. Numbers that were never given stand for a nameless rule without a
body. -/
def rule (table : RuleTable) (id : RuleId) : Rule :=
  table.rules[id]?.getD ⟨"", none⟩

/-- Adds a rule without a body. -/
def declare (table : RuleTable) (name : String) : RuleId × RuleTable :=
  (table.size, ⟨table.rules ++ [⟨name, none⟩]⟩)

/-- Gives a rule its body, unless it has one. -/
def bind (table : RuleTable) (id : RuleId) (body : Parser) : Except GrammarError RuleTable :=
  let rule := table.rule id
  if rule.isBound then .error (.alreadyBound rule.name)
  else .ok ⟨table.rules.set id { rule with body := some body }⟩

@[simp] theorem rule_declare_self (table : RuleTable) (name : String) :
    (table.declare name).2.rule (table.declare name).1 = ⟨name, none⟩ := by
  simp [declare, rule, size]

theorem rule_declare_of_lt {table : RuleTable} {id : RuleId} (name : String)
    (h : id < table.size) : (table.declare name).2.rule id = table.rule id := by
  simp only [declare, rule]
  rw [List.getElem?_append_left h]

end RuleTable

end Descent
