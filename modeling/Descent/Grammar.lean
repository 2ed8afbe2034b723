import Descent.Parser.Run
import Descent.Registry

/-!
# Grammars

A grammar is drafted step by step. Rules are declared before they are defined, so that they can
refer to each other; productions are entered into the registry as they are made. Problems with
production names wait until the draft is finished.

The rules of a draft live in a table that may hold other rules too, and rules can be bound without
the draft. A finished grammar knows only the rules that were declared in it.
-/

namespace Descent

/-- A grammar under construction. -/
structure Draft where
  name : String
  rules : RuleTable
  registry : Registry := .empty
  /-- The rules of the grammar, in the order of their declaration. -/
  declared : List RuleId := []
  /-- What went wrong with production names, in order. -/
  problems : List GrammarError := []

/-- A grammar whose rules are all bound and whose productions have names of their own. -/
structure Grammar where
  name : String
  rules : RuleTable
  registry : Registry
  declared : List RuleId

namespace Draft

/-- A draft without rules of its own, over a table of rules that it may use. -/
def start (name : String) (rules : RuleTable) : Draft := { name := name, rules := rules }

/-- Adds a rule to the grammar, to be defined later. -/
def declare (draft : Draft) (name : String) : RuleId × Draft :=
  let (id, rules) := draft.rules.declare name
  (id, { draft with rules := rules, declared := draft.declared ++ [id] })

/-- Adds a rule that is not part of the grammar. -/
def declareOutside (draft : Draft) (name : String) : RuleId × Draft :=
  let (id, rules) := draft.rules.declare name
  (id, { draft with rules := rules })

/-- Enters a production into the registry, or notes why that is not possible. -/
def enter (draft : Draft) (name : String) (shape : Option Shape) : Draft :=
  match draft.registry.register name shape with
  | .ok registry => { draft with registry := registry }
  | .error problem => { draft with problems := draft.problems ++ [problem] }

/-- Makes a production of the grammar. -/
def production (draft : Draft) (name : String) (shape : Option Shape) (body : Parser) :
    Parser × Draft :=
  (.production name body, draft.enter name shape)

/-- Gives a rule its body, unless it has one. -/
def bind (draft : Draft) (id : RuleId) (body : Parser) : Except GrammarError Unit × Draft :=
  match draft.rules.bind id body with
  | .ok rules => (.ok (), { draft with rules := rules })
  | .error problem => (.error problem, draft)

/-- Binds a rule to a production of the same name. The production is entered in any case. -/
def define (draft : Draft) (id : RuleId) (shape : Option Shape) (body : Parser) :
    Except GrammarError Unit × Draft :=
  let (production, entered) := draft.production (draft.rules.rule id).name shape body
  entered.bind id production

/-- The finished grammar. The first name that was used twice, or else the first rule that has
no body, is in the way. -/
def finish (draft : Draft) : Except GrammarError Grammar :=
  match draft.problems with
  | problem :: _ => .error problem
  | [] =>
    match draft.declared.find? fun id => !(draft.rules.rule id).isBound with
    | some id => .error (.neverBound (draft.rules.rule id).name)
    | none => .ok ⟨draft.name, draft.rules, draft.registry, draft.declared⟩

end Draft

namespace Grammar

/-- The rule of a name. Of several it is the one declared last. -/
def rule? (grammar : Grammar) (name : String) : Option RuleId :=
  (grammar.declared.filter fun id => (grammar.rules.rule id).name = name).getLast?

/-- Parses from a state with the given rule at the top. The reach is that of the run. -/
def parseFrom (grammar : Grammar) (id : RuleId) (reach : Nat) (state : State) : Option Result :=
  (Parser.root (.rule id)).runFrom grammar.rules reach state

/-- Parses a stream with the given rule at the top. The reach is the end of the stream. -/
def parse (grammar : Grammar) (id : RuleId) (stream : TokenStream) : Option Result :=
  (Parser.root (.rule id)).parse grammar.rules stream

end Grammar

end Descent
