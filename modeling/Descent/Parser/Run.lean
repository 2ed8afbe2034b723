import Descent.Rules
import Descent.Token.Stream

/-!
# Running parsers

`Parser.step` gives an expression its step, given what rules do and how often a loop may iterate.
It follows the expression, and looks at a part only when the part is run; a part that occurs many
times costs nothing where it is not reached.

Rules make expressions recursive, so `Parser.run` counts down a bound at every use of a rule and
answers `none` at zero. The same bound limits the iterations of a loop. A larger bound never
changes an answer, and `Parser.Runs` speaks of the answer without it.

`Parser.bound` is meant for runs over a stream. On the way down a rule that comes back to a
position goes on forever, and a loop leaves a position with every iteration; so the number of
rules, taken once per position, bounds a run that ends. Which positions count depends on the
parts. The combinators act alike at all positions past the end of a stream, but custom steps may
lead to differences, and then the reach of the run has to say how far. A long reach costs nothing
by itself.
-/

namespace Descent

namespace Recovery

/-- Whether the answer to a failure sees the reports of the attempt. -/
def keepsReports : Recovery → Bool
  | .fail => true
  | .backtrack => false
  | .skipPast _ => true
  | .custom keepReports _ => keepReports

/-- The answer to a failed attempt, from the states before and after it. -/
def answer (bound : Nat) : Recovery → State → State → Option Result
  | .fail, _, stop => some (.failure stop)
  | .backtrack, start, _ => some ⟨.nothing, start⟩
  | .skipPast kind, _, stop => (stop.skipPast kind bound).map (⟨.nothing, ·⟩)
  | .custom _ action, start, stop => action start stop

end Recovery

namespace Parser

mutual

/-- The step of an expression, where `call` runs rules and loops iterate at most `bound` times. -/
def step (call : RuleId → Step) (bound : Nat) : Parser → Step
  | token kind, state => Step.token kind state
  | sequence parts, state => Step.sequence (steps call bound parts) state
  | choice alternatives, state => Step.choice (steps call bound alternatives) state
  | lookahead body, state => Step.lookahead (step call bound body) state
  | recover recovery body, state =>
    Step.recover recovery.keepsReports (recovery.answer bound) (step call bound body) state
  | many body, state => Step.many bound (step call bound body) state
  | many1 body, state => Step.many1 bound (step call bound body) state
  | separated required element delimiter, state =>
    Step.separated bound required (step call bound element) (step call bound delimiter) state
  | terminated body terminator, state =>
    Step.terminated (step call bound body) (step call bound terminator) state
  | production name body, state => Step.production name (step call bound body) state
  | labeled name body, state => Step.labeled name (step call bound body) state
  | rule id, state => call id state
  | custom step, state => step state

/-- The steps of several expressions. -/
def steps (call : RuleId → Step) (bound : Nat) : List Parser → List Step
  | [] => []
  | parser :: rest => (fun state => step call bound parser state) :: steps call bound rest

end

/-- What a rule does, where `body` runs its body. -/
def call (table : RuleTable) (body : Parser → Step) (id : RuleId) : Step :=
  let rule := table.rule id
  match rule.body with
  | some parser => body parser
  | none => .unbound rule.name

/-- The step of an expression, which answers if it finishes within the bound. -/
def run (table : RuleTable) : (bound : Nat) → Parser → Step
  | 0, parser => step (fun _ => .unfinished) 0 parser
  | bound + 1, parser => step (call table (run table bound)) (bound + 1) parser

/-- The answer of an expression at a state, within whatever bound it takes. -/
def Runs (table : RuleTable) (parser : Parser) (state : State) (result : Result) : Prop :=
  ∃ bound, parser.run table bound state = some result

/-- A bound for runs from `state` that act alike at all positions past `reach`. -/
def bound (table : RuleTable) (reach : Nat) (state : State) : Nat :=
  (table.size + 1) * (reach + state.position + 2)

/-- Runs an expression from a state, with the given reach. -/
def runFrom (table : RuleTable) (parser : Parser) (reach : Nat) (state : State) : Option Result :=
  parser.run table (bound table reach state) state

/-- Runs an expression on a stream from its start. The reach is the end of the stream. -/
def parse (table : RuleTable) (parser : Parser) (stream : TokenStream) : Option Result :=
  parser.runFrom table stream.size (.start stream.tokenAt)

end Parser

end Descent
