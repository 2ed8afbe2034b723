import Descent.Diagnostic.Log
import Descent.Token.Stream

/-!
# Parse states

A state is a position in the input together with everything reported so far. Operations make
new states, so going back is a matter of keeping an old one: `rewindTo` takes the position of
another state, `withLogOf` takes its log.

The input is any function from positions to tokens. It answers past the end too.
-/

namespace Descent

/-- Where a parse stands and what it has reported. -/
structure State where
  input : Nat → Token
  position : Nat
  log : Log

namespace State

/-- The start of an input, with nothing reported. -/
def start (input : Nat → Token) : State := ⟨input, 0, .empty⟩

/-- The token at the position. -/
def peek (state : State) : Token := state.input state.position

/-- The token before the position, if there is one. -/
def last? (state : State) : Option Token :=
  match state.position with
  | 0 => none
  | position + 1 => some (state.input position)

def atEnd (state : State) : Bool := state.peek.isEnd

/-- Consumes the token at the position. -/
def advance (state : State) : State := { state with position := state.position + 1 }

/-- Records a problem at a token. -/
def report (state : State) (token : Token) (problem : Problem) : State :=
  { state with log := state.log.push ⟨token, problem⟩ }

/-- Records everything that `other` has reported, after what `state` has. -/
def reportAllOf (state other : State) : State := { state with log := state.log ++ other.log }

/-- The position of `other` with the log of `state`. -/
def rewindTo (state other : State) : State := { state with position := other.position }

/-- The log of `other` at the position of `state`. -/
def withLogOf (state other : State) : State := { state with log := other.log }

/-- The start of the same input. -/
def restart (state : State) : State := start state.input

@[simp] theorem advance_input (state : State) : state.advance.input = state.input := rfl

@[simp] theorem advance_position (state : State) :
    state.advance.position = state.position + 1 := rfl

@[simp] theorem advance_log (state : State) : state.advance.log = state.log := rfl

@[simp] theorem report_input (state : State) (token : Token) (problem : Problem) :
    (state.report token problem).input = state.input := rfl

@[simp] theorem report_position (state : State) (token : Token) (problem : Problem) :
    (state.report token problem).position = state.position := rfl

@[simp] theorem report_log (state : State) (token : Token) (problem : Problem) :
    (state.report token problem).log = state.log.push ⟨token, problem⟩ := rfl

@[simp] theorem reportAllOf_log (state other : State) :
    (state.reportAllOf other).log = state.log ++ other.log := rfl

@[simp] theorem rewindTo_position (state other : State) :
    (state.rewindTo other).position = other.position := rfl

@[simp] theorem rewindTo_log (state other : State) :
    (state.rewindTo other).log = state.log := rfl

@[simp] theorem rewindTo_input (state other : State) :
    (state.rewindTo other).input = state.input := rfl

@[simp] theorem withLogOf_position (state other : State) :
    (state.withLogOf other).position = state.position := rfl

@[simp] theorem withLogOf_log (state other : State) :
    (state.withLogOf other).log = other.log := rfl

@[simp] theorem withLogOf_input (state other : State) :
    (state.withLogOf other).input = state.input := rfl

end State

end Descent
