import Descent.State
import Descent.Tree

/-!
# Steps

A step takes a state to a tree and the state to go on from. It answers `none` if it did not
finish; only loops and recursive rules can do that, and only because they were given too small
a bound on their iterations.

This module says what each combinator does with the steps of its parts. Two rules hold
throughout. A failed attempt that is given up leaves nothing behind, neither position nor
reports, because the state before it is kept. A loop ends when an iteration stays where it
began, so parts that match nothing cannot make it run forever.
-/

namespace Descent

/-- What a step answers. -/
structure Result where
  tree : Tree
  state : State

/-- One parser at work. -/
abbrev Step := State → Option Result

namespace Result

/-- A failure at a state that has the reason for it on its log. -/
def failure (state : State) : Result := ⟨.failed, state⟩

def isFailed (result : Result) : Bool := result.tree.isFailed

end Result

namespace State

/-- Fails where the state stands, for the given reason. -/
def reject (state : State) (problem : Problem) : Result :=
  .failure (state.report state.peek problem)

/-! ## Choice -/

/-- Of the ends of failed alternatives, the first that got as far as any. It is the start itself
if no alternative consumed anything. -/
def furthest (start : State) (ends : List State) : State :=
  ends.foldl (fun best stop => if best.position < stop.position then stop else best) start

/-- What the alternatives reported as wanted, each once, in the order of their reports. -/
def expectations (start : State) (ends : List State) : List String :=
  (ends.flatMap fun stop =>
    (stop.log.since start.log.size).flatMap fun diagnostic =>
      diagnostic.problem.expectations).eraseDups

/-- The failure of a choice whose alternatives all failed: that of the alternative that got
furthest, or a report at the start if none of them moved. -/
def exhausted (start : State) (ends : List State) : Result :=
  let stop := start.furthest ends
  if start.position < stop.position then .failure stop
  else start.reject (.noAlternative (start.expectations ends) start.peek.render)

/-! ## Resynchronisation -/

/-- Skips tokens up to and including the next one of the given kind. The end of the input is
never skipped. Gives up after `bound` tokens. -/
def skipPast (kind : TokenKind) : (bound : Nat) → State → Option State
  | 0, _ => none
  | bound + 1, state =>
    if state.atEnd then some state
    else if state.peek.kind = kind then some state.advance
    else skipPast kind bound state.advance

end State

namespace Step

/-- The step that never finishes. -/
def unfinished : Step := fun _ => none

/-- Consumes one token of the given kind, or reports that another one was found. -/
def token (kind : TokenKind) : Step := fun state =>
  let next := state.peek
  if next.kind = kind then some ⟨.token next, state.advance⟩
  else some (state.reject (.mismatch kind next))

/-- Reports the use of a rule that has no body. -/
def unbound (name : String) : Step := fun state => some (state.reject (.unboundRule name))

/-! ## Composition -/

/-- Runs the steps one after another, behind the trees in `done` (newest first). -/
def sequenceFrom (done : List Tree) : List Step → Step
  | [], state => some ⟨.sequence done.reverse, state⟩
  | step :: rest, state => do
    let result ← step state
    if result.isFailed then return .failure result.state
    sequenceFrom (result.tree :: done) rest result.state

/-- Runs every step in order. The first failure ends the run where it happened; what was
consumed before stays consumed. -/
def sequence (steps : List Step) : Step := sequenceFrom [] steps

/-- Tries the steps in order from one state, after the alternatives whose ends are in `ends`
(newest first) have failed. -/
def choiceFrom (ends : List State) : List Step → Step
  | [], start => some (start.exhausted ends.reverse)
  | step :: rest, start => do
    let result ← step start
    if result.isFailed then choiceFrom (result.state :: ends) rest start
    else return result

/-- Tries each step from the same state and keeps the first that does not fail. -/
def choice (steps : List Step) : Step := choiceFrom [] steps

/-- Runs a step without moving. Its reports stay. -/
def lookahead (step : Step) : Step := fun state => do
  let result ← step state
  return ⟨result.tree, result.state.rewindTo state⟩

/-! ## Repetition -/

/-- Repeats a step at most `bound` times, behind the trees in `done` (newest first). -/
def manyFrom (step : Step) : (bound : Nat) → (done : List Tree) → Step
  | 0, _, _ => none
  | bound + 1, done, state => do
    let result ← step state
    if result.isFailed || result.state.position = state.position then
      return ⟨.sequence done.reverse, state⟩
    manyFrom step bound (result.tree :: done) result.state

/-- Repeats a step as long as it succeeds and consumes. The attempt that ends the loop leaves
nothing behind. -/
def many (bound : Nat) (step : Step) : Step := manyFrom step bound []

/-- Like `many`, but the first attempt has to succeed. -/
def many1 (bound : Nat) (step : Step) : Step := fun state => do
  let first ← step state
  if first.isFailed then return .failure first.state
  manyFrom step bound [first.tree] first.state

/-- Elements between delimiters, behind the trees in `done` (newest first). While `required`
holds the next element may not be missing. -/
def separatedFrom (element delimiter : Step) :
    (bound : Nat) → (required : Bool) → (done : List Tree) → Step
  | 0, _, _, _ => none
  | bound + 1, required, done, state => do
    let next ← element state
    if next.isFailed then
      return if required then .failure next.state else ⟨.sequence done.reverse, state⟩
    let done := next.tree :: done
    let mark ← delimiter next.state
    if mark.isFailed then return ⟨.sequence done.reverse, next.state⟩
    if mark.state.position = state.position then return ⟨.sequence done.reverse, mark.state⟩
    separatedFrom element delimiter bound false done mark.state

/-- A list of elements with delimiters between them. A delimiter after the last element is
accepted and consumed. -/
def separated (bound : Nat) (required : Bool) (element delimiter : Step) : Step :=
  separatedFrom element delimiter bound required []

/-- Runs a step and then another one that has to succeed but adds nothing to the tree. -/
def terminated (body terminator : Step) : Step := fun state => do
  let result ← body state
  if result.isFailed then return .failure result.state
  let closing ← terminator result.state
  if closing.isFailed then return .failure closing.state
  return ⟨result.tree, closing.state⟩

/-! ## Productions -/

/-- The children that a result contributes to a production. -/
def children : Tree → Except Tree.FlattenError (List Tree)
  | .nothing => .ok []
  | .sequence entries => Tree.flatten entries
  | tree => .ok [tree]

/-- Makes the tree of a step the production `name`. A failure passes through. -/
def production (name : String) (step : Step) : Step := fun state => do
  let result ← step state
  if result.isFailed then return .failure result.state
  match children result.tree with
  | .ok children => return ⟨.production name children, result.state⟩
  | .error reason => return result.state.reject (.malformedTree name reason.message)

/-- Labels the tree of a step. A failure passes through. -/
def labeled (name : String) (step : Step) : Step := fun state => do
  let result ← step state
  if result.isFailed then return result
  return ⟨.labeled name result.tree, result.state⟩

/-! ## Recovery -/

/-- Runs a step and, if it fails, lets `action` answer from the states before and after the
attempt. Unless `keepReports` holds, the state after it comes without the reports of the
attempt. -/
def recover (keepReports : Bool) (action : State → State → Option Result) (step : Step) : Step :=
  fun start => do
    let result ← step start
    if result.isFailed then
      action start (if keepReports then result.state else result.state.withLogOf start)
    else return result

end Step

end Descent
