import Descent.Proofs.Evaluation.Runs
import Descent.Proofs.Tree.Flattening

/-!
# Grouping

A production holds its children in one level, so it does not show how its parts were grouped into
sequences. A part that fails inside a group ends the production as it does outside, and a failure
that a custom step hides in its tree is found in a group as well.

A sequence carries the trees of the parts behind it. What a production makes of it depends only on
their flat form, which is the same for the trees of a group and for the group as one tree.
-/

namespace Descent

namespace Tree

/-- A group at the end has the flat form of its entries. -/
theorem flatten_group (before group : List Tree) :
    flatten (before ++ [.sequence group]) = flatten (before ++ group) := by
  have alone : flatten [.sequence group] = flatten group := by
    rw [flatten, leaves, flatten]
    cases flatten group <;> simp [bind, Except.bind, pure, Except.pure]
  rw [flatten_append, flatten_append, alone]

/-- Lists of one flat form still have one when more entries follow. -/
theorem flatten_append_congr {front front' : List Tree} (same : flatten front = flatten front')
    (back : List Tree) : flatten (front ++ back) = flatten (front' ++ back) := by
  rw [flatten_append, flatten_append, same]

end Tree

namespace Result

/-- What a production makes of the result of its content. -/
def produced (name : String) (result : Result) : Result :=
  if result.isFailed then .failure result.state
  else match Step.children result.tree with
    | .ok children => ⟨.production name children, result.state⟩
    | .error reason => result.state.reject (.malformedTree name reason.message)

/-- Only the flat form of a sequence matters. -/
theorem produced_sequence_congr (name : String) {entries others : List Tree} (state : State)
    (same : Tree.flatten entries = Tree.flatten others) :
    produced name ⟨.sequence entries, state⟩ = produced name ⟨.sequence others, state⟩ := by
  have level : Step.children (.sequence entries) = Step.children (.sequence others) := same
  simp only [produced, level]
  rfl

end Result

namespace Step

open Result

variable {name : String} {done others : List Tree} {state : State}

theorem production_eq_map (name : String) (step : Step) (state : State) :
    production name step state = (step state).map (produced name) := by
  cases ran : step state with
  | none => simp [production, ran]
  | some result =>
    simp only [production, ran, produced, Option.bind_eq_bind, Option.bind_some, Option.map_some]
    split
    · rfl
    · cases children result.tree <;> rfl

/-- What a production makes of a sequence depends only on the flat form of the trees that the
sequence has so far. -/
theorem sequenceFrom_congr (steps : List Step)
    (same : Tree.flatten done.reverse = Tree.flatten others.reverse) :
    (sequenceFrom done steps state).map (produced name) =
      (sequenceFrom others steps state).map (produced name) := by
  induction steps generalizing done others state with
  | nil => exact congrArg some (produced_sequence_congr name state same)
  | cons step steps ih =>
    simp only [sequenceFrom]
    cases step state with
    | none => rfl
    | some result =>
      simp only [Option.bind_eq_bind, Option.bind_some]
      split
      · rfl
      · apply ih
        rw [List.reverse_cons, List.reverse_cons]
        exact Tree.flatten_append_congr same _

/-- A group that is running, with its own trees so far, goes on as its parts do behind the trees
before the group. -/
theorem sequenceFrom_group (group : List Tree) (inner after : List Step) :
    ((sequenceFrom group inner state).bind fun result =>
      if result.isFailed then some (.failure result.state)
      else sequenceFrom (result.tree :: done) after result.state).map (produced name) =
    (sequenceFrom (group ++ done) (inner ++ after) state).map (produced name) := by
  induction inner generalizing group state with
  | nil =>
    apply sequenceFrom_congr
    rw [List.reverse_cons, List.reverse_append]
    exact Tree.flatten_group _ _
  | cons step inner ih =>
    simp only [List.cons_append, sequenceFrom]
    cases step state with
    | none => rfl
    | some result =>
      simp only [Option.bind_eq_bind, Option.bind_some]
      split
      · rfl
      · exact ih (result.tree :: group)

/-- A production does not tell a group among the parts that are left from the parts of the group. -/
theorem sequenceFrom_ungroup (before inner after : List Step) :
    (sequenceFrom done (before ++ sequence inner :: after) state).map (produced name) =
      (sequenceFrom done (before ++ (inner ++ after)) state).map (produced name) := by
  induction before generalizing done state with
  | nil => exact sequenceFrom_group [] inner after
  | cons step before ih =>
    simp only [List.cons_append, sequenceFrom]
    cases step state with
    | none => rfl
    | some result =>
      simp only [Option.bind_eq_bind, Option.bind_some]
      split
      · rfl
      · exact ih

theorem production_sequence_group (name : String) (before inner after : List Step) :
    production name (sequence (before ++ sequence inner :: after)) =
      production name (sequence (before ++ (inner ++ after))) := by
  funext start
  rw [production_eq_map, production_eq_map]
  exact sequenceFrom_ungroup before inner after

end Step

namespace Parser

/-- A production does not see how the parts of a sequence were grouped, whatever these parts are. It
answers alike with a group and with the parts of the group in its place, in tree, position and
reports, and runs that do not end do so in both forms. -/
theorem production_ignores_grouping (table : RuleTable) (name : String)
    (before inner after : List Parser) (state : State) (result : Result) :
    (production name (sequence (before ++ [sequence inner] ++ after))).Runs table state result ↔
      (production name (sequence (before ++ inner ++ after))).Runs table state result := by
  have same : ∀ bound,
      (production name (sequence (before ++ [sequence inner] ++ after))).run table bound =
        (production name (sequence (before ++ inner ++ after))).run table bound := by
    intro bound
    simp only [run_production, run_sequence, List.map_append, List.map_cons, List.append_assoc,
      List.singleton_append, Step.production_sequence_group]
  simp only [Runs, same]

end Parser

end Descent
