import Descent.Parser.Mono

/-!
# Loops without accumulators

The loops of `Step` carry the trees found so far. Here each loop is written as one round followed
by the same loop from an empty start, with the tree of the round put in front of what the loop
answers. Later proofs open a loop by these equations only.
-/

namespace Descent

namespace Result

/-- Puts trees (newest first) in front of the entries of a sequence. Any other result stays. -/
def behind (done : List Tree) (result : Result) : Result :=
  match result.tree with
  | .sequence entries => ⟨.sequence (done.reverse ++ entries), result.state⟩
  | _ => result

@[simp] theorem behind_sequence (done entries : List Tree) (state : State) :
    behind done ⟨.sequence entries, state⟩ = ⟨.sequence (done.reverse ++ entries), state⟩ := rfl

@[simp] theorem behind_failure (done : List Tree) (state : State) :
    behind done (.failure state) = .failure state := rfl

@[simp] theorem behind_state (done : List Tree) (result : Result) :
    (behind done result).state = result.state := by
  obtain ⟨tree, state⟩ := result
  cases tree <;> rfl

theorem behind_behind (done : List Tree) (tree : Tree) (result : Result) :
    behind done (behind [tree] result) = behind (tree :: done) result := by
  obtain ⟨outcome, state⟩ := result
  cases outcome <;> simp [behind]

@[simp] theorem isFailed_failure (state : State) : (failure state).isFailed = true := rfl

@[simp] theorem isFailed_mk (tree : Tree) (state : State) :
    (⟨tree, state⟩ : Result).isFailed = tree.isFailed := rfl

theorem isFailed_iff {result : Result} : result.isFailed = true ↔ result.tree = .failed := by
  simp [isFailed]

theorem eq_failure {result : Result} (h : result.isFailed = true) :
    result = ⟨.failed, result.state⟩ := by
  obtain ⟨tree, state⟩ := result
  have same : tree = .failed := isFailed_iff.mp h
  rw [same]

end Result

namespace Step

open Result

theorem sequenceFrom_eq (done : List Tree) (steps : List Step) (state : State) :
    sequenceFrom done steps state = (sequence steps state).map (behind done) := by
  induction steps generalizing done state with
  | nil => simp [sequence, sequenceFrom]
  | cons step rest ih =>
    simp only [sequence, sequenceFrom]
    cases step state with
    | none => rfl
    | some result =>
      simp only [Option.bind_eq_bind, Option.bind_some]
      split
      · rfl
      · rw [ih, ih [result.tree], Option.map_map]
        exact congrFun (congrArg _ (funext fun later => (behind_behind _ _ later).symm)) _

/-- A sequence runs its first part, then the others behind its tree. -/
theorem sequence_cons (step : Step) (rest : List Step) (state : State) :
    sequence (step :: rest) state = (step state).bind fun result =>
      if result.isFailed then some (.failure result.state)
      else (sequence rest result.state).map (behind [result.tree]) := by
  simp only [sequence, sequenceFrom, Option.bind_eq_bind]
  congr 1
  funext result
  split
  · rfl
  · exact sequenceFrom_eq _ _ _

/-- A choice passes over the alternatives that fail and keeps the states in which they did. -/
theorem choiceFrom_refused {α : Type} {run : α → Step} {refused : List (α × State)} {state : State}
    (failures : ∀ attempt ∈ refused, run attempt.1 state = some (.failure attempt.2))
    (ends : List State) (rest : List Step) :
    choiceFrom ends ((refused.map Prod.fst).map run ++ rest) state =
      choiceFrom ((refused.map Prod.snd).reverse ++ ends) rest state := by
  induction refused generalizing ends with
  | nil => rfl
  | cons attempt refused ih =>
    have first := failures attempt List.mem_cons_self
    have others := ih fun attempt mem => failures attempt (List.mem_cons_of_mem _ mem)
    simp only [List.map_cons, List.cons_append, choiceFrom, first, Option.bind_eq_bind,
      Option.bind_some, isFailed_failure, if_true, others, List.reverse_cons, List.append_assoc,
      List.nil_append]
    rfl

theorem manyFrom_eq (step : Step) (bound : Nat) (done : List Tree) (state : State) :
    manyFrom step bound done state = (many bound step state).map (behind done) := by
  induction bound generalizing done state with
  | zero => rfl
  | succ bound ih =>
    simp only [many, manyFrom]
    cases step state with
    | none => rfl
    | some result =>
      simp only [Option.bind_eq_bind, Option.bind_some]
      split
      · simp
      · rw [ih, ih [result.tree], Option.map_map]
        exact congrFun (congrArg _ (funext fun later => (behind_behind _ _ later).symm)) _

/-- A repetition ends with a round that fails or stays, or goes on behind the tree of the round. -/
theorem many_succ (bound : Nat) (step : Step) (state : State) :
    many (bound + 1) step state = (step state).bind fun result =>
      if result.isFailed || result.state.position = state.position then
        some ⟨.sequence [], state⟩
      else (many bound step result.state).map (behind [result.tree]) := by
  simp only [many, manyFrom, Option.bind_eq_bind]
  congr 1
  funext result
  split
  · rfl
  · exact manyFrom_eq _ _ _ _

theorem many1_eq (bound : Nat) (step : Step) (state : State) :
    many1 bound step state = (step state).bind fun result =>
      if result.isFailed then some (.failure result.state)
      else (many bound step result.state).map (behind [result.tree]) := by
  simp only [many1, Option.bind_eq_bind]
  congr 1
  funext result
  split
  · rfl
  · exact manyFrom_eq _ _ _ _

theorem separatedFrom_eq (element delimiter : Step) (bound : Nat) (required : Bool)
    (done : List Tree) (state : State) :
    separatedFrom element delimiter bound required done state =
      (separated bound required element delimiter state).map (behind done) := by
  induction bound generalizing required done state with
  | zero => rfl
  | succ bound ih =>
    simp only [separated, separatedFrom]
    cases element state with
    | none => rfl
    | some next =>
      simp only [Option.bind_eq_bind, Option.bind_some]
      split
      · cases required <;> simp
      · cases delimiter next.state with
        | none => rfl
        | some mark =>
          simp only [Option.bind_some]
          split
          · simp
          · split
            · simp
            · rw [ih, ih _ [next.tree], Option.map_map]
              exact congrFun (congrArg _ (funext fun later => (behind_behind _ _ later).symm)) _

/-- A list ends without an element, or has one and ends without a delimiter, or ends because the
round stayed where it was, or goes on behind the element. -/
theorem separated_succ (bound : Nat) (required : Bool) (element delimiter : Step)
    (state : State) :
    separated (bound + 1) required element delimiter state = (element state).bind fun next =>
      if next.isFailed then
        some (if required then .failure next.state else ⟨.sequence [], state⟩)
      else (delimiter next.state).bind fun mark =>
        if mark.isFailed then some ⟨.sequence [next.tree], next.state⟩
        else if mark.state.position = state.position then
          some ⟨.sequence [next.tree], mark.state⟩
        else (separated bound false element delimiter mark.state).map (behind [next.tree]) := by
  simp only [separated, separatedFrom, Option.bind_eq_bind]
  congr 1
  funext next
  split
  · rfl
  · congr 1
    funext mark
    split
    · rfl
    · split
      · rfl
      · exact separatedFrom_eq _ _ _ _ _ _

end Step

end Descent
