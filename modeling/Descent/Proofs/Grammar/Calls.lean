import Descent.Grammar
import Mathlib.Data.List.Basic

/-!
# Calls of a draft

A draft is made by calls, in any order: rules are declared in it or made outside it, productions are
made, and rules are defined or bound. `Reached` gives the drafts that calls can lead to. What they
come to is told by the calls alone: the names of the rules, which of them belong to the grammar, what
was to be entered into the registry, and the bodies that rules were to be bound to.
-/

namespace Descent.Draft

/-- What can be done with a draft and its rules. -/
inductive Call where
  /-- Declares a rule of the grammar. -/
  | declare (name : String)
  /-- Makes a rule that is not part of the grammar. -/
  | declareOutside (name : String)
  | production (name : String) (shape : Option Shape) (body : Parser)
  | define (id : RuleId) (shape : Option Shape) (body : Parser)
  | bind (id : RuleId) (body : Parser)

namespace Call

/-- The rule that the call is about. -/
def target? : Call → Option RuleId
  | define id _ _ | bind id _ => some id
  | _ => none

/-- The name of the rule that the call makes, and whether it belongs to the grammar. -/
def made? : Call → Option (String × Bool)
  | declare name => some (name, true)
  | declareOutside name => some (name, false)
  | _ => none

/-- What the call enters into the registry, given the names of rules. -/
def entered? (nameOf : RuleId → String) : Call → Option (String × Option Shape)
  | production name shape _ => some (name, shape)
  | define id shape _ => some (nameOf id, shape)
  | _ => none

/-- The body that the call has for a rule, given the names of rules. -/
def binding? (nameOf : RuleId → String) : Call → Option (RuleId × Parser)
  | define id _ body => some (id, .production (nameOf id) body)
  | bind id body => some (id, body)
  | _ => none

variable {call : Call} {nameOf nameOf' : RuleId → String}

/-- Only the name of the rule that a call is about matters to it. -/
theorem entered?_congr (same : ∀ id ∈ call.target?, nameOf id = nameOf' id) :
    call.entered? nameOf = call.entered? nameOf' := by
  cases call with
  | define id shape body => rw [entered?, entered?, same id rfl]
  | _ => rfl

theorem binding?_congr (same : ∀ id ∈ call.target?, nameOf id = nameOf' id) :
    call.binding? nameOf = call.binding? nameOf' := by
  cases call with
  | define id shape body => rw [binding?, binding?, same id rfl]
  | _ => rfl

theorem target?_of_binding? {binding : RuleId × Parser} (h : call.binding? nameOf = some binding) :
    call.target? = some binding.1 := by
  cases call with
  | define | bind =>
    obtain rfl := Option.some.inj h
    rfl
  | _ => cases h

end Call

/-- The answer to a call, and the draft behind it. -/
def perform (draft : Draft) : Call → Except GrammarError Unit × Draft
  | .declare name => (.ok (), (draft.declare name).2)
  | .declareOutside name => (.ok (), (draft.declareOutside name).2)
  | .production name shape body => (.ok (), (draft.production name shape body).2)
  | .define id shape body => draft.define id shape body
  | .bind id body => draft.bind id body

/-- The calls lead from an empty draft to this one. A call is about a rule that was made before. -/
inductive Reached (name : String) : List Call → Draft → Prop where
  | start : Reached name [] (.start name .empty)
  | next {calls draft} (before : Reached name calls draft) (call : Call)
      (known : ∀ id ∈ call.target?, id < draft.rules.size) :
      Reached name (calls ++ [call]) (draft.perform call).2

/-! ## What calls come to -/

/-- The rules that were made, in order: the name of each, and whether it belongs to the grammar. -/
def madeIn (calls : List Call) : List (String × Bool) := calls.filterMap Call.made?

/-- The name of a rule. -/
def nameIn (calls : List Call) (id : RuleId) : String :=
  ((madeIn calls)[id]?.map Prod.fst).getD ""

/-- The rules of the grammar, in the order of their declaration. -/
def declaredIn (calls : List Call) : List RuleId :=
  (madeIn calls).zipIdx.filterMap fun rule => if rule.1.2 then some rule.2 else none

/-- All productions that were made, in order. -/
def enteredIn (calls : List Call) : List (String × Option Shape) :=
  calls.filterMap (Call.entered? (nameIn calls))

/-- The names of all productions that were made, in order. -/
def producedIn (calls : List Call) : List String := (enteredIn calls).map Prod.fst

/-- The body that a rule was bound to first. -/
def bodyIn (calls : List Call) (id : RuleId) : Option Parser :=
  (calls.filterMap (Call.binding? (nameIn calls))).lookup id

section History

variable {calls more : List Call} {call : Call} {id : RuleId}

theorem filterMap_singleton {α β : Type} (f : α → Option β) (item : α) :
    [item].filterMap f = (f item).toList := by
  cases added : f item <;> simp [added]

theorem madeIn_append : madeIn (calls ++ more) = madeIn calls ++ madeIn more :=
  List.filterMap_append

theorem madeIn_concat : madeIn (calls ++ [call]) = madeIn calls ++ call.made?.toList := by
  rw [madeIn_append, ← filterMap_singleton, ← madeIn]

/-- Rules keep their names. -/
theorem nameIn_append_of_lt (inside : id < (madeIn calls).length) :
    nameIn (calls ++ more) id = nameIn calls id := by
  rw [nameIn, madeIn_append, List.getElem?_append_left inside, nameIn]

theorem nameIn_concat :
    nameIn (calls ++ [call]) id =
      if id = (madeIn calls).length then (call.made?.map Prod.fst).getD "" else nameIn calls id := by
  split
  next new =>
    rw [nameIn, madeIn_concat, new, List.getElem?_append_right (Nat.le_refl _), Nat.sub_self]
    cases call.made? <;> rfl
  next old =>
    rcases Nat.lt_or_gt_of_ne old with inside | outside
    · exact nameIn_append_of_lt inside
    · have few : call.made?.toList.length ≤ 1 := by
        cases call.made? <;> simp
      have beyond : (madeIn (calls ++ [call])).length ≤ id := by
        rw [madeIn_concat, List.length_append]
        omega
      rw [nameIn, List.getElem?_eq_none beyond, nameIn,
        List.getElem?_eq_none (Nat.le_of_lt outside)]

theorem declaredIn_concat :
    declaredIn (calls ++ [call]) =
      declaredIn calls ++ if call.made?.any Prod.snd then [(madeIn calls).length] else [] := by
  rw [declaredIn, madeIn_concat, List.zipIdx_append, List.filterMap_append, declaredIn]
  congr 1
  cases made : call.made? with
  | none => simp
  | some rule => cases grammar : rule.2 <;> simp [grammar]

/-- All calls are about rules that were made. -/
def Known (calls : List Call) : Prop :=
  ∀ call ∈ calls, ∀ id ∈ call.target?, id < (madeIn calls).length

theorem enteredIn_append (known : Known calls) :
    enteredIn (calls ++ more) =
      enteredIn calls ++ more.filterMap (Call.entered? (nameIn (calls ++ more))) := by
  have same : calls.filterMap (Call.entered? (nameIn (calls ++ more))) = enteredIn calls := by
    apply List.filterMap_congr
    intro earlier mem
    exact Call.entered?_congr fun id target => nameIn_append_of_lt (known earlier mem id target)
  rw [enteredIn, List.filterMap_append, same]

theorem enteredIn_concat (known : Known calls) :
    enteredIn (calls ++ [call]) =
      enteredIn calls ++ (call.entered? (nameIn (calls ++ [call]))).toList := by
  rw [enteredIn_append known, filterMap_singleton]

/-- Bodies that come later do not count. -/
theorem bodyIn_append (known : Known calls) :
    bodyIn (calls ++ more) id =
      (bodyIn calls id).or
        ((more.filterMap (Call.binding? (nameIn (calls ++ more)))).lookup id) := by
  have same : calls.filterMap (Call.binding? (nameIn (calls ++ more))) =
      calls.filterMap (Call.binding? (nameIn calls)) := by
    apply List.filterMap_congr
    intro earlier mem
    exact Call.binding?_congr fun id target => nameIn_append_of_lt (known earlier mem id target)
  rw [bodyIn, List.filterMap_append, List.lookup_append, same, bodyIn]

theorem bodyIn_concat (known : Known calls) :
    bodyIn (calls ++ [call]) id =
      (bodyIn calls id).or ((call.binding? (nameIn (calls ++ [call]))).toList.lookup id) := by
  rw [bodyIn_append known, filterMap_singleton]

end History

end Descent.Draft
