import Descent.Proofs.Grammar.Calls
import Descent.Proofs.Grammar.Entering

/-!
# What drafts record

What one call does to the rules, the declarations and the registry of a draft; and from that, by
induction on the calls, what a draft knows after any number of them.
-/

namespace Descent.Draft

/-! ## The table of rules -/

section Table

variable {draft : Draft} {id other : RuleId} {name : String} {shape : Option Shape} {body : Parser}

@[simp] theorem enter_name : (draft.enter name shape).name = draft.name := by
  unfold enter
  split <;> rfl

@[simp] theorem enter_rules : (draft.enter name shape).rules = draft.rules := by
  unfold enter
  split <;> rfl

@[simp] theorem enter_declared : (draft.enter name shape).declared = draft.declared := by
  unfold enter
  split <;> rfl

theorem bind_eq :
    draft.bind id body =
      if (draft.rules.rule id).isBound then
        (.error (.alreadyBound (draft.rules.rule id).name), draft)
      else (.ok (), { draft with
        rules := ⟨draft.rules.rules.set id { draft.rules.rule id with body := some body }⟩ }) := by
  unfold bind RuleTable.bind
  by_cases bound : (draft.rules.rule id).isBound <;> simp [bound]

@[simp] theorem bind_name : (draft.bind id body).2.name = draft.name := by
  rw [bind_eq]
  split <;> rfl

@[simp] theorem bind_registry : (draft.bind id body).2.registry = draft.registry := by
  rw [bind_eq]
  split <;> rfl

@[simp] theorem bind_declared : (draft.bind id body).2.declared = draft.declared := by
  rw [bind_eq]
  split <;> rfl

@[simp] theorem bind_problems : (draft.bind id body).2.problems = draft.problems := by
  rw [bind_eq]
  split <;> rfl

/-- A rule is bound unless it is already. -/
theorem bind_answer :
    (draft.bind id body).1 =
      if (draft.rules.rule id).isBound then .error (.alreadyBound (draft.rules.rule id).name)
      else .ok () := by
  rw [bind_eq]
  split <;> rfl

@[simp] theorem bind_size : (draft.bind id body).2.rules.size = draft.rules.size := by
  rw [bind_eq]
  split
  · rfl
  · exact List.length_set

theorem rule_set {table : RuleTable} {rule : Rule} (inside : id < table.size) :
    (RuleTable.mk (table.rules.set id rule)).rule other =
      if other = id then rule else table.rule other := by
  unfold RuleTable.rule
  by_cases same : other = id
  · subst same
    rw [if_pos rfl, List.getElem?_set_self inside, Option.getD_some]
  · rw [if_neg same, List.getElem?_set_ne (Ne.symm same)]

/-- A rule keeps the body that it has, and other rules are left alone. -/
theorem bind_rule (inside : id < draft.rules.size) :
    (draft.bind id body).2.rules.rule other =
      { draft.rules.rule other with
        body := (draft.rules.rule other).body.or (if other = id then some body else none) } := by
  rw [bind_eq]
  by_cases bound : (draft.rules.rule id).isBound
  · rw [if_pos bound]
    by_cases same : other = id
    · subst same
      rw [if_pos rfl, Option.or_of_isSome bound]
    · rw [if_neg same, Option.or_none]
  · have unbound : (draft.rules.rule id).body = none := Option.not_isSome_iff_eq_none.mp bound
    rw [if_neg bound, rule_set inside]
    by_cases same : other = id
    · subst same
      rw [if_pos rfl, if_pos rfl, unbound, Option.none_or]
    · rw [if_neg same, if_neg same, Option.or_none]

/-- Defining a rule enters a production of its name and binds the rule to it. -/
theorem define_eq :
    draft.define id shape body =
      (draft.enter (draft.rules.rule id).name shape).bind id
        (.production (draft.rules.rule id).name body) := rfl

/-- A rule keeps the body that it has when it is defined again. -/
theorem define_rule (inside : id < draft.rules.size) :
    (draft.define id shape body).2.rules.rule other =
      { draft.rules.rule other with
        body := (draft.rules.rule other).body.or
          (if other = id then some (.production (draft.rules.rule id).name body) else none) } := by
  have inside' : id < (draft.enter (draft.rules.rule id).name shape).rules.size := by
    rw [enter_rules]
    exact inside
  rw [define_eq, bind_rule inside', enter_rules]

theorem size_declare {table : RuleTable} : (table.declare name).2.size = table.size + 1 := by
  simp [RuleTable.declare, RuleTable.size]

theorem rule_of_size_le {table : RuleTable} (outside : table.size ≤ other) :
    table.rule other = ⟨"", none⟩ := by
  rw [RuleTable.rule, List.getElem?_eq_none outside, Option.getD_none]

theorem rule_declare {table : RuleTable} :
    (table.declare name).2.rule other =
      if other = table.size then ⟨name, none⟩ else table.rule other := by
  split
  next new =>
    rw [new]
    exact table.rule_declare_self name
  next old =>
    rcases Nat.lt_or_gt_of_ne old with inside | outside
    · exact RuleTable.rule_declare_of_lt name inside
    · have beyond : (table.declare name).2.size ≤ other := size_declare ▸ outside
      rw [rule_of_size_le beyond, rule_of_size_le (Nat.le_of_lt outside)]

end Table

/-! ## One call -/

section Perform

variable {draft : Draft} {call : Call} {other : RuleId}

/-- The name of a rule in a draft. -/
def ruleName (draft : Draft) (id : RuleId) : String := (draft.rules.rule id).name

theorem perform_name : (draft.perform call).2.name = draft.name := by
  cases call <;> simp [perform, declare, declareOutside, production, define_eq]

theorem perform_size :
    (draft.perform call).2.rules.size = draft.rules.size + call.made?.toList.length := by
  cases call with
  | declare | declareOutside => exact size_declare
  | production => exact congrArg RuleTable.size enter_rules
  | define => exact bind_size.trans (congrArg RuleTable.size enter_rules)
  | bind => exact bind_size

theorem perform_declared :
    (draft.perform call).2.declared =
      draft.declared ++ if call.made?.any Prod.snd then [draft.rules.size] else [] := by
  cases call <;>
    simp [perform, declare, declareOutside, production, define_eq, Call.made?, RuleTable.declare]

/-- A call that makes a rule gives it a name. -/
theorem perform_ruleName (known : ∀ id ∈ call.target?, id < draft.rules.size) :
    (draft.perform call).2.ruleName other =
      if other = draft.rules.size then (call.made?.map Prod.fst).getD ""
      else draft.ruleName other := by
  have unmade : draft.ruleName other =
      if other = draft.rules.size then "" else draft.ruleName other := by
    split
    next new => rw [ruleName, rule_of_size_le (Nat.le_of_eq new.symm)]
    next => rfl
  cases call with
  | declare | declareOutside => exact (congrArg Rule.name rule_declare).trans (apply_ite ..)
  | production => exact (congrArg (Rule.name <| RuleTable.rule · other) enter_rules).trans unmade
  | define id shape body => exact (congrArg Rule.name (define_rule (known id rfl))).trans unmade
  | bind id body => exact (congrArg Rule.name (bind_rule (known id rfl))).trans unmade

/-- A call that binds a rule gives it a body, unless it has one. -/
theorem perform_body (known : ∀ id ∈ call.target?, id < draft.rules.size) :
    ((draft.perform call).2.rules.rule other).body =
      (draft.rules.rule other).body.or ((call.binding? draft.ruleName).toList.lookup other) := by
  cases call with
  | declare name | declareOutside name =>
    refine (congrArg Rule.body rule_declare).trans ?_
    split
    next new =>
      rw [rule_of_size_le (Nat.le_of_eq new.symm)]
      rfl
    next => exact Option.or_none.symm
  | production name shape body =>
    have same : (draft.enter name shape).rules = draft.rules := enter_rules
    exact (congrArg (Rule.body <| RuleTable.rule · other) same).trans Option.or_none.symm
  | define id shape body =>
    refine (congrArg Rule.body (define_rule (known id rfl))).trans ?_
    rw [← lookup_singleton]
    rfl
  | bind id body =>
    refine (congrArg Rule.body (bind_rule (known id rfl))).trans ?_
    rw [← lookup_singleton]
    rfl

end Perform

/-- A call enters what it has to enter. -/
theorem Entered.perform {draft : Draft} {call : Call} {entries : List (String × Option Shape)}
    (h : Entered entries draft.registry draft.problems) :
    Entered (entries ++ (call.entered? draft.ruleName).toList) (draft.perform call).2.registry
      (draft.perform call).2.problems := by
  cases call with
  | declare | declareOutside =>
    show Entered (entries ++ []) draft.registry draft.problems
    rwa [List.append_nil]
  | production => exact h.enter
  | define id shape body =>
    rw [Draft.perform, define_eq, bind_registry, bind_problems]
    exact h.enter
  | bind id body =>
    show Entered (entries ++ []) (draft.bind id body).2.registry (draft.bind id body).2.problems
    rwa [List.append_nil, bind_registry, bind_problems]

/-! ## Runs of calls -/

/-- What a draft knows is what the calls come to. -/
structure Records (draft : Draft) (calls : List Call) : Prop where
  known : Known calls
  size : draft.rules.size = (madeIn calls).length
  names : ∀ id, draft.ruleName id = nameIn calls id
  bodies : ∀ id, (draft.rules.rule id).body = bodyIn calls id
  declared : draft.declared = declaredIn calls
  entered : Entered (enteredIn calls) draft.registry draft.problems

section Records

variable {name : String} {draft : Draft} {calls : List Call} {call : Call}

theorem Records.start : (Draft.start name .empty).Records [] where
  known _ mem := absurd mem List.not_mem_nil
  size := rfl
  names _ := rfl
  bodies _ := rfl
  declared := rfl
  entered := .start

theorem Records.known_concat (h : draft.Records calls)
    (known : ∀ id ∈ call.target?, id < draft.rules.size) : Known (calls ++ [call]) := by
  intro earlier mem id target
  have inside : id < (madeIn calls).length := by
    rcases List.mem_append.mp mem with mem | mem
    · exact h.known earlier mem id target
    · obtain rfl := List.mem_singleton.mp mem
      exact h.size ▸ known id target
  rw [madeIn_concat, List.length_append]
  exact Nat.lt_add_right _ inside

theorem Records.perform (h : draft.Records calls)
    (known : ∀ id ∈ call.target?, id < draft.rules.size) :
    (draft.perform call).2.Records (calls ++ [call]) := by
  -- A rule that the call is about has its name already.
  have named : ∀ id ∈ call.target?, draft.ruleName id = nameIn (calls ++ [call]) id := by
    intro id target
    rw [h.names, nameIn_append_of_lt (h.size ▸ known id target)]
  exact {
    known := h.known_concat known
    size := by rw [perform_size, h.size, madeIn_concat, List.length_append]
    names := fun id => by rw [perform_ruleName known, nameIn_concat, h.size, h.names]
    bodies := fun id => by
      rw [perform_body known, h.bodies, bodyIn_concat h.known, Call.binding?_congr named]
    declared := by rw [perform_declared, declaredIn_concat, h.declared, h.size]
    entered := by
      rw [enteredIn_concat h.known, ← Call.entered?_congr named]
      exact h.entered.perform }

/-- A rule is bound by the first call that has a body for it. -/
theorem Records.answer (h : draft.Records calls) {id : RuleId} (target : call.target? = some id) :
    (draft.perform call).1 =
      if bodyIn calls id = none then .ok () else .error (.alreadyBound (nameIn calls id)) := by
  have attempt : (draft.perform call).1 = if (draft.rules.rule id).isBound then
      .error (.alreadyBound (draft.rules.rule id).name) else .ok () := by
    cases call with
    | define other shape body =>
      obtain rfl := Option.some.inj target
      exact bind_answer.trans (by rw [enter_rules])
    | bind other body =>
      obtain rfl := Option.some.inj target
      exact bind_answer
    | _ => cases target
  have named : (draft.rules.rule id).name = nameIn calls id := h.names id
  rw [attempt, Rule.isBound, h.bodies, named]
  cases bodyIn calls id <;> rfl

theorem Reached.records (h : Reached name calls draft) : draft.Records calls := by
  induction h with
  | start => exact .start
  | next _ call known ih => exact ih.perform known

theorem Reached.name_eq (h : Reached name calls draft) : draft.name = name := by
  induction h with
  | start => rfl
  | next _ _ _ ih => exact perform_name.trans ih

end Records

end Descent.Draft
