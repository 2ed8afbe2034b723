import Descent.Proofs.Grammar.Completeness

/-!
# Definitions that fail

A rule is defined by entering a production of its name and then binding it. If the rule has a body
already, the binding fails, but the production stays entered. So a definition that fails leaves a
trace: it does to a draft what making the production does, although no rule has the production.

Whether the trace can be seen is told by the productions made so far. If one of their names was
repeated, finishing the draft reports that name anyway. Otherwise the draft can be brought to a state
in which it would have finished with another registry, or in which it can no longer finish.
-/

namespace Descent.Draft

/-! ## Further calls -/

/-- The draft behind further calls. -/
def performAll (draft : Draft) : List Call → Draft
  | [] => draft
  | call :: later => (draft.perform call).2.performAll later

/-- The answers to further calls. -/
def answers (draft : Draft) : List Call → List (Except GrammarError Unit)
  | [] => []
  | call :: later => (draft.perform call).1 :: (draft.perform call).2.answers later

/-- Nothing that is done later tells the drafts apart: calls have the same answers and lead to the
same rules, and finishing behind them gives the same. -/
structure Indistinguishable (a b : Draft) : Prop where
  answers : ∀ later, a.answers later = b.answers later
  rules : ∀ later, (a.performAll later).rules = (b.performAll later).rules
  finish : ∀ later, (a.performAll later).finish = (b.performAll later).finish

section Further

variable {name : String} {draft a b : Draft} {calls later : List Call} {call : Call}
variable {shape : Option Shape} {id : RuleId} {body : Parser}

/-- Further calls about known rules lead on. -/
theorem Reached.performAll (reached : Reached name calls draft)
    (known : ∀ call ∈ later, ∀ id ∈ call.target?, id < draft.rules.size) :
    Reached name (calls ++ later) (draft.performAll later) := by
  induction later generalizing calls draft with
  | nil => simpa [Draft.performAll] using reached
  | cons call later ih =>
    obtain ⟨first, others⟩ := List.forall_mem_cons.mp known
    have further := ih (reached.next call first) fun other mem id target => by
      rw [perform_size]
      exact Nat.lt_add_right _ (others other mem id target)
    simpa [Draft.performAll] using further

/-! ## Drafts that cannot finish -/

theorem enter_problems :
    ∃ more, (draft.enter name shape).problems = draft.problems ++ more := by
  unfold enter
  split
  · exact ⟨[], by simp⟩
  · exact ⟨_, rfl⟩

/-- Problems are never forgotten. -/
theorem perform_problems : ∃ more, (draft.perform call).2.problems = draft.problems ++ more := by
  cases call with
  | declare | declareOutside => exact ⟨[], (List.append_nil _).symm⟩
  | production => exact enter_problems
  | define =>
    simp only [perform, define_eq, bind_problems]
    exact enter_problems
  | bind =>
    simp only [perform, bind_problems]
    exact ⟨[], (List.append_nil _).symm⟩

/-- Binding depends on the rules alone. -/
theorem bind_congr (same : a.rules = b.rules) :
    (a.bind id body).1 = (b.bind id body).1 ∧
      (a.bind id body).2.rules = (b.bind id body).2.rules := by
  rw [bind_eq, bind_eq, same]
  split
  · exact ⟨rfl, same⟩
  · exact ⟨rfl, rfl⟩

/-- What a call answers and does to the rules depends on the rules alone. -/
theorem perform_congr (same : a.rules = b.rules) :
    (a.perform call).1 = (b.perform call).1 ∧
      (a.perform call).2.rules = (b.perform call).2.rules := by
  cases call with
  | declare | declareOutside => exact ⟨rfl, by simp [perform, declare, declareOutside, same]⟩
  | production => exact ⟨rfl, by simpa [perform, production] using same⟩
  | define =>
    simp only [perform, define_eq, same]
    exact bind_congr (by simpa using same)
  | bind => exact bind_congr same

/-- Two drafts with the same rules and the same first problem. -/
structure Stuck (a b : Draft) : Prop where
  rules : a.rules = b.rules
  problem : ∃ first more more', a.problems = first :: more ∧ b.problems = first :: more'

theorem Stuck.perform (h : Stuck a b) : Stuck (a.perform call).2 (b.perform call).2 where
  rules := (perform_congr h.rules).2
  problem := by
    obtain ⟨first, more, more', left, right⟩ := h.problem
    obtain ⟨added, longer⟩ : ∃ more, (a.perform call).2.problems = a.problems ++ more :=
      perform_problems
    obtain ⟨added', longer'⟩ : ∃ more, (b.perform call).2.problems = b.problems ++ more :=
      perform_problems
    exact ⟨first, more ++ added, more' ++ added', by rw [longer, left]; rfl,
      by rw [longer', right]; rfl⟩

theorem Stuck.performAll (h : Stuck a b) : Stuck (a.performAll later) (b.performAll later) := by
  induction later generalizing a b with
  | nil => exact h
  | cons call later ih => exact ih h.perform

theorem Stuck.finish (h : Stuck a b) : a.finish = b.finish := by
  obtain ⟨first, more, more', left, right⟩ := h.problem
  simp only [Draft.finish, left, right]

theorem Stuck.indistinguishable (h : Stuck a b) : Indistinguishable a b where
  answers later := by
    induction later generalizing a b with
    | nil => rfl
    | cons call later ih => rw [answers, answers, (perform_congr h.rules).1, ih h.perform]
  rules _ := h.performAll.rules
  finish _ := h.performAll.finish

end Further

/-! ## Drafts that can finish -/

/-- Bindings for all rules of a grammar. -/
def bindings (calls : List Call) : List Call :=
  (declaredIn calls).map fun id => .bind id (.sequence [])

section Bindings

variable {name : String} {draft : Draft} {calls later : List Call} {id : RuleId} {grammar : Grammar}

theorem bindings_loose : ∀ call ∈ bindings calls, call.isLoose :=
  List.forall_mem_map.mpr fun _ _ => rfl

theorem lt_of_mem_declaredIn (mem : id ∈ declaredIn calls) : id < (madeIn calls).length := by
  obtain ⟨⟨rule, place⟩, listed, given⟩ := List.mem_filterMap.mp mem
  split at given
  · obtain rfl := Option.some.inj given
    exact (List.mem_zipIdx' listed).1
  · cases given

/-- The bindings make no rules. -/
theorem declaredIn_bindings : declaredIn (calls ++ bindings calls) = declaredIn calls := by
  have none : madeIn (bindings calls) = [] :=
    List.filterMap_eq_nil_iff.mpr (List.forall_mem_map.mpr fun _ _ => rfl)
  rw [declaredIn, madeIn_append, none, List.append_nil, declaredIn]

/-- The bindings leave no rule of the grammar without a body. -/
theorem bodyIn_bindings (known : Known calls) (mem : id ∈ declaredIn calls) :
    bodyIn (calls ++ bindings calls) id ≠ none := by
  have bound : ((bindings calls).filterMap
      (Call.binding? (nameIn (calls ++ bindings calls)))).lookup id ≠ none := by
    rw [← Option.isSome_iff_ne_none, List.lookup_isSome_iff]
    exact ⟨(id, .sequence []), List.mem_filterMap.mpr
      ⟨_, List.mem_map_of_mem mem, rfl⟩, beq_self_eq_true id⟩
  rw [bodyIn_append known]
  cases bodyIn calls id with
  | none => exact bound
  | some => simp

theorem Records.target_lt_of_mem_bindings (records : draft.Records calls) :
    ∀ call ∈ bindings calls, ∀ id ∈ call.target?, id < draft.rules.size := by
  refine List.forall_mem_map.mpr fun id mem other target => ?_
  obtain rfl := Option.some.inj target
  exact records.size ▸ lt_of_mem_declaredIn mem

/-- With bindings for its rules a draft can be finished, if no name was repeated. -/
theorem Reached.finish_bindings (reached : Reached name calls draft)
    (distinct : (producedIn calls).Nodup) :
    ∃ grammar, (draft.performAll (bindings calls)).finish = .ok grammar := by
  have records := reached.records
  have further := (reached.performAll records.target_lt_of_mem_bindings).records
  refine further.exists_finish_iff.mpr ⟨?_, ?_⟩
  · rwa [producedIn_loose records.known bindings_loose]
  · rw [declaredIn_bindings]
    exact fun id mem => bodyIn_bindings records.known mem

/-- Calls that can be made without a draft leave the names of its productions alone. -/
theorem Reached.order_of_finish (reached : Reached name calls draft)
    (known : ∀ call ∈ later, ∀ id ∈ call.target?, id < draft.rules.size)
    (loose : ∀ call ∈ later, call.isLoose)
    (finished : (draft.performAll later).finish = .ok grammar) :
    grammar.registry.order = producedIn calls := by
  rw [((reached.performAll known).records.presents_of_finish finished).order,
    producedIn_loose reached.records.known loose]

end Bindings

/-! ## Failed definitions -/

section Failed

variable {name : String} {draft : Draft} {calls : List Call} {id : RuleId} {shape : Option Shape}
variable {body : Parser} {problem : GrammarError}

/-- A definition that fails has entered its production and done nothing else. -/
theorem define_failed (failed : (draft.define id shape body).1 = .error problem) :
    id < draft.rules.size ∧ problem = .alreadyBound (draft.ruleName id) ∧
      (draft.define id shape body).2 = draft.enter (draft.ruleName id) shape := by
  rw [define_eq, bind_eq, enter_rules] at failed ⊢
  split at failed
  next bound =>
    rw [if_pos bound]
    refine ⟨?_, (Except.error.inj failed).symm, rfl⟩
    by_contra outside
    rw [rule_of_size_le (Nat.not_lt.mp outside)] at bound
    cases bound
  next => cases failed

/-- If a name was repeated before, the drafts before and behind a definition that failed can no
longer finish, both for the same reason. -/
theorem Reached.stuck_of_failed (reached : Reached name calls draft)
    (failed : (draft.define id shape body).1 = .error problem)
    (repeated : ¬ (producedIn calls).Nodup) : Stuck (draft.define id shape body).2 draft := by
  obtain ⟨-, -, same⟩ := define_failed failed
  rw [same]
  obtain ⟨distinct, -⟩ | ⟨first, rest, -, noted⟩ := reached.records.entered.order
  · exact absurd distinct repeated
  · obtain ⟨more, longer⟩ : ∃ more, (draft.enter (draft.ruleName id) shape).problems =
        draft.problems ++ more := enter_problems
    exact ⟨enter_rules, _, rest ++ more, rest, by rw [longer, noted]; rfl, noted⟩

/-- If no name was repeated before, binding the rules of the grammar and finishing the draft tells
whether the definition was tried: its production is entered once more. -/
theorem Reached.finish_ne_of_failed (reached : Reached name calls draft)
    (failed : (draft.define id shape body).1 = .error problem)
    (distinct : (producedIn calls).Nodup) :
    ((draft.define id shape body).2.performAll (bindings calls)).finish ≠
      (draft.performAll (bindings calls)).finish := by
  have records := reached.records
  have known := records.target_lt_of_mem_bindings
  obtain ⟨inside, -, traced⟩ := define_failed failed
  obtain ⟨grammar, finished⟩ := reached.finish_bindings distinct
  have tried : Reached name (calls ++ [.define id shape body]) (draft.define id shape body).2 :=
    reached.next (.define id shape body) fun _ target => Option.some.inj target ▸ inside
  have known' : ∀ call ∈ bindings calls, ∀ other ∈ call.target?,
      other < (draft.define id shape body).2.rules.size := by
    rwa [traced, enter_rules]
  intro same
  have order := reached.order_of_finish known bindings_loose finished
  have order' := tried.order_of_finish known' bindings_loose (same.trans finished)
  have longer : ∃ produced, producedIn (calls ++ [.define id shape body]) =
      producedIn calls ++ [produced] := by
    rw [producedIn, enteredIn_concat records.known, List.map_append]
    exact ⟨_, rfl⟩
  obtain ⟨produced, longer⟩ := longer
  simp [← order', order] at longer

/-- A definition that fails is recorded all the same. It does to a draft what making the production
does: its name is entered into the registry, or noted as repeated if a production has it. Whatever
is done later, the trace cannot be seen if and only if the name of some production was repeated
before. -/
theorem failed_definition_recorded (reached : Reached name calls draft)
    (failed : (draft.define id shape body).1 = .error problem) :
    problem = .alreadyBound (nameIn calls id) ∧
    (draft.define id shape body).2 =
      (if nameIn calls id ∈ producedIn calls then
        { draft with problems := draft.problems ++ [.duplicateProduction (nameIn calls id)] }
      else
        { draft with registry := ⟨draft.registry.order ++ [nameIn calls id],
          draft.registry.shapes.insert (nameIn calls id) shape⟩ }) ∧
    ((draft.define id shape body).2.Indistinguishable draft ↔ ¬ (producedIn calls).Nodup) := by
  have records := reached.records
  obtain ⟨-, rfl, same⟩ := define_failed failed
  have named : draft.ruleName id = nameIn calls id := records.names id
  refine ⟨by rw [named], ?_, fun unseen distinct => ?_, fun repeated => ?_⟩
  · rw [same, named]
    split
    next known => exact enter_of_contains (records.entered.contains_iff.mpr known)
    next new => exact enter_of_new (mt records.entered.contains_iff.mp new)
  · exact reached.finish_ne_of_failed failed distinct (unseen.finish _)
  · exact (reached.stuck_of_failed failed repeated).indistinguishable

end Failed

/-- A rule that is bound without a production. -/
def plain : List Call := [.declare "A", .bind 0 (.token ⟨"A"⟩)]

theorem failed_definition_recorded_plain :
    ∃ draft, Reached "plain" plain draft ∧
      (draft.define 0 (some .integer) (.token ⟨"B"⟩)).1 = .error (.alreadyBound "A") ∧
      (draft.define 0 (some .integer) (.token ⟨"B"⟩)).2 =
        { draft with registry := ⟨["A"], draft.registry.shapes.insert "A" (some .integer)⟩ } ∧
      ¬ (draft.define 0 (some .integer) (.token ⟨"B"⟩)).2.Indistinguishable draft := by
  have reached : Reached "plain" plain _ :=
    Reached.start.next (.declare "A") (by decide) |>.next (.bind 0 (.token ⟨"A"⟩)) (by decide)
  obtain ⟨-, same, unseen⟩ := @failed_definition_recorded _ _ _ 0 (some .integer) (.token ⟨"B"⟩)
    (.alreadyBound "A") reached rfl
  exact ⟨_, reached, rfl, same.trans (if_neg (by decide)), fun h => unseen.mp h (by decide)⟩

/-- A definition that fails can be seen in what finishing gives. The draft of `plain` gives a grammar
without productions, and the failed definition adds one to it; after a definition of the rule that
succeeds, the failed one keeps the draft from being finished. -/
theorem failed_definition_seen :
    (∃ draft, Reached "plain" plain draft ∧
      (draft.define 0 (some .integer) (.token ⟨"B"⟩)).1 = .error (.alreadyBound "A") ∧
      (∃ grammar, draft.finish = .ok grammar ∧ grammar.registry.order = []) ∧
      ∃ grammar, (draft.define 0 (some .integer) (.token ⟨"B"⟩)).2.finish = .ok grammar ∧
        grammar.registry.order = ["A"]) ∧
    ∃ draft, Reached "plain" [.declare "A", .define 0 none (.token ⟨"A"⟩)] draft ∧
      (draft.define 0 none (.token ⟨"B"⟩)).1 = .error (.alreadyBound "A") ∧
      (∃ grammar, draft.finish = .ok grammar) ∧
      (draft.define 0 none (.token ⟨"B"⟩)).2.finish = .error (.duplicateProduction "A") := by
  have declared : Reached "plain" [.declare "A"] _ := Reached.start.next (.declare "A") (by decide)
  have bound : Reached "plain" plain _ := declared.next (.bind 0 (.token ⟨"A"⟩)) (by decide)
  have defined : Reached "plain" [.declare "A", .define 0 none (.token ⟨"A"⟩)] _ :=
    declared.next (.define 0 none (.token ⟨"A"⟩)) (by decide)
  exact ⟨⟨_, bound, rfl, ⟨_, rfl, rfl⟩, _, rfl, rfl⟩, _, defined, rfl, ⟨_, rfl⟩, rfl⟩

end Descent.Draft
