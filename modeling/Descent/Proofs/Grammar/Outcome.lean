import Descent.Proofs.Evaluation.Runs
import Descent.Proofs.Grammar.Records

/-!
# Outcomes of drafts

Calls can be made in any order, and some of them can fail. What comes of a draft is told by all of
them together: a rule behaves as the first body that it was bound to, and finishing the draft gives
a grammar unless a production has the name of an earlier one or a rule has no body.
-/

namespace Descent.Draft

/-! ## Finished drafts -/

/-- The first rule of the grammar that has no body. -/
def firstUnbound? (calls : List Call) : Option RuleId :=
  (declaredIn calls).find? fun id => (bodyIn calls id).isNone

/-- A finished grammar has what the calls come to. Of several rules with one name it shows the one
that was declared last. -/
structure Presents (grammar : Grammar) (name : String) (calls : List Call) : Prop where
  name : grammar.name = name
  order : grammar.registry.order = producedIn calls
  distinct : grammar.registry.order.Nodup
  shapes : ∀ production shape, grammar.registry.shapes.find? production = some shape ↔
    (production, shape) ∈ enteredIn calls
  rules : ∀ rule id, grammar.rule? rule = some id ↔
    ∃ before after, declaredIn calls = before ++ id :: after ∧ nameIn calls id = rule ∧
      ∀ later ∈ after, nameIn calls later ≠ rule
  bodies : ∀ id ∈ declaredIn calls, (grammar.rules.rule id).body = bodyIn calls id ∧
    bodyIn calls id ≠ none

section Finish

variable {name : String} {draft : Draft} {calls : List Call} {call : Call} {grammar : Grammar}

/-- If keys are distinct, a key has the value that stands with it. -/
theorem lookup_eq_some_iff_mem {α β : Type} [DecidableEq α] {entries : List (α × β)}
    (distinct : (entries.map Prod.fst).Nodup) {key : α} {value : β} :
    entries.lookup key = some value ↔ (key, value) ∈ entries := by
  rw [List.lookup_eq_some_iff]
  constructor
  · rintro ⟨before, after, rfl, -⟩
    exact List.mem_append_right _ List.mem_cons_self
  · intro mem
    obtain ⟨before, after, rfl⟩ := List.append_of_mem mem
    refine ⟨before, after, rfl, fun entry earlier => bne_iff_ne.mpr ?_⟩
    rw [List.map_append, List.map_cons, List.nodup_append] at distinct
    exact (distinct.2.2 entry.1 (List.mem_map_of_mem earlier) key List.mem_cons_self).symm

/-- The rule that a name stands for. -/
theorem rule?_eq_some_iff {rule : String} {id : RuleId} :
    grammar.rule? rule = some id ↔
      ∃ before after, grammar.declared = before ++ id :: after ∧
        (grammar.rules.rule id).name = rule ∧
        ∀ later ∈ after, (grammar.rules.rule later).name ≠ rule := by
  rw [Grammar.rule?, List.getLast?_filter, List.find?_eq_some_iff_append]
  constructor
  · rintro ⟨named, behind, front, same, others⟩
    refine ⟨front.reverse, behind.reverse, ?_, by simpa using named, by simpa using others⟩
    simpa using congrArg List.reverse same
  · rintro ⟨before, after, same, named, others⟩
    refine ⟨by simpa using named, after.reverse, before.reverse, ?_, by simpa using others⟩
    simp [same]

theorem firstUnbound?_eq_none :
    firstUnbound? calls = none ↔ ∀ id ∈ declaredIn calls, bodyIn calls id ≠ none := by
  simp [firstUnbound?]

theorem Records.find_unbound (h : draft.Records calls) :
    (draft.declared.find? fun id => !(draft.rules.rule id).isBound) = firstUnbound? calls := by
  have same : ∀ id, (!(draft.rules.rule id).isBound) = (bodyIn calls id).isNone := by
    intro id
    rw [Rule.isBound, h.bodies, Option.not_isSome]
  rw [firstUnbound?, h.declared, funext same]

theorem Records.presents (h : draft.Records calls) (distinct : (producedIn calls).Nodup)
    (ordered : draft.registry.order = producedIn calls)
    (bound : ∀ id ∈ declaredIn calls, bodyIn calls id ≠ none) :
    Presents ⟨draft.name, draft.rules, draft.registry, draft.declared⟩ draft.name calls where
  name := rfl
  order := ordered
  distinct := ordered ▸ distinct
  shapes production shape := by
    rw [h.entered.shapes, lookup_eq_some_iff_mem distinct]
  rules rule id := by
    have named : ∀ other, (draft.rules.rule other).name = nameIn calls other := h.names
    simp only [rule?_eq_some_iff, h.declared, named]
  bodies id mem := ⟨h.bodies id, bound id mem⟩

/-- Finishing a draft gives the first problem there is. -/
theorem Records.finish_cases (h : draft.Records calls) :
    (∃ production, FirstRepeated production (producedIn calls) ∧
      draft.finish = .error (.duplicateProduction production)) ∨
    ((producedIn calls).Nodup ∧ ∃ id, firstUnbound? calls = some id ∧
      draft.finish = .error (.neverBound (nameIn calls id))) ∨
    ((producedIn calls).Nodup ∧ firstUnbound? calls = none ∧
      ∃ grammar, draft.finish = .ok grammar ∧ Presents grammar draft.name calls) := by
  obtain ⟨distinct, clean, ordered⟩ | ⟨production, rest, repeated, noted⟩ := h.entered.order
  · cases found : firstUnbound? calls with
    | some id =>
      have finished : draft.finish = .error (.neverBound (draft.ruleName id)) := by
        simp only [finish, clean, h.find_unbound, found]
        rfl
      exact .inr (.inl ⟨distinct, id, rfl, h.names id ▸ finished⟩)
    | none =>
      have finished : draft.finish =
          .ok ⟨draft.name, draft.rules, draft.registry, draft.declared⟩ := by
        simp only [finish, clean, h.find_unbound, found]
      have presents := h.presents distinct ordered (firstUnbound?_eq_none.mp found)
      exact .inr (.inr ⟨distinct, rfl, _, finished, presents⟩)
  · have finished : draft.finish = .error (.duplicateProduction production) := by
      rw [finish, noted]
    exact .inl ⟨production, repeated, finished⟩

/-- Which name is reported is told by the names of productions alone. -/
theorem Records.finish_duplicate_iff (h : draft.Records calls) {production : String} :
    draft.finish = .error (.duplicateProduction production) ↔
      FirstRepeated production (producedIn calls) := by
  have unrepeated : (producedIn calls).Nodup → ¬ FirstRepeated production (producedIn calls) :=
    fun distinct repeated => repeated.not_nodup distinct
  obtain ⟨first, repeated, finished⟩ | ⟨distinct, _, _, finished⟩ |
    ⟨distinct, _, _, finished, _⟩ := h.finish_cases <;> rw [finished]
  · constructor
    · rintro ⟨⟩
      exact repeated
    · intro repeated'
      rw [repeated.unique repeated']
  · simp [unrepeated distinct]
  · simp [unrepeated distinct]

theorem Records.exists_finish_duplicate_iff (h : draft.Records calls) :
    (∃ production, draft.finish = .error (.duplicateProduction production)) ↔
      ¬ (producedIn calls).Nodup := by
  obtain ⟨first, repeated, finished⟩ | ⟨distinct, _, _, finished⟩ |
    ⟨distinct, _, _, finished, _⟩ := h.finish_cases <;> rw [finished]
  · exact ⟨fun _ => repeated.not_nodup, fun _ => ⟨first, rfl⟩⟩
  · simp [distinct]
  · simp [distinct]

/-- A rule without a body is reported only if no name of a production was repeated. -/
theorem Records.finish_neverBound_iff (h : draft.Records calls) {rule : String} :
    draft.finish = .error (.neverBound rule) ↔
      (producedIn calls).Nodup ∧ ∃ id, firstUnbound? calls = some id ∧ nameIn calls id = rule := by
  obtain ⟨_, repeated, finished⟩ | ⟨distinct, id, found, finished⟩ |
    ⟨_, bound, _, finished, _⟩ := h.finish_cases <;> rw [finished]
  · simp [repeated.not_nodup]
  · simp [distinct, found]
  · simp [bound]

theorem Records.exists_finish_iff (h : draft.Records calls) :
    (∃ grammar, draft.finish = .ok grammar) ↔
      (producedIn calls).Nodup ∧ ∀ id ∈ declaredIn calls, bodyIn calls id ≠ none := by
  rw [← firstUnbound?_eq_none]
  obtain ⟨_, repeated, finished⟩ | ⟨distinct, id, found, finished⟩ |
    ⟨distinct, bound, grammar, finished, _⟩ := h.finish_cases <;> rw [finished]
  · simp [repeated.not_nodup]
  · simp [found]
  · exact ⟨fun _ => ⟨distinct, bound⟩, fun _ => ⟨grammar, rfl⟩⟩

/-- Finishing a draft leaves its rules alone. -/
theorem rules_of_finish (finished : draft.finish = .ok grammar) : grammar.rules = draft.rules := by
  unfold finish at finished
  split at finished
  · cases finished
  · split at finished
    · cases finished
    · obtain rfl := Except.ok.inj finished
      rfl

theorem Records.presents_of_finish (h : draft.Records calls) (finished : draft.finish = .ok grammar) :
    Presents grammar draft.name calls := by
  obtain ⟨_, _, other⟩ | ⟨_, _, _, other⟩ | ⟨_, _, _, other, presents⟩ := h.finish_cases
  · cases finished.symm.trans other
  · cases finished.symm.trans other
  · obtain rfl := Except.ok.inj (finished.symm.trans other)
    exact presents

/-! ## The outcome -/

/-- The outcome of a draft, whatever calls were made and in what order. Defining or binding a rule
fails if the rule has a body, and only then; from its first body on, a rule behaves as that body,
whatever is called later. Finishing the draft reports the first production name that was repeated, or
else the first rule of the grammar without a body, or else gives a grammar that presents the calls. -/
theorem outcome_of_calls (reached : Reached name calls draft) :
    (∀ call id, call.target? = some id →
      (draft.perform call).1 =
        if bodyIn calls id = none then .ok () else .error (.alreadyBound (nameIn calls id))) ∧
    (∀ id body, bodyIn calls id = some body → ∀ more later, Reached name (calls ++ more) later →
      ∀ state result, (Parser.rule id).Runs later.rules state result ↔
        body.Runs later.rules state result) ∧
    ((∃ production, draft.finish = .error (.duplicateProduction production)) ↔
      ¬ (producedIn calls).Nodup) ∧
    (∀ production, draft.finish = .error (.duplicateProduction production) ↔
      FirstRepeated production (producedIn calls)) ∧
    (∀ rule, draft.finish = .error (.neverBound rule) ↔
      (producedIn calls).Nodup ∧ ∃ id, firstUnbound? calls = some id ∧ nameIn calls id = rule) ∧
    ((∃ grammar, draft.finish = .ok grammar) ↔
      (producedIn calls).Nodup ∧ ∀ id ∈ declaredIn calls, bodyIn calls id ≠ none) ∧
    ∀ grammar, draft.finish = .ok grammar → Presents grammar name calls := by
  have records := reached.records
  obtain rfl := reached.name_eq
  refine ⟨fun _ _ target => records.answer target, ?_, records.exists_finish_duplicate_iff,
    fun _ => records.finish_duplicate_iff, fun _ => records.finish_neverBound_iff,
    records.exists_finish_iff, fun _ => records.presents_of_finish⟩
  intro id body bound more later reached' state result
  have kept : (later.rules.rule id).body = some body := by
    rw [reached'.records.bodies, bodyIn_append records.known, bound, Option.some_or]
  exact Parser.runs_rule kept

/-- Two rules of one name and one outside the grammar, which is bound a second time in vain. -/
def pairs : List Call :=
  [.declare "Pair", .declareOutside "Word", .declare "Pair",
    .define 0 (some .list) (.sequence [.rule 1, .rule 2]), .bind 1 (.token ⟨"WORD"⟩),
    .bind 2 (.optional (.rule 0)), .bind 1 (.sequence []), .production "Rest" none (.rule 0)]

theorem outcome_of_calls_pairs :
    ∃ draft, Reached "pairs" pairs draft ∧
      (draft.perform (.bind 1 .endOfInput)).1 = .error (.alreadyBound "Word") ∧
      (∀ state result, (Parser.rule 1).Runs draft.rules state result ↔
        (Parser.token ⟨"WORD"⟩).Runs draft.rules state result) ∧
      ∃ grammar, draft.finish = .ok grammar ∧ Presents grammar "pairs" pairs ∧
        grammar.registry.order = ["Pair", "Rest"] ∧ grammar.rule? "Pair" = some 2 := by
  have declared : Reached "pairs" (pairs.take 3) _ :=
    Reached.start.next (.declare "Pair") (by decide)
      |>.next (.declareOutside "Word") (by decide)
      |>.next (.declare "Pair") (by decide)
  have defined : Reached "pairs" (pairs.take 4) _ :=
    declared.next (.define 0 (some .list) (.sequence [.rule 1, .rule 2])) (by decide)
  have bound : Reached "pairs" (pairs.take 7) _ :=
    defined.next (.bind 1 (.token ⟨"WORD"⟩)) (by decide)
      |>.next (.bind 2 (.optional (.rule 0))) (by decide)
      |>.next (.bind 1 (.sequence [])) (by decide)
  have reached : Reached "pairs" pairs _ :=
    bound.next (.production "Rest" none (.rule 0)) (by decide)
  obtain ⟨answers, behaves, -, -, -, finishes, presents⟩ := outcome_of_calls reached
  have bound : bodyIn pairs 1 = some (.token ⟨"WORD"⟩) := rfl
  have distinct : (producedIn pairs).Nodup := by decide
  have complete : ∀ id ∈ declaredIn pairs, bodyIn pairs id ≠ none :=
    firstUnbound?_eq_none.mp rfl
  obtain ⟨grammar, finished⟩ := finishes.mpr ⟨distinct, complete⟩
  have shown := presents grammar finished
  refine ⟨_, reached, answers _ 1 rfl, behaves 1 _ bound [] _ reached, grammar, finished, shown,
    shown.order, ?_⟩
  exact (shown.rules "Pair" 2).mpr ⟨[0], [], rfl, rfl, by simp⟩

end Finish

end Descent.Draft
