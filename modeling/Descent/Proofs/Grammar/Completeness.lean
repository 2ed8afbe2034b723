import Descent.Proofs.Grammar.Outcome
import Descent.Proofs.Tree.Productions

/-!
# Completeness of registries

If all productions of a grammar are made in its draft, then every production that a run can show in
its tree stands in the registry. The handles that the draft gives on productions may be used anywhere,
and rules may be used before they are defined; so what a run can come to is followed through the
bodies of rules, and each expression on the way is one that the calls made.
-/

namespace Descent

namespace Parser

/-- Whether the expression is put together by a combinator that makes no production and is not
custom. -/
def isCombination : Parser → Bool
  | production .. => false
  | custom _ => false
  | recover (.custom ..) _ => false
  | _ => true

theorem feature?_of_isCombination {parser : Parser} (h : parser.isCombination) :
    parser.feature? ≠ some .custom := by
  cases parser with
  | recover recovery => cases recovery <;> simp_all [isCombination, feature?]
  | _ => simp_all [isCombination, feature?]

/-- The expression is put together from handles on productions. It makes no productions of its own
and has no custom steps. -/
inductive MadeWith (handles : List Parser) : Parser → Prop where
  | handle {parser} (mem : parser ∈ handles) : MadeWith handles parser
  | combined {parser} (combination : parser.isCombination)
      (parts : ∀ part ∈ parser.parts, MadeWith handles part) : MadeWith handles parser

end Parser

namespace Draft

/-- The handle on the production that the call makes. -/
def Call.handle? : Call → Option Parser
  | production name _ body => some (.production name body)
  | _ => none

/-- The expression that is given to the call. -/
def Call.given? : Call → Option Parser
  | production _ _ body | define _ _ body | bind _ body => some body
  | _ => none

/-- The calls that can be made without a draft: they only make a rule or bind one. -/
def Call.isLoose : Call → Bool
  | declareOutside _ | bind .. => true
  | _ => false

/-- The handles that the calls give on productions. -/
def handlesIn (calls : List Call) : List Parser := calls.filterMap Call.handle?

/-- The calls make all productions themselves. -/
def MakesProductions (calls : List Call) : Prop :=
  ∀ call ∈ calls, ∀ given ∈ call.given?, given.MadeWith (handlesIn calls)

/-! ## What runs can come to -/

/-- The expressions that runs can come to: what the calls were given, and productions of it. -/
inductive Inside (calls : List Call) : Parser → Prop where
  | given {parser} (made : parser.MadeWith (handlesIn calls)) : Inside calls parser
  | production {name body} (entered : name ∈ producedIn calls)
      (made : body.MadeWith (handlesIn calls)) : Inside calls (.production name body)

section Completeness

variable {name : String} {calls more : List Call} {draft later : Draft} {grammar : Grammar}
variable {call : Call} {id : RuleId} {parser target body : Parser}

theorem mem_producedIn {production : String} {shape : Option Shape} (mem : call ∈ calls)
    (entry : call.entered? (nameIn calls) = some (production, shape)) :
    production ∈ producedIn calls :=
  List.mem_map.mpr ⟨(production, shape), List.mem_filterMap.mpr ⟨call, mem, entry⟩, rfl⟩

section Inside

variable (complete : MakesProductions calls)

include complete

/-- A handle is on a production that was entered. -/
theorem handle_inside (mem : parser ∈ handlesIn calls) :
    ∃ name body, parser = .production name body ∧ name ∈ producedIn calls ∧
      body.MadeWith (handlesIn calls) := by
  obtain ⟨call, listed, handle⟩ := List.mem_filterMap.mp mem
  cases call with
  | production name shape body =>
    obtain rfl := Option.some.inj handle
    exact ⟨name, body, rfl, mem_producedIn listed rfl, complete _ listed body rfl⟩
  | _ => cases handle

theorem Inside.part (h : Inside calls parser) {part : Parser} (mem : part ∈ parser.parts) :
    Inside calls part := by
  cases h with
  | given made =>
    cases made with
    | handle listed =>
      obtain ⟨name, body, rfl, -, made⟩ := handle_inside complete listed
      obtain rfl := List.mem_singleton.mp mem
      exact .given made
    | combined _ parts => exact .given (parts part mem)
  | production _ made =>
    obtain rfl := List.mem_singleton.mp mem
    exact .given made

theorem Inside.standard (h : Inside calls parser) : parser.feature? ≠ some .custom := by
  cases h with
  | given made =>
    cases made with
    | handle listed =>
      obtain ⟨name, body, rfl, -⟩ := handle_inside complete listed
      simp [Parser.feature?]
    | combined combination => exact Parser.feature?_of_isCombination combination
  | production => simp [Parser.feature?]

theorem Inside.entered (h : Inside calls (.production name body)) : name ∈ producedIn calls := by
  cases h with
  | given made =>
    cases made with
    | handle listed =>
      obtain ⟨_, _, same, entered, -⟩ := handle_inside complete listed
      obtain ⟨rfl, rfl⟩ := Parser.production.inj same
      exact entered
    | combined combination => cases combination
  | production entered => exact entered

/-- The bodies of rules come from the calls. -/
theorem body_inside (bound : bodyIn calls id = some body) : Inside calls body := by
  obtain ⟨before, after, same, -⟩ := List.lookup_eq_some_iff.mp bound
  have mem : (id, body) ∈ calls.filterMap (Call.binding? (nameIn calls)) :=
    same ▸ List.mem_append_right _ List.mem_cons_self
  obtain ⟨call, listed, binding⟩ := List.mem_filterMap.mp mem
  cases call with
  | define other shape given =>
    obtain ⟨rfl, rfl⟩ := Prod.mk.inj (Option.some.inj binding)
    exact .production (mem_producedIn listed rfl) (complete _ listed given rfl)
  | bind other given =>
    obtain ⟨rfl, rfl⟩ := Prod.mk.inj (Option.some.inj binding)
    exact .given (complete _ listed given rfl)
  | _ => cases binding

theorem Inside.reaches (records : draft.Records calls) (h : Inside calls parser)
    (reaches : parser.Reaches draft.rules target) : Inside calls target := by
  induction reaches with
  | self => exact h
  | part mem _ ih => exact ih (h.part complete mem)
  | body bound _ ih => exact ih (body_inside complete ((records.bodies _).symm.trans bound))

end Inside

/-! ## Trees of runs -/

/-- Calls that can be made without a draft make no productions. -/
theorem producedIn_loose (known : Known calls) (loose : ∀ call ∈ more, call.isLoose) :
    producedIn (calls ++ more) = producedIn calls := by
  have none : more.filterMap (Call.entered? (nameIn (calls ++ more))) = [] := by
    refine List.filterMap_eq_nil_iff.mpr fun call mem => ?_
    have free := loose call mem
    cases call with
    | declareOutside | bind => rfl
    | _ => cases free
  rw [producedIn, enteredIn_append known, none, List.append_nil, producedIn]

/-- A rule that is defined before it is bound has a production of its name. -/
theorem bodyIn_define {before after : List Call} {shape : Option Shape}
    (same : calls = before ++ .define id shape body :: after)
    (first : ∀ earlier ∈ before, earlier.target? ≠ some id) :
    bodyIn calls id = some (.production (nameIn calls id) body) := by
  have unbound : (before.filterMap (Call.binding? (nameIn calls))).lookup id = none := by
    refine List.lookup_eq_none_iff.mpr fun binding mem => bne_iff_ne.mpr ?_
    rintro rfl
    obtain ⟨earlier, listed, bound⟩ := List.mem_filterMap.mp mem
    exact first earlier listed (Call.target?_of_binding? bound)
  have split : ∀ f : Call → Option (RuleId × Parser), calls.filterMap f =
      before.filterMap f ++ (.define id shape body :: after : List Call).filterMap f := by
    intro f
    rw [same, List.filterMap_append]
  have defined : Call.binding? (nameIn calls) (.define id shape body) =
      some (id, .production (nameIn calls id) body) := rfl
  rw [bodyIn, split, List.lookup_append, unbound, Option.none_or,
    List.filterMap_cons_some defined, List.lookup_cons_self]

/-- A production fails or has its name. -/
theorem runs_production {table : RuleTable} {state : State} {result : Result}
    (runs : (Parser.production name body).Runs table state result) :
    result.tree = .failed ∨ ∃ children, result.tree = .production name children := by
  cases Parser.runs_iff_evaluates.mp runs with
  | productionFailed => exact .inl rfl
  | production => exact .inr ⟨_, rfl⟩
  | malformed => exact .inl rfl

/-- The registry of a finished grammar is complete: if the calls make all productions, then whatever
is parsed, every production in the tree stands in the registry. This holds for every rule, and it
still holds after calls that need no draft, such as binding a rule that is not part of the grammar.
A rule that was defined before it was bound fails or gives a production of its own name. -/
theorem registry_complete (reached : Reached name calls draft)
    (finished : draft.finish = .ok grammar) :
    grammar.rules = draft.rules ∧
    ∀ more later, Reached name (calls ++ more) later → (∀ call ∈ more, call.isLoose) →
      MakesProductions (calls ++ more) →
      ∀ id state result, (Parser.rule id).Runs later.rules state result →
        (∀ production children, (Tree.production production children).Occurs result.tree →
          production ∈ grammar.registry.order) ∧
        ∀ before shape body after, calls ++ more = before ++ .define id shape body :: after →
          (∀ earlier ∈ before, earlier.target? ≠ some id) →
          result.tree = .failed ∨
            ∃ children, result.tree = .production (later.rules.rule id).name children := by
  have presents := reached.records.presents_of_finish finished
  refine ⟨rules_of_finish finished, ?_⟩
  intro more later further loose complete id state result runs
  have records := further.records
  refine ⟨?_, ?_⟩
  · intro production children occurs
    have start : Inside (calls ++ more) (.rule id) :=
      .given (.combined rfl fun _ mem => absurd mem List.not_mem_nil)
    have standard : (Parser.rule id).Lacks later.rules .custom := by
      intro use
      obtain ⟨target, reaches, own⟩ := Parser.uses_iff_reaches.mp use
      exact (start.reaches complete records reaches).standard complete own
    obtain ⟨body, reaches⟩ := (Parser.runs_iff_evaluates.mp runs).makes standard ⟨children, occurs⟩
    have entered := (start.reaches complete records reaches).entered complete
    rw [presents.order, ← producedIn_loose reached.records.known loose]
    exact entered
  · intro before shape body after same first
    have bound : (later.rules.rule id).body = some _ :=
      (records.bodies id).trans (bodyIn_define same first)
    have named : (later.rules.rule id).name = nameIn (calls ++ more) id := records.names id
    rw [named]
    exact runs_production ((Parser.runs_rule bound).mp runs)

/-- A word, as the draft of `groups` makes it. -/
def word : Parser := .production "Word" (.token ⟨"WORD"⟩)

/-- A rule that uses itself, a production, and a rule outside the grammar that is not bound yet. -/
def groups : List Call :=
  [.declare "Group", .declareOutside "Words", .production "Word" (some .string) (.token ⟨"WORD"⟩),
    .define 0 none (.sequence [.char '(', .optional (.choice [.rule 0, word]), .rule 1, .char ')'])]

/-- The input `((WORD)WORD)`. -/
def nested : TokenStream :=
  .ofList (["(", "(", "WORD", ")", "WORD", ")"].map fun tag => { kind := ⟨tag⟩, text := tag }) none

theorem registry_complete_groups :
    ∃ draft grammar later result, Reached "groups" groups draft ∧ draft.finish = .ok grammar ∧
      Reached "groups" (groups ++ [.bind 1 (.many word)]) later ∧
      MakesProductions (groups ++ [.bind 1 (.many word)]) ∧
      (Parser.rule 0).Runs later.rules (.start nested.tokenAt) result ∧ result.tree ≠ .failed ∧
      (∀ production children, (Tree.production production children).Occurs result.tree →
        production ∈ grammar.registry.order) ∧
      (result.tree = .failed ∨ ∃ children, result.tree = .production "Group" children) := by
  have declared : Reached "groups" (groups.take 2) _ :=
    Reached.start.next (.declare "Group") (by decide) |>.next (.declareOutside "Words") (by decide)
  have reached : Reached "groups" groups _ :=
    declared.next (.production "Word" (some .string) (.token ⟨"WORD"⟩)) (by decide)
      |>.next (.define 0 none (.sequence [.char '(', .optional (.choice [.rule 0, word]), .rule 1,
        .char ')'])) (by decide)
  have further := reached.next (.bind 1 (.many word)) (by decide)
  have complete : MakesProductions (groups ++ [.bind 1 (.many word)]) := by
    have handle : word.MadeWith [word] := .handle List.mem_cons_self
    have token : ∀ kind, (Parser.token kind).MadeWith [word] :=
      fun _ => .combined rfl (by simp [Parser.parts])
    have rule : ∀ id, (Parser.rule id).MadeWith [word] :=
      fun _ => .combined rfl (by simp [Parser.parts])
    have choice : (Parser.choice [.rule 0, word]).MadeWith [word] :=
      .combined rfl (by simp [Parser.parts, rule, handle])
    have optional : (Parser.choice [.rule 0, word]).optional.MadeWith [word] :=
      .combined rfl (by simpa [Parser.optional, Parser.parts] using choice)
    have group : (Parser.sequence [.char '(', (Parser.choice [.rule 0, word]).optional, .rule 1,
        .char ')']).MadeWith [word] :=
      .combined rfl (by simp [Parser.parts, Parser.char, token, rule, optional])
    have many : (Parser.many word).MadeWith [word] :=
      .combined rfl (by simpa [Parser.parts] using handle)
    have handles : handlesIn (groups ++ [.bind 1 (.many word)]) = [word] := rfl
    rw [MakesProductions, handles]
    simp [groups, Call.given?, token, group, many]
  obtain ⟨grammar, finished⟩ := reached.records.exists_finish_iff.mpr
    ⟨by decide, firstUnbound?_eq_none.mp rfl⟩
  obtain ⟨-, holds⟩ := registry_complete reached finished
  have loose : ∀ call ∈ [Call.bind 1 (.many word)], call.isLoose := by decide
  obtain ⟨named, own⟩ := holds _ _ further loose complete 0 (.start nested.tokenAt) _ ⟨40, rfl⟩
  exact ⟨_, grammar, _, _, reached, finished, further, complete, ⟨40, rfl⟩, by simp, named,
    own (groups.take 3) _ _ _ rfl (by simp [groups, Call.target?])⟩

end Completeness

end Draft

end Descent
