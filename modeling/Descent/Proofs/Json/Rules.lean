import Descent.Proofs.Json.Language
import Descent.Proofs.Reading

/-!
# The rules of JSON

What each rule of the grammar answers, given the answers of the rules that it uses. Every rule
refuses a token with which none of its words begins, so at most one alternative of a value can be
taken.
-/

namespace Descent.Json

/-- What an expression over the rules of JSON answers. -/
abbrev Answers (parser : Parser) (state : State) (result : Result) : Prop :=
  parser.Evaluates grammar.rules True state result

variable {rule element : Rule} {kind : TokenKind} {opening closing : Char}
variable {state middle stop : State} {result : Result} {tree key value : Tree} {entries : List Tree}

theorem Rule.body_eq (rule : Rule) :
    (grammar.rules.rule rule.id).body = some (.production rule.name rule.body) := by
  cases rule <;> rfl

theorem Rule.answers (h : Answers (.production rule.name rule.body) state result) :
    Answers rule.parser state result :=
  .rule rule.body_eq h

/-! ## Single tokens -/

theorem Atom.body_eq (shape : Atom rule kind) : rule.body = .token kind := by
  cases shape <;> rfl

theorem Atom.accepts (shape : Atom rule kind) (found : state.peek.kind = kind) :
    Answers rule.parser state ⟨.production rule.name [.token state.peek], state.skip 1⟩ := by
  apply Rule.answers
  rw [shape.body_eq]
  exact .production (.token found) (by simp) rfl

theorem Atom.refuses (shape : Atom rule kind) (other : state.peek.kind ≠ kind) :
    Answers rule.parser state (state.reject (.mismatch kind state.peek)) := by
  apply Rule.answers
  rw [shape.body_eq]
  exact .productionFailed (.mismatch other)

/-! ## Brackets -/

/-- The elements between two brackets, up to the closing one. -/
abbrev itemsParser (element : Rule) : Parser := .separatedBy element.parser (.char ',')

theorem Brackets.body_eq (shape : Brackets rule opening element closing) :
    rule.body = .sequence [.char opening, .terminated (itemsParser element) (.char closing)] := by
  cases shape <;> rfl

theorem Brackets.accepts (shape : Brackets rule opening element closing)
    (opens : state.peek.kind = .ofChar opening)
    (content : Answers (itemsParser element) (state.skip 1) ⟨.sequence entries, stop⟩)
    (productions : ∀ tree ∈ entries, tree.IsProduction)
    (closes : stop.peek.kind = .ofChar closing) :
    Answers rule.parser state
      ⟨.production rule.name (.token state.peek :: entries), stop.skip 1⟩ := by
  have flat : Step.children (.sequence [.token state.peek, .sequence entries]) =
      .ok (.token state.peek :: entries) := by
    simp [Step.children, Tree.flatten, Tree.leaves, Tree.flatten_productions productions, bind,
      Except.bind, pure, Except.pure]
  have inner : Answers (.terminated (itemsParser element) (.char closing)) (state.skip 1)
      ⟨.sequence entries, stop.skip 1⟩ :=
    .terminated content (by simp) (.token closes) (by simp)
  apply Rule.answers
  rw [shape.body_eq]
  refine .production (.sequenceCons (.token opens) (by simp) ?_) (by simp) flat
  exact .sequenceCons inner (by simp) .sequenceNil

/-- Brackets that are not closed fail where the closing bracket was wanted. -/
theorem Brackets.unclosed (shape : Brackets rule opening element closing)
    (opens : state.peek.kind = .ofChar opening)
    (content : Answers (itemsParser element) (state.skip 1) ⟨.sequence entries, stop⟩)
    (other : stop.peek.kind ≠ .ofChar closing) :
    Answers rule.parser state (stop.reject (.mismatch (.ofChar closing) stop.peek)) := by
  have inner : Answers (.terminated (itemsParser element) (.char closing)) (state.skip 1)
      (stop.reject (.mismatch (.ofChar closing) stop.peek)) :=
    .terminatedOpen content (by simp) (.mismatch other)
  apply Rule.answers
  rw [shape.body_eq]
  refine .productionFailed (.sequenceStopped (.token opens) (by simp) ?_)
  exact .sequenceFailed inner

theorem Brackets.refuses (shape : Brackets rule opening element closing)
    (other : state.peek.kind ≠ .ofChar opening) :
    Answers rule.parser state (state.reject (.mismatch (.ofChar opening) state.peek)) := by
  apply Rule.answers
  rw [shape.body_eq]
  exact .productionFailed (.sequenceFailed (.mismatch other))

/-- Behind an element that ends at a state, the list has the given further trees and ends at `stop`.
It does not matter where the element started, nor whether the list had to have one. -/
def Continues (element : Rule) (state : State) (entries : List Tree) (stop : State) : Prop :=
  ∀ required start tree, Answers element.parser start ⟨tree, state⟩ → tree ≠ .failed →
    start.position < state.position →
      Answers (.separated required element.parser (.char ',')) start
        ⟨.sequence (tree :: entries), stop⟩

namespace Continues

theorem last (other : state.peek.kind ≠ .ofChar ',') : Continues element state [] state := by
  intro required start tree first success _
  exact .separatedLast first success (.mismatch other)

/-- Behind a comma the list goes on as a list of its own that may be empty. -/
theorem comma (between : state.peek.kind = .ofChar ',')
    (later : Answers (itemsParser element) (state.skip 1) ⟨.sequence entries, stop⟩) :
    Continues element state entries stop := by
  intro required start tree first success moved
  refine .separatedNext first success (.token between) (by simp) ?_ later
  simp only [State.advance_position]
  omega

theorem next (between : state.peek.kind = .ofChar ',')
    (first : Answers element.parser (state.skip 1) ⟨tree, middle⟩) (success : tree ≠ .failed)
    (moved : (state.skip 1).position < middle.position)
    (rest : Continues element middle entries stop) :
    Continues element state (tree :: entries) stop :=
  comma between (rest false _ _ first success moved)

end Continues

/-! ## Fields -/

theorem field_accepts (name : Answers Rule.string.parser state ⟨key, middle⟩)
    (named : key.IsProduction) (between : middle.peek.kind = .ofChar ':')
    (content : Answers Rule.value.parser (middle.skip 1) ⟨value, stop⟩)
    (valued : value.IsProduction) :
    Answers Rule.field.parser state
      ⟨.production "Field" [.labeled "key" key, .token middle.peek, .labeled "value" value],
        stop⟩ := by
  have back : Answers (.sequence [.char ':', .labeled "value" Rule.value.parser]) middle
      ⟨.sequence [.token middle.peek, .labeled "value" value], stop⟩ := by
    refine .sequenceCons (.token between) (by simp) ?_
    exact .sequenceCons (.labeled content valued.success) (by simp) .sequenceNil
  apply Rule.answers
  exact .production (.sequenceCons (.labeled name named.success) (by simp) back) (by simp) rfl

theorem field_unnamed (name : Answers Rule.string.parser state ⟨.failed, stop⟩) :
    Answers Rule.field.parser state ⟨.failed, stop⟩ :=
  Rule.answers (.productionFailed (.sequenceFailed (.labeledFailed name)))

theorem field_undivided (name : Answers Rule.string.parser state ⟨key, middle⟩)
    (named : key.IsProduction) (other : middle.peek.kind ≠ .ofChar ':') :
    Answers Rule.field.parser state (middle.reject (.mismatch (.ofChar ':') middle.peek)) := by
  apply Rule.answers
  refine .productionFailed (.sequenceStopped (.labeled name named.success) (by simp) ?_)
  exact .sequenceFailed (.mismatch other)

theorem field_unvalued (name : Answers Rule.string.parser state ⟨key, middle⟩)
    (named : key.IsProduction) (between : middle.peek.kind = .ofChar ':')
    (content : Answers Rule.value.parser (middle.skip 1) ⟨.failed, stop⟩) :
    Answers Rule.field.parser state ⟨.failed, stop⟩ := by
  apply Rule.answers
  refine .productionFailed (.sequenceStopped (.labeled name named.success) (by simp) ?_)
  refine .sequenceStopped (.token between) (by simp) ?_
  exact .sequenceFailed (.labeledFailed content)

/-! ## Values -/

theorem value_body_eq : Rule.value.body = .choice (Rule.alternatives.map Rule.parser) := rfl

theorem value_refuses
    (failures : ∀ alternative ∈ Rule.alternatives,
      ∃ stop, Answers alternative.parser state ⟨.failed, stop⟩) :
    ∃ stop, Answers Rule.value.parser state ⟨.failed, stop⟩ := by
  have each : ∀ part ∈ Rule.alternatives.map Rule.parser,
      ∃ stop, Answers part state ⟨.failed, stop⟩ := by
    intro part mem
    obtain ⟨alternative, listed, rfl⟩ := List.mem_map.mp mem
    exact failures alternative listed
  obtain ⟨stop, failed⟩ := Parser.Evaluates.choice_failed each
  exact ⟨stop, Rule.answers (.productionFailed failed)⟩

/-- Where an alternative ends that does not begin with the next token. Each has one starter. -/
def Rule.refusal (rule : Rule) (state : State) : State :=
  state.report state.peek (.mismatch (rule.starters.headD .endOfInput) state.peek)

theorem Rule.refusal_answers (mem : rule ∈ Rule.alternatives)
    (other : state.peek.kind ∉ rule.starters) :
    Answers rule.parser state ⟨.failed, rule.refusal state⟩ := by
  simp only [Rule.alternatives, List.mem_cons, List.not_mem_nil, or_false] at mem
  rcases mem with rfl | rfl | rfl | rfl | rfl
  · exact Atom.integer.refuses (by simpa [Rule.starters] using other)
  · exact Atom.string.refuses (by simpa [Rule.starters] using other)
  · exact Atom.boolean.refuses (by simpa [Rule.starters] using other)
  · exact Brackets.list.refuses (by simpa [Rule.starters] using other)
  · exact Brackets.dict.refuses (by simpa [Rule.starters] using other)

theorem Rule.alternative_refuses (mem : rule ∈ Rule.alternatives)
    (other : state.peek.kind ∉ rule.starters) :
    ∃ stop, Answers rule.parser state ⟨.failed, stop⟩ :=
  ⟨_, Rule.refusal_answers mem other⟩

/-- Every rule refuses a token with which none of its words begins. -/
theorem Rule.refuses (rule : Rule) (other : state.peek.kind ∉ rule.starters) :
    ∃ stop, Answers rule.parser state ⟨.failed, stop⟩ := by
  cases rule with
  | field =>
    have name := Atom.string.refuses (by simpa [Rule.starters] using other)
    exact ⟨_, field_unnamed name⟩
  | value =>
    apply value_refuses
    intro alternative mem
    exact Rule.alternative_refuses mem fun starts => other (Rule.starters_subset_value mem starts)
  | _ => exact Rule.alternative_refuses (by simp [Rule.alternatives]) other

/-- No token begins words of two alternatives. -/
theorem Rule.alternatives_disjoint : Rule.alternatives.Pairwise fun first second =>
    ∀ kind ∈ second.starters, kind ∉ first.starters := by
  decide

theorem value_accepts (mem : rule ∈ Rule.alternatives) (starts : state.peek.kind ∈ rule.starters)
    (taken : Answers rule.parser state ⟨tree, stop⟩) (made : tree.IsProduction) :
    Answers Rule.value.parser state ⟨.production "Value" [tree], stop⟩ := by
  obtain ⟨before, rest, split⟩ := List.append_of_mem mem
  have disjoint := Rule.alternatives_disjoint
  rw [split] at disjoint
  have failures : ∀ part ∈ before.map Rule.parser, ∃ stop, Answers part state ⟨.failed, stop⟩ := by
    intro part mem
    obtain ⟨alternative, listed, rfl⟩ := List.mem_map.mp mem
    have apart := (List.pairwise_append.mp disjoint).2.2 alternative listed rule List.mem_cons_self
    exact alternative.refuses (apart _ starts)
  apply Rule.answers
  rw [value_body_eq, split, List.map_append, List.map_cons]
  refine .production ?_ made.success made.children
  exact Parser.Evaluates.choice_taken failures taken made.success

end Descent.Json
