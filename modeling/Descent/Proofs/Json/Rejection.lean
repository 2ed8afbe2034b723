import Descent.Proofs.Choice
import Descent.Proofs.Json.Words

/-!
# Rejected streams

A parse that fails reports one problem. If no value begins with the first token, then none of the
alternatives moves, and the choice between them reports what they wanted. Otherwise the first token
is an opening bracket. Then one alternative moves, and the choice keeps its report: what stands
between the brackets ends where no bracket closes it.

An element that fails inside brackets leaves no report, because the list that tries it gives it up.
So the report tells where the outermost brackets should close: behind the longest list of complete
elements.
-/

namespace Descent

namespace Json

variable {stream : TokenStream} {rule element : Rule} {opening closing : Char}
variable {state stop : State} {word : List Token} {trees : List Tree}

/-! ## Alternatives that do not begin -/

/-- A value whose alternatives all fail ends as the choice between them gives up. -/
theorem value_exhausted (ends : Rule → State)
    (failures : ∀ alternative ∈ Rule.alternatives,
      Answers alternative.parser state ⟨.failed, ends alternative⟩) :
    Answers Rule.value.parser state
      ⟨.failed, (state.exhausted (Rule.alternatives.map ends)).state⟩ := by
  let refused := Rule.alternatives.map fun alternative => (alternative.parser, ends alternative)
  have failures' : ∀ attempt ∈ refused, Answers attempt.1 state ⟨.failed, attempt.2⟩ :=
    List.forall_mem_map.mpr failures
  have choice : Answers (.choice (refused.map Prod.fst)) state
      (state.exhausted (refused.map Prod.snd)) := .exhausted failures'
  have gaveUp := State.exhausted_tree state (Rule.alternatives.map ends)
  apply Rule.answers
  apply Parser.Evaluates.productionFailed
  rw [← gaveUp]
  exact choice

/-- The problem that nothing begins with a token. -/
def noValue (token : Token) : Problem :=
  .noAlternative ["INT_LITERAL", "STRING_LITERAL", "BOOL_LITERAL", "[", "\x7b"] token.render

/-- What the alternatives want is put together in their order. -/
theorem expectations_refusals (state : State) :
    state.expectations (Rule.alternatives.map (Rule.refusal · state)) =
      ["INT_LITERAL", "STRING_LITERAL", "BOOL_LITERAL", "[", "\x7b"] := by
  have each : ∀ alternative : Rule,
      ((alternative.refusal state).log.since state.log.size).flatMap
          (fun diagnostic => diagnostic.problem.expectations) =
        [(alternative.starters.headD .endOfInput).render] := by
    intro alternative
    rw [Log.since_eq_drop, Rule.refusal, State.report_log, Log.toList_push, ← Log.length_toList,
      List.drop_left]
    rfl
  simp only [State.expectations, List.flatMap_map, each]
  decide

theorem value_refused (other : state.peek.kind ∉ Rule.value.starters) :
    Answers Rule.value.parser state (state.reject (noValue state.peek)) := by
  have failures : ∀ alternative ∈ Rule.alternatives,
      Answers alternative.parser state ⟨.failed, alternative.refusal state⟩ := by
    intro alternative mem
    exact Rule.refusal_answers mem fun starts => other (Rule.starters_subset_value mem starts)
  have still : ∀ stop ∈ Rule.alternatives.map (Rule.refusal · state),
      stop.position ≤ state.position :=
    List.forall_mem_map.mpr fun _ _ => Nat.le_refl _
  have answer := value_exhausted (Rule.refusal · state) failures
  rw [State.exhausted_of_still still, expectations_refusals] at answer
  exact answer

/-! ## Brackets that are not closed -/

/-- Of a value only the alternative that moved tells why it failed. -/
theorem Brackets.value_unclosed (shape : Brackets rule opening element closing)
    (opens : state.peek.kind = .ofChar opening)
    (unclosed : Answers rule.parser state ⟨.failed, stop⟩)
    (moved : state.position < stop.position) :
    Answers Rule.value.parser state ⟨.failed, stop⟩ := by
  let ends : Rule → State := fun other => if other = rule then stop else other.refusal state
  have own : ends rule = stop := if_pos rfl
  have failures : ∀ alternative ∈ Rule.alternatives,
      Answers alternative.parser state ⟨.failed, ends alternative⟩ := by
    intro alternative mem
    by_cases same : alternative = rule
    · rw [same, own]
      exact unclosed
    · rw [show ends alternative = alternative.refusal state from if_neg same]
      exact Rule.refusal_answers mem (opens ▸ shape.begins_only alternative mem same)
  have only : ∀ other ∈ Rule.alternatives.map ends,
      other = stop ∨ other.position ≤ state.position := by
    intro other mem
    obtain ⟨alternative, -, rfl⟩ := List.mem_map.mp mem
    by_cases same : alternative = rule
    · exact .inl (same ▸ own)
    · rw [show ends alternative = alternative.refusal state from if_neg same]
      exact .inr (Nat.le_refl _)
  have mem : stop ∈ Rule.alternatives.map ends :=
    own ▸ List.mem_map_of_mem shape.mem_alternatives
  have answer := value_exhausted ends failures
  rw [State.exhausted_of_only mem moved only] at answer
  exact answer

/-! ## The longest list of elements -/

/-- The longest word of a part that stands at the front of a text. -/
structure Longest (phrase : Phrase) (text word : List Token) : Prop where
  derived : ∃ trees, Derives phrase word trees
  begins : word <+: text
  longest : ∀ other trees, Derives phrase other trees → other <+: text → other.length ≤ word.length

/-- Where the parse of a value from a position is given up, and for which problem. Either nothing
begins with the first token, or this is a bracket and the list behind it is not closed. -/
inductive Rejection (stream : TokenStream) (start : Nat) : (stop : Nat) → Problem → Prop where
  | refused (other : (stream.tokenAt start).kind ∉ Rule.value.starters) :
      Rejection stream start start (noValue (stream.tokenAt start))
  | unclosed {rule element : Rule} {opening closing : Char} {word : List Token}
      (shape : Brackets rule opening element closing)
      (opens : (stream.tokenAt start).kind = .ofChar opening)
      (content : Longest (.items element) (stream.toList.drop (start + 1)) word) :
      Rejection stream start (start + 1 + word.length)
        (.mismatch (.ofChar closing) (stream.tokenAt (start + 1 + word.length)))

/-- Wherever a word of a part between brackets stands behind the first token of a stream, the parsers
take one that is at least as long. -/
def Reached (stream : TokenStream) : Phrase → List Token → Prop
  | .rule _, _ => True
  | .items element, run => ∀ state : State, state.input = stream.tokenAt → 0 < state.position →
      state.Reads run → ∃ word trees, Derives (.items element) word trees ∧ state.Reads word ∧
        Answers (itemsParser element) state ⟨.sequence trees, state.skip word.length⟩ ∧
        run.length ≤ word.length
  | .more element, run => ∀ state : State, state.input = stream.tokenAt → 0 < state.position →
      state.Reads run → ∃ word trees, Derives (.more element) word trees ∧ state.Reads word ∧
        Continues element state trees (state.skip word.length) ∧ run.length ≤ word.length

/-- Elements behind a comma are the rest of a list. -/
theorem Reached.comma {comma : Token} {run : List Token} (between : comma.kind = .ofChar ',')
    (items : Reached stream (.items element) run) :
    Reached stream (.more element) (comma :: run) := by
  rintro state input inside ⟨rfl, reads⟩
  obtain ⟨word, trees, derived, reads', answer, long⟩ :=
    items (state.skip 1) input (Nat.succ_pos _) reads
  refine ⟨state.peek :: word, trees, derived.more_of_items between, ⟨rfl, reads'⟩, ?_, ?_⟩
  · rw [State.skip_length_cons]
    exact .comma between answer
  · simpa using long

theorem Reached.some {front back : List Token} {tree : Tree}
    (first : Derives (.rule element) front [tree]) (rest : Reached stream (.more element) back) :
    Reached stream (.items element) (front ++ back) := by
  intro state input inside reads
  obtain ⟨reads, behind⟩ := State.reads_append.mp reads
  have head := first.answers reads
  have moved := first.length_pos
  have inside' : 0 < (state.skip front.length).position := Nat.add_pos_left inside _
  obtain ⟨word, trees, derived, reads', continues, long⟩ :=
    rest (state.skip front.length) input inside' behind
  refine ⟨front ++ word, tree :: trees, .some first derived, ?_, ?_, ?_⟩
  · exact State.reads_append.mpr ⟨reads, reads'⟩
  · rw [State.skip_length_append]
    exact continues false _ _ head first.head_isProduction.success (by simp [moved])
  · simpa using long

section Streams

variable (ended : stream.Ended)

include ended

theorem reached_nil (element : Rule) : Reached stream (.items element) [] := by
  intro state input inside _
  obtain ⟨word, trees, derived, reads, answer⟩ := items_decided ended
    (fun later same _ => rule_decided ended element later same) state input inside
  exact ⟨word, trees, derived, reads, answer, Nat.zero_le _⟩

theorem Derives.reached {phrase : Phrase} {run : List Token} (h : Derives phrase run trees) :
    Reached stream phrase run := by
  induction h with
  | atom | brackets | field | value => trivial
  | none => exact reached_nil ended _
  | some first _ _ rest => exact rest.some first
  | last =>
    intro state input inside _
    obtain ⟨word, trees, derived, reads, continues⟩ := more_decided ended
      (fun later same _ => rule_decided ended _ later same) state input (Nat.zero_le _)
    exact ⟨word, trees, derived, reads, continues, Nat.zero_le _⟩
  | trailing between => exact (reached_nil ended _).comma between
  | next between first _ _ rest => exact (rest.some first).comma between

/-- Behind the first token the part between two brackets is the longest that stands there. -/
theorem items_longest (element : Rule) (state : State) (input : state.input = stream.tokenAt)
    (inside : 0 < state.position) :
    ∃ word trees, Derives (.items element) word trees ∧ state.Reads word ∧
      Answers (itemsParser element) state ⟨.sequence trees, state.skip word.length⟩ ∧
      Longest (.items element) (stream.toList.drop state.position) word := by
  obtain ⟨word, trees, derived, reads, answer, -⟩ :=
    reached_nil ended element state input inside trivial
  have begins : word <+: stream.toList.drop state.position :=
    ended.prefix_of_reads derived.inside input reads
  refine ⟨word, trees, derived, reads, answer, ⟨trees, derived⟩, begins, ?_⟩
  intro run entries derived' begins'
  have here := (stream.reads_rest state input).front begins'
  obtain ⟨word', trees', -, -, answer', long⟩ := derived'.reached ended state input inside here
  -- The parsers have one answer, so the longer part that they take is the one found above.
  have same := congrArg (·.state.position) (answer'.runs.unique answer.runs)
  have lengths : word'.length = word.length := by simpa using same
  omega

/-- A value stands at a state, or its run is rejected. -/
def Settled (stream : TokenStream) (state : State) : Prop :=
  (∃ word tree, Derives (.rule .value) word [tree] ∧ state.Reads word) ∨
  ∃ stop problem, Rejection stream state.position stop problem ∧
    Answers Rule.value.parser state (State.reject { state with position := stop } problem)

theorem Brackets.settled (shape : Brackets rule opening element closing)
    (input : state.input = stream.tokenAt) (opens : state.peek.kind = .ofChar opening) :
    Settled stream state := by
  obtain ⟨word, trees, items, reads, content, longest⟩ :=
    items_longest ended element (state.skip 1) input (Nat.succ_pos _)
  by_cases closes : ((state.skip 1).skip word.length).peek.kind = .ofChar closing
  · have derived := Derives.value shape.mem_alternatives (.brackets shape opens items closes)
    exact .inl ⟨_, _, derived, rfl, State.reads_append.mpr ⟨reads, rfl, trivial⟩⟩
  · have moved : state.position < ((state.skip 1).skip word.length).position := by
      simp only [State.skip_position]
      omega
    have answer := shape.value_unclosed opens (shape.unclosed opens content closes) moved
    refine .inr ⟨_, _, .unclosed shape ?_ longest, ?_⟩
    · rw [← input]
      exact opens
    · rw [← input]
      exact answer

theorem settled (input : state.input = stream.tokenAt) : Settled stream state := by
  have atom : ∀ {rule kind}, Atom rule kind → rule ∈ Rule.alternatives →
      state.peek.kind = kind → Settled stream state := by
    intro rule kind shape mem found
    exact .inl ⟨[state.peek], _, .value mem (.atom shape found), rfl, trivial⟩
  by_cases begins : state.peek.kind ∈ Rule.value.starters
  · simp only [Rule.starters, List.mem_cons, List.not_mem_nil, or_false] at begins
    rcases begins with found | found | found | opens | opens
    · exact atom .integer (by decide) found
    · exact atom .string (by decide) found
    · exact atom .boolean (by decide) found
    · exact Brackets.list.settled ended input opens
    · exact Brackets.dict.settled ended input opens
  · have peek : state.peek = stream.tokenAt state.position := by rw [← input, State.peek]
    have refused := value_refused begins
    rw [peek] at refused begins
    exact .inr ⟨_, _, .refused begins, refused⟩

end Streams

/-! ## Streams that are rejected -/

/-- A stream begins with a word of the language, or its parse reports a rejection. -/
theorem parse_settled {stream : TokenStream} (ended : stream.Ended) :
    (∃ word tree, Derives (.rule .value) word [tree] ∧ word <+: stream.toList) ∨
      ∃ stop problem, Rejection stream 0 stop problem ∧
        grammar.parse Rule.value.id stream =
          some (State.reject { State.start stream.tokenAt with position := stop } problem) := by
  have input : (State.start stream.tokenAt).input = stream.tokenAt := rfl
  rcases settled ended input with ⟨word, tree, derived, reads⟩ | ⟨stop, problem, rejection, answer⟩
  · exact .inl ⟨word, tree, derived, ended.prefix_of_reads derived.inside input reads⟩
  · have top : Answers (Parser.root Rule.value.parser) (.start stream.tokenAt)
        (State.reject { State.start stream.tokenAt with position := stop } problem) :=
      .rootFailed answer
    exact .inr ⟨stop, problem, rejection, (parse_eq_some_iff ended).mpr top.runs⟩

/-- The parse of a stream always comes to an answer, and if it fails it reports exactly one problem,
where it stopped: that no value begins with the first token, or that the bracket which is the first
token should have been closed behind the longest list of elements. -/
theorem rejected_once {stream : TokenStream} (ended : stream.Ended) :
    ∃ result, grammar.parse Rule.value.id stream = some result ∧ (result.tree = .failed →
      ∃ problem, Rejection stream 0 result.state.position problem ∧
        result.state.log.toList = [⟨stream.tokenAt result.state.position, problem⟩]) := by
  rcases parse_settled ended with ⟨word, tree, derived, begins⟩ | ⟨stop, problem, rejection, answer⟩
  · refine ⟨_, parse_word ended derived begins, fun failed => ?_⟩
    exact absurd failed derived.head_isProduction.success
  · exact ⟨_, answer, fun _ => ⟨problem, rejection, rfl⟩⟩

/-- A list whose second element is a list without a comma between its elements. -/
def undivided : TokenStream :=
  .ofList ([.ofChar '[', integerKind, .ofChar ',', .ofChar '[', integerKind, integerKind,
    .ofChar ']', .ofChar ']'].map fun kind => { kind := kind, text := kind.tag }) none

theorem undivided_ended : undivided.Ended := fun _ given => nomatch given

theorem rejected_once_undivided :
    undivided.Ended ∧ ∃ result, grammar.parse Rule.value.id undivided = some result ∧
      result.tree = .failed ∧ result.state.position = 3 ∧
      ∃ problem, Rejection undivided 0 result.state.position problem ∧
        result.state.log.toList = [⟨undivided.tokenAt result.state.position, problem⟩] := by
  have checked : (grammar.parse Rule.value.id undivided).map
      (fun result => (result.tree.isFailed, result.state.position)) = some (true, 3) := by
    decide +kernel
  obtain ⟨result, answer, reported⟩ := rejected_once undivided_ended
  rw [answer, Option.map_some, Option.some.injEq, Prod.mk.injEq] at checked
  have failed : result.tree = .failed := Tree.isFailed_iff.mp checked.1
  exact ⟨undivided_ended, result, answer, failed, checked.2, reported failed⟩

end Json

end Descent
