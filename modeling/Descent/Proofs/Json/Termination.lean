import Descent.Proofs.Evaluation.Rounds
import Descent.Proofs.Json.Rules
import Descent.Proofs.Termination

/-!
# Termination of the JSON rules

The rules use each other, but between two uses of the rule for values a token is consumed: a
bracket, or the colon of a field. So every rule ends, on every stream with an end, within a bound
that allows for three uses of rules per token that is left. The bound that a parse is given is
larger, and a parse therefore has the answer of the run.
-/

namespace Descent.Json

open Step (Ends EndsAt)

variable {stream : TokenStream} {rule element : Rule} {opening closing : Char} {kind : TokenKind}
variable {low bound : Nat} {state : State}

/-- How many uses of rules there can be before a token is consumed. -/
def Rule.rank : Rule → Nat
  | value => 2
  | field => 2
  | _ => 1

theorem Rule.rank_pos (rule : Rule) : 0 < rule.rank := by
  cases rule <;> decide

theorem Rule.rank_le_two (rule : Rule) : rule.rank ≤ 2 := by
  cases rule <;> decide

theorem Rule.rank_alternative (mem : rule ∈ alternatives) : rule.rank = 1 := by
  simp only [alternatives, List.mem_cons, List.not_mem_nil, or_false] at mem
  rcases mem with rfl | rfl | rfl | rfl | rfl <;> rfl

/-- Using a rule costs one of the bound. -/
theorem Rule.run_succ (rule : Rule) (bound : Nat) :
    rule.parser.run grammar.rules (bound + 1) =
      Step.production rule.name (rule.body.run grammar.rules bound) := by
  rw [← Parser.run_production]
  cases rule <;> rfl

theorem ofChar_ne_endOfInput (c : Char) : TokenKind.ofChar c ≠ .endOfInput := by
  simp [TokenKind.ofChar, TokenKind.endOfInput, Char.toString]

section Streams

variable (ended : stream.Ended)

include ended

theorem char_ends (c : Char) : Ends stream low (Step.token (.ofChar c)) :=
  fun _ input _ => Step.token_endsAt ended (ofChar_ne_endOfInput c) input

theorem atom_endsAt (shape : Atom rule kind) (input : state.input = stream.tokenAt) :
    (rule.body.run grammar.rules bound).EndsAt stream state := by
  rw [shape.body_eq, Parser.run_token]
  apply Step.token_endsAt ended _ input
  cases shape <;> decide

/-- Brackets end if their elements do behind the opening one. -/
theorem brackets_endsAt (shape : Brackets rule opening element closing)
    (input : state.input = stream.tokenAt) (enough : stream.size - state.position ≤ bound)
    (elements : state.position < stream.size →
      Ends stream (state.position + 1) (element.parser.run grammar.rules bound)) :
    (rule.body.run grammar.rules bound).EndsAt stream state := by
  rw [shape.body_eq, Parser.run_sequence, List.map_cons, List.map_singleton, Parser.char,
    Parser.run_token]
  apply Step.sequence_token_endsAt ended (ofChar_ne_endOfInput opening) input
  intro inside
  have enough' : stream.size - (state.position + 1) < bound := by omega
  have items := (elements inside).separated (char_ends ended ',') enough' false
  have content := items.terminated (char_ends ended closing)
  refine Ends.sequence ?_ state.advance input (Nat.le_refl _)
  simpa [Parser.run_terminated, Parser.run_separated, Parser.run_token, Parser.char,
    Parser.separatedBy] using content

/-- A field ends if its key does and values do further on. -/
theorem field_endsAt (input : state.input = stream.tokenAt)
    (key : (Rule.string.parser.run grammar.rules bound).EndsAt stream state)
    (value : state.position < stream.size →
      Ends stream (state.position + 1) (Rule.value.parser.run grammar.rules bound)) :
    (Rule.field.body.run grammar.rules bound).EndsAt stream state := by
  simp only [Rule.body, Parser.run_sequence, List.map_cons, List.map_nil, Parser.run_labeled,
    Parser.char, Parser.run_token]
  apply Step.sequence_cons_endsAt (Step.labeled_endsAt "key" key)
  intro middle way
  have moved := way.le
  have input' := way.input_eq.trans input
  apply Step.sequence_token_endsAt ended (ofChar_ne_endOfInput ':') input'
  intro inside
  apply Step.sequence_cons_endsAt
  · apply Step.labeled_endsAt
    exact value (by omega) middle.advance input' (by simpa using moved)
  · exact fun _ _ => Step.sequence_nil_endsAt

/-- Every rule ends from a position on, if the bound allows for the tokens that are left there. -/
theorem rule_ends (rule : Rule) (enough : 3 * (stream.size - low) + rule.rank ≤ bound) :
    Ends stream low (rule.parser.run grammar.rules bound) := by
  induction bound generalizing rule low with
  | zero =>
    have positive := rule.rank_pos
    omega
  | succ bound ih =>
    intro state input after
    -- Where the rule stands it may use rules of a smaller rank, and behind a token any rule.
    have here : ∀ other : Rule, other.rank < rule.rank →
        (other.parser.run grammar.rules bound).EndsAt stream state := by
      intro other less
      exact ih other (by omega) state input after
    have behind : ∀ other : Rule, state.position < stream.size →
        Ends stream (state.position + 1) (other.parser.run grammar.rules bound) := by
      intro other inside
      have small := other.rank_le_two
      have positive := rule.rank_pos
      exact ih other (by omega)
    have positive := rule.rank_pos
    rw [rule.run_succ]
    apply Step.production_endsAt
    cases rule with
    | integer => exact atom_endsAt ended .integer input
    | string => exact atom_endsAt ended .string input
    | boolean => exact atom_endsAt ended .boolean input
    | list => exact brackets_endsAt ended .list input (by omega) (behind .value)
    | dict => exact brackets_endsAt ended .dict input (by omega) (behind .field)
    | field => exact field_endsAt ended input (here .string (by decide)) (behind .value)
    | value =>
      rw [value_body_eq, Parser.run_choice, List.map_map]
      apply Step.choice_endsAt
      rintro step mem
      obtain ⟨alternative, listed, rfl⟩ := List.mem_map.mp mem
      have smaller : alternative.rank < Rule.value.rank := by
        rw [Rule.rank_alternative listed]
        decide
      exact here alternative smaller

/-- A parse with any of the rules comes to an answer, inside the stream. -/
theorem exists_parseFrom (rule : Rule) (state : State) (input : state.input = stream.tokenAt) :
    ∃ result, grammar.parseFrom rule.id stream.size state = some result ∧
      state.StaysIn stream result.state := by
  have small := rule.rank_le_two
  have total : Parser.bound grammar.rules stream.size state =
      8 * (stream.size + state.position + 2) := rfl
  have root : Ends stream state.position ((Parser.root rule.parser).run grammar.rules
      (Parser.bound grammar.rules stream.size state)) := by
    have enough : stream.size - state.position < Parser.bound grammar.rules stream.size state := by
      omega
    rw [Parser.root, Parser.run_recover]
    exact Ends.recover (rule_ends ended rule (by omega)) ended (by simp) enough
  exact root state input (Nat.le_refl _)

/-- The parse of a stream has the answer of the run, whatever bound that takes. -/
theorem parse_eq_some_iff {result : Result} :
    grammar.parse rule.id stream = some result ↔
      (Parser.root rule.parser).Runs grammar.rules (.start stream.tokenAt) result := by
  constructor
  · intro answer
    exact ⟨_, answer⟩
  · intro runs
    obtain ⟨found, answer, -⟩ := exists_parseFrom ended rule (.start stream.tokenAt) rfl
    have same : found = result := Parser.Runs.unique ⟨_, answer⟩ runs
    exact same ▸ answer

/-- Every rule comes to an answer from every position, whatever the tokens are. The uses of rules
inside each other are at most three per token that is left, and two more; the bound that a run is
given allows for them. The answer is the only one, and it stands between the start and the end of
the stream, or at the start if that lies behind the end. -/
theorem rule_ends_inside_stream (rule : Rule) (state : State)
    (input : state.input = stream.tokenAt) :
    ∃ result,
      rule.parser.run grammar.rules (3 * (stream.size - state.position) + 2) state = some result ∧
      rule.parser.runFrom grammar.rules stream.size state = some result ∧
      (∀ other, rule.parser.Runs grammar.rules state other ↔ other = result) ∧
      state.position ≤ result.state.position ∧
      result.state.position ≤ max state.position stream.size := by
  have small := rule.rank_le_two
  have enough : 3 * (stream.size - state.position) + rule.rank ≤
      3 * (stream.size - state.position) + 2 := by omega
  obtain ⟨result, run, way⟩ := rule_ends ended rule enough state input (Nat.le_refl _)
  have total : Parser.bound grammar.rules stream.size state =
      8 * (stream.size + state.position + 2) := rfl
  have given : 3 * (stream.size - state.position) + 2 ≤
      Parser.bound grammar.rules stream.size state := by omega
  have runs : rule.parser.Runs grammar.rules state result := ⟨_, run⟩
  exact ⟨result, run, Parser.run_mono grammar.rules given _ run, fun _ => runs.iff_eq, way.le,
    way.le_max⟩

end Streams

/-- Brackets and braces that are never closed, and a field without a value. -/
def unclosed : TokenStream :=
  .ofList ([.ofChar '[', .ofChar '[', .ofChar '{', stringKind, .ofChar ':', .ofChar '[',
    .ofChar '{', stringKind, .ofChar ':'].map fun kind => { kind := kind, text := kind.tag }) none

theorem rule_ends_inside_stream_unclosed :
    (unclosed.Ended ∧ ((State.start unclosed.tokenAt).skip 1).input = unclosed.tokenAt) ∧
    ∃ result,
      Rule.list.parser.run grammar.rules 26 ((State.start unclosed.tokenAt).skip 1) =
        some result ∧
      Rule.list.parser.runFrom grammar.rules unclosed.size
        ((State.start unclosed.tokenAt).skip 1) = some result ∧
      (∀ other, Rule.list.parser.Runs grammar.rules ((State.start unclosed.tokenAt).skip 1) other ↔
        other = result) ∧
      1 ≤ result.state.position ∧ result.state.position ≤ max 1 unclosed.size := by
  have ended : unclosed.Ended := fun _ given => nomatch given
  have input : ((State.start unclosed.tokenAt).skip 1).input = unclosed.tokenAt := rfl
  have left : 3 * (unclosed.size - ((State.start unclosed.tokenAt).skip 1).position) + 2 = 26 := rfl
  have answer := rule_ends_inside_stream ended .list _ input
  rw [left] at answer
  exact ⟨⟨ended, input⟩, answer⟩

end Descent.Json
