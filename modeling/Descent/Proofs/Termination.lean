import Descent.Proofs.Evaluation.Runs
import Descent.Proofs.Features
import Descent.Proofs.Reading

/-!
# Termination

On a stream with an end, expressions without custom steps that never consume the end come to an
answer, if the rules that they use do. No run leaves the stream, and a loop goes on only after a
round that has moved, so its rounds are at most as many as the tokens that are left.

An answer is proved together with the positions that it can have, since the next round, or the next
part of a sequence, has to start from there.
-/

namespace Descent

/-- The way from a state to another stays on the input, does not go back, and does not pass the end
of the stream. -/
structure State.StaysIn (stream : TokenStream) (start stop : State) : Prop where
  input_eq : stop.input = start.input
  le : start.position ≤ stop.position
  le_max : stop.position ≤ max start.position stream.size

namespace State.StaysIn

variable {stream : TokenStream} {start middle stop : State}

theorem refl (state : State) : state.StaysIn stream state := ⟨rfl, Nat.le_refl _, by omega⟩

theorem trans (first : start.StaysIn stream middle) (later : middle.StaysIn stream stop) :
    start.StaysIn stream stop := by
  have le := first.le
  have le_max := first.le_max
  have le' := later.le
  have le_max' := later.le_max
  exact ⟨later.input_eq.trans first.input_eq, by omega, by omega⟩

/-- Reports do not move. -/
theorem reject (first : start.StaysIn stream stop) (problem : Problem) :
    start.StaysIn stream (stop.reject problem).state :=
  ⟨first.input_eq, first.le, first.le_max⟩

theorem rewindTo (first : start.StaysIn stream stop) :
    start.StaysIn stream (stop.rewindTo start) :=
  ⟨first.input_eq, Nat.le_refl _, Nat.le_max_left _ _⟩

/-- A token that is not of the end is consumed inside the stream. -/
theorem advance (ended : stream.Ended) (input : start.input = stream.tokenAt)
    (other : start.peek.kind ≠ .endOfInput) : start.StaysIn stream start.advance := by
  have inside : start.position < stream.size := by
    apply ended.lt_size
    rw [← input]
    exact other
  exact ⟨rfl, Nat.le_succ _, by simp only [advance_position]; omega⟩

/-- A way that has moved leaves fewer tokens. -/
theorem left_lt (way : start.StaysIn stream stop) (moved : stop.position ≠ start.position) :
    stream.size - stop.position < stream.size - start.position := by
  have le := way.le
  have le_max := way.le_max
  omega

end State.StaysIn

namespace Step

/-- The step comes to an answer at the state, inside the stream. -/
def EndsAt (stream : TokenStream) (step : Step) (state : State) : Prop :=
  ∃ result, step state = some result ∧ state.StaysIn stream result.state

/-- The step comes to an answer at every position of the stream from `low` on. -/
def Ends (stream : TokenStream) (low : Nat) (step : Step) : Prop :=
  ∀ state : State, state.input = stream.tokenAt → low ≤ state.position → step.EndsAt stream state

variable {stream : TokenStream} {low bound : Nat} {step step' : Step} {steps : List Step}
variable {state start stop : State}

/-- What comes behind an answer can be looked at from the state of the answer. -/
theorem Ends.after (h : Ends stream low step) (input : start.input = stream.tokenAt)
    (after : low ≤ start.position) (way : start.StaysIn stream stop) : step.EndsAt stream stop :=
  h stop (way.input_eq.trans input) (Nat.le_trans after way.le)

/-! ## Tokens -/

theorem token_endsAt {kind : TokenKind} (ended : stream.Ended) (other : kind ≠ .endOfInput)
    (input : state.input = stream.tokenAt) : (token kind).EndsAt stream state := by
  by_cases found : state.peek.kind = kind
  · refine ⟨_, if_pos found, ?_⟩
    exact State.StaysIn.advance ended input (found ▸ other)
  · exact ⟨_, if_neg found, (State.StaysIn.refl state).reject _⟩

/-! ## Composition -/

theorem sequence_nil_endsAt : (sequence []).EndsAt stream state := ⟨_, rfl, .refl state⟩

/-- A sequence ends if its first part does and the others do behind it. -/
theorem sequence_cons_endsAt (first : step.EndsAt stream state)
    (later : ∀ stop, state.StaysIn stream stop → (sequence steps).EndsAt stream stop) :
    (sequence (step :: steps)).EndsAt stream state := by
  obtain ⟨result, run, way⟩ := first
  rw [EndsAt, sequence_cons, run, Option.bind_some]
  split
  · exact ⟨_, rfl, way⟩
  · obtain ⟨rest, run', way'⟩ := later result.state way
    exact ⟨_, by rw [run', Option.map_some], by simpa using way.trans way'⟩

/-- Behind a token the others start one position further on, and only if the token was found. -/
theorem sequence_token_endsAt {kind : TokenKind} (ended : stream.Ended)
    (other : kind ≠ .endOfInput) (input : state.input = stream.tokenAt)
    (later : state.position < stream.size → (sequence steps).EndsAt stream state.advance) :
    (sequence (token kind :: steps)).EndsAt stream state := by
  rw [EndsAt, sequence_cons]
  by_cases found : state.peek.kind = kind
  · have run : token kind state = some ⟨.token state.peek, state.advance⟩ := if_pos found
    have way := State.StaysIn.advance ended input (found ▸ other)
    have moved := way.left_lt (Nat.succ_ne_self _)
    obtain ⟨rest, run', way'⟩ := later (by omega)
    rw [run, Option.bind_some, if_neg (by simp [Result.isFailed]), run']
    exact ⟨_, rfl, by simpa using way.trans way'⟩
  · have run : token kind state = some (state.reject (.mismatch kind state.peek)) := if_neg found
    rw [run]
    exact ⟨_, rfl, (State.StaysIn.refl state).reject _⟩

theorem Ends.sequence (h : ∀ step ∈ steps, Ends stream low step) :
    Ends stream low (sequence steps) := by
  induction steps with
  | nil => exact fun _ _ _ => sequence_nil_endsAt
  | cons step steps ih =>
    intro state input after
    obtain ⟨first, others⟩ := List.forall_mem_cons.mp h
    apply sequence_cons_endsAt (first state input after)
    intro stop way
    exact (ih others).after input after way

theorem choiceFrom_endsAt {ends : List State} (ways : ∀ stop ∈ ends, state.StaysIn stream stop)
    (h : ∀ step ∈ steps, step.EndsAt stream state) :
    (choiceFrom ends steps).EndsAt stream state := by
  induction steps generalizing ends with
  | nil =>
    refine ⟨_, rfl, ?_⟩
    rcases State.exhausted_cases state ends.reverse with gaveUp | ⟨stop, mem, gaveUp⟩
    · rw [gaveUp]
      exact (State.StaysIn.refl state).reject _
    · rw [gaveUp]
      exact ways stop (List.mem_reverse.mp mem)
  | cons step steps ih =>
    obtain ⟨⟨result, run, way⟩, others⟩ := List.forall_mem_cons.mp h
    simp only [EndsAt, choiceFrom, run, Option.bind_eq_bind, Option.bind_some]
    split
    · exact ih (List.forall_mem_cons.mpr ⟨way, ways⟩) others
    · exact ⟨result, rfl, way⟩

theorem choice_endsAt (h : ∀ step ∈ steps, step.EndsAt stream state) :
    (choice steps).EndsAt stream state :=
  choiceFrom_endsAt (fun _ mem => nomatch mem) h

theorem lookahead_endsAt (h : step.EndsAt stream state) : (lookahead step).EndsAt stream state := by
  obtain ⟨result, run, way⟩ := h
  exact ⟨⟨result.tree, result.state.rewindTo state⟩, by simp [lookahead, run], way.rewindTo⟩

theorem production_endsAt (name : String) (h : step.EndsAt stream state) :
    (production name step).EndsAt stream state := by
  obtain ⟨result, run, way⟩ := h
  simp only [EndsAt, production, run, Option.bind_eq_bind, Option.bind_some]
  split
  · exact ⟨_, rfl, way⟩
  · split
    · exact ⟨_, rfl, way⟩
    · exact ⟨_, rfl, way.reject _⟩

theorem labeled_endsAt (name : String) (h : step.EndsAt stream state) :
    (labeled name step).EndsAt stream state := by
  obtain ⟨result, run, way⟩ := h
  simp only [EndsAt, labeled, run, Option.bind_eq_bind, Option.bind_some]
  split <;> exact ⟨_, rfl, way⟩

theorem Ends.terminated (body : Ends stream low step) (terminator : Ends stream low step') :
    Ends stream low (terminated step step') := by
  intro state input after
  obtain ⟨result, run, way⟩ := body state input after
  simp only [EndsAt, Step.terminated, run, Option.bind_eq_bind, Option.bind_some]
  split
  · exact ⟨_, rfl, way⟩
  · obtain ⟨closing, run', way'⟩ := terminator.after input after way
    rw [run', Option.bind_some]
    split <;> exact ⟨_, rfl, way.trans way'⟩

/-! ## Loops -/

/-- Skipping ends at the end of the stream at the latest. -/
theorem exists_skipPast (kind : TokenKind) (ended : stream.Ended)
    (input : state.input = stream.tokenAt) (enough : stream.size - state.position < bound) :
    ∃ stop, state.skipPast kind bound = some stop ∧ state.StaysIn stream stop := by
  induction bound generalizing state with
  | zero => exact absurd enough (Nat.not_lt_zero _)
  | succ bound ih =>
    simp only [State.skipPast]
    split
    · exact ⟨state, rfl, .refl state⟩
    · next inside =>
      have other : state.peek.kind ≠ .endOfInput := mt TokenKind.isEnd_iff.mpr inside
      have way := State.StaysIn.advance ended input other
      split
      · exact ⟨state.advance, rfl, way⟩
      · have fewer := way.left_lt (Nat.succ_ne_self _)
        obtain ⟨stop, skipped, way'⟩ :=
          ih (show state.advance.input = stream.tokenAt from input) (by omega)
        exact ⟨stop, skipped, way.trans way'⟩

/-- A repetition ends: a round that does not end it leaves fewer tokens. -/
theorem Ends.many (h : Ends stream low step) (enough : stream.size - low < bound) :
    Ends stream low (many bound step) := by
  intro state input after
  replace enough : stream.size - state.position < bound := by omega
  induction bound generalizing state with
  | zero => exact absurd enough (Nat.not_lt_zero _)
  | succ bound ih =>
    obtain ⟨round, run, way⟩ := h state input after
    rw [EndsAt, many_succ, run, Option.bind_some]
    split
    · exact ⟨_, rfl, .refl state⟩
    · next goesOn =>
      simp only [Bool.or_eq_true, decide_eq_true_eq, not_or] at goesOn
      have fewer := way.left_lt goesOn.2
      obtain ⟨later, run', way'⟩ := ih round.state (way.input_eq.trans input)
        (Nat.le_trans after way.le) (by omega)
      exact ⟨_, by rw [run', Option.map_some], by simpa using way.trans way'⟩

theorem Ends.many1 (h : Ends stream low step) (enough : stream.size - low < bound) :
    Ends stream low (many1 bound step) := by
  intro state input after
  obtain ⟨first, run, way⟩ := h state input after
  rw [EndsAt, many1_eq, run, Option.bind_some]
  split
  · exact ⟨_, rfl, way⟩
  · obtain ⟨later, run', way'⟩ := (h.many enough).after input after way
    exact ⟨_, by rw [run', Option.map_some], by simpa using way.trans way'⟩

/-- A list ends, whatever its elements and delimiters do: a round in which both together do not move
is the last one. -/
theorem Ends.separated (element : Ends stream low step) (delimiter : Ends stream low step')
    (enough : stream.size - low < bound) (required : Bool) :
    Ends stream low (separated bound required step step') := by
  intro state input after
  replace enough : stream.size - state.position < bound := by omega
  induction bound generalizing required state with
  | zero => exact absurd enough (Nat.not_lt_zero _)
  | succ bound ih =>
    obtain ⟨next, run, way⟩ := element state input after
    rw [EndsAt, separated_succ, run, Option.bind_some]
    split
    · cases required with
      | true => exact ⟨_, rfl, way⟩
      | false => exact ⟨_, rfl, .refl state⟩
    · obtain ⟨mark, run', way'⟩ := delimiter.after input after way
      rw [run', Option.bind_some]
      have round := way.trans way'
      split
      · exact ⟨_, rfl, way⟩
      · split
        · exact ⟨_, rfl, round⟩
        · next moved =>
          have fewer := round.left_lt moved
          obtain ⟨later, run'', way''⟩ := ih false mark.state (round.input_eq.trans input)
            (Nat.le_trans after round.le) (by omega)
          exact ⟨_, by rw [run'', Option.map_some], by simpa using round.trans way''⟩

end Step

namespace Recovery

variable {stream : TokenStream} {recovery : Recovery} {start stop : State} {bound : Nat}

/-- Every recovery but a custom one answers to a failure inside the stream. -/
theorem exists_answer (ended : stream.Ended)
    (standard : ∀ keep action, recovery ≠ .custom keep action)
    (input : start.input = stream.tokenAt) (way : start.StaysIn stream stop)
    (enough : stream.size - start.position < bound) :
    ∃ result, recovery.answer bound start stop = some result ∧
      start.StaysIn stream result.state := by
  cases recovery with
  | fail => exact ⟨_, rfl, way⟩
  | backtrack => exact ⟨_, rfl, .refl start⟩
  | skipPast kind =>
    have le := way.le
    have enough' : stream.size - stop.position < bound := by omega
    obtain ⟨after, skipped, way'⟩ :=
      Step.exists_skipPast kind ended (way.input_eq.trans input) enough'
    exact ⟨⟨.nothing, after⟩, by simp [answer, skipped], way.trans way'⟩
  | custom keep action => exact absurd rfl (standard keep action)

end Recovery

namespace Step

variable {stream : TokenStream} {low bound : Nat} {step : Step} {recovery : Recovery}

theorem Ends.recover (h : Ends stream low step) (ended : stream.Ended)
    (standard : ∀ keep action, recovery ≠ .custom keep action)
    (enough : stream.size - low < bound) :
    Ends stream low (recover recovery.keepsReports (recovery.answer bound) step) := by
  intro state input after
  obtain ⟨result, run, way⟩ := h state input after
  simp only [EndsAt, Step.recover, run, Option.bind_eq_bind, Option.bind_some]
  split
  · refine Recovery.exists_answer ended standard input ?_ (by omega)
    split
    · exact way
    · exact ⟨way.input_eq, way.le, way.le_max⟩
  · exact ⟨result, rfl, way⟩

end Step

namespace Parser

variable {stream : TokenStream} {table : RuleTable} {parser : Parser} {low bound : Nat}

/-- What an expression needs to end from a position on, apart from its parts. -/
def CanEnd (stream : TokenStream) (table : RuleTable) (low bound : Nat) : Parser → Prop
  | token kind => kind ≠ .endOfInput
  | recover (.custom ..) _ => False
  | rule id => Step.Ends stream low ((rule id).run table bound)
  | custom _ => False
  | _ => True

/-- Everything that the expression contains can end. -/
def Grounded (stream : TokenStream) (table : RuleTable) (low bound : Nat) (parser : Parser) :
    Prop :=
  ∀ target : Parser, parser.Contains target → target.CanEnd stream table low bound

namespace Grounded

theorem own (h : parser.Grounded stream table low bound) : parser.CanEnd stream table low bound :=
  h parser .self

theorem part {part : Parser} (h : parser.Grounded stream table low bound)
    (mem : part ∈ parser.parts) : part.Grounded stream table low bound :=
  fun target within => h target (.part mem within)

theorem first {part : Parser} {rest : List Parser} (h : parser.Grounded stream table low bound)
    (parts : parser.parts = part :: rest) : part.Grounded stream table low bound :=
  h.part (parts ▸ List.mem_cons_self)

theorem second {first part : Parser} {rest : List Parser}
    (h : parser.Grounded stream table low bound) (parts : parser.parts = first :: part :: rest) :
    part.Grounded stream table low bound :=
  h.part (parts ▸ List.mem_cons_of_mem _ List.mem_cons_self)

end Grounded

theorem run_token (kind : TokenKind) : (token kind).run table bound = Step.token kind := by
  cases bound <;> rfl

mutual

/-- An expression ends if everything that it contains can end. -/
theorem run_ends (ended : stream.Ended) (enough : stream.size - low < bound) :
    ∀ parser : Parser, parser.Grounded stream table low bound →
      Step.Ends stream low (parser.run table bound)
  | token kind, grounded => fun state input _ => by
    rw [run_token]
    exact Step.token_endsAt ended grounded.own input
  | sequence parts, grounded => by
    rw [run_sequence]
    exact .sequence (run_ends_each ended enough parts fun _ mem => grounded.part mem)
  | choice alternatives, grounded => fun state input after => by
    have each := run_ends_each ended enough alternatives fun _ mem => grounded.part mem
    rw [run_choice]
    exact Step.choice_endsAt fun step mem => each step mem state input after
  | lookahead body, grounded => fun state input after => by
    rw [run_lookahead]
    exact Step.lookahead_endsAt (run_ends ended enough body (grounded.first rfl) state input after)
  | recover recovery body, grounded => by
    have standard : ∀ keep action, recovery ≠ .custom keep action := by
      rintro keep action rfl
      exact grounded.own
    rw [run_recover]
    exact (run_ends ended enough body (grounded.first rfl)).recover ended standard enough
  | many body, grounded => by
    rw [run_many]
    exact (run_ends ended enough body (grounded.first rfl)).many enough
  | many1 body, grounded => by
    rw [run_many1]
    exact (run_ends ended enough body (grounded.first rfl)).many1 enough
  | separated required element delimiter, grounded => by
    have between := run_ends ended enough delimiter (grounded.second rfl)
    rw [run_separated]
    exact (run_ends ended enough element (grounded.first rfl)).separated between enough required
  | terminated body terminator, grounded => by
    have closing := run_ends ended enough terminator (grounded.second rfl)
    rw [run_terminated]
    exact (run_ends ended enough body (grounded.first rfl)).terminated closing
  | production name body, grounded => fun state input after => by
    rw [run_production]
    exact Step.production_endsAt name
      (run_ends ended enough body (grounded.first rfl) state input after)
  | labeled name body, grounded => fun state input after => by
    rw [run_labeled]
    exact Step.labeled_endsAt name
      (run_ends ended enough body (grounded.first rfl) state input after)
  | rule _, grounded => grounded.own
  | custom _, grounded => grounded.own.elim

theorem run_ends_each (ended : stream.Ended) (enough : stream.size - low < bound) :
    ∀ parts : List Parser, (∀ part ∈ parts, part.Grounded stream table low bound) →
      ∀ step ∈ parts.map (run table bound), Step.Ends stream low step
  | [], _ => fun _ mem => nomatch mem
  | part :: rest, grounded => by
    obtain ⟨first, others⟩ := List.forall_mem_cons.mp grounded
    exact List.forall_mem_cons.mpr
      ⟨run_ends ended enough part first, run_ends_each ended enough rest others⟩

end

/-- An expression without rules ends if it consists of standard combinators and does not consume the
end. -/
theorem grounded_of_ruleFree (plain : parser.Lacks table .custom)
    (ruleFree : ∀ id, ¬ parser.Contains (rule id)) (inside : ¬ parser.Contains endOfInput) :
    parser.Grounded stream table low bound := by
  intro target within
  have standard : target.Lacks table .custom := plain.reached within.reaches
  cases target with
  | token kind =>
    rintro rfl
    exact inside within
  | recover recovery body =>
    cases recovery with
    | custom => exact standard.own rfl
    | _ => trivial
  | rule id => exact absurd within (ruleFree id)
  | custom => exact standard.own rfl
  | _ => trivial

/-- The bound of a run is enough for loops over the whole stream. -/
theorem size_lt_bound (table : RuleTable) (stream : TokenStream) (state : State) :
    stream.size < Parser.bound table stream.size state := by
  have rules : 1 * (stream.size + state.position + 2) ≤ Parser.bound table stream.size state :=
    Nat.mul_le_mul_right _ (Nat.le_add_left 1 _)
  omega

/-- Every loop ends, and no run leaves its stream. An expression without rules and custom steps that
does not consume the end comes to an answer, within the bound that a run is given. It is the only
answer, and it stands between the start and the end of the stream, or at the start if that lies
behind the end. -/
theorem runs_end_inside_stream {state : State} (ended : stream.Ended)
    (plain : parser.Lacks table .custom) (ruleFree : ∀ id, ¬ parser.Contains (rule id))
    (inside : ¬ parser.Contains endOfInput) (input : state.input = stream.tokenAt) :
    ∃ result, parser.runFrom table stream.size state = some result ∧
      (∀ other, parser.Runs table state other ↔ other = result) ∧
      state.position ≤ result.state.position ∧
      result.state.position ≤ max state.position stream.size := by
  have enough := size_lt_bound table stream state
  have grounded : parser.Grounded stream table 0 (Parser.bound table stream.size state) :=
    grounded_of_ruleFree plain ruleFree inside
  obtain ⟨result, run, way⟩ :=
    run_ends ended (by omega) parser grounded state input (Nat.zero_le _)
  have runs : parser.Runs table state result := ⟨_, run⟩
  refine ⟨result, run, fun other => ⟨fun others => others.unique runs, ?_⟩, way.le, way.le_max⟩
  rintro rfl
  exact runs

/-- Loops over parts that match nothing: a list of optional crosses with optional commas, optional
zeros, and a semicolon that is looked for up to the end. -/
def stalling : Parser :=
  sequence [separatedBy (optional (char 'x')) (optional (char ',')), many (optional (char '0')),
    recoverTo (.ofChar ';') (char '!')]

def stallingTokens : TokenStream :=
  .ofList [{ kind := .ofChar 'x', text := "x" }, { kind := .ofChar ',', text := "," },
    { kind := .ofChar '0', text := "0" }, { kind := .ofChar '?', text := "?" }] none

theorem runs_end_inside_stream_stalling :
    (stallingTokens.Ended ∧ stalling.Lacks .empty .custom ∧
      (∀ id, ¬ stalling.Contains (rule id)) ∧ ¬ stalling.Contains endOfInput) ∧
    ∃ result,
      stalling.runFrom .empty stallingTokens.size (.start stallingTokens.tokenAt) = some result ∧
      (∀ other, stalling.Runs .empty (.start stallingTokens.tokenAt) other ↔ other = result) ∧
      0 ≤ result.state.position ∧ result.state.position ≤ max 0 stallingTokens.size := by
  have ended : stallingTokens.Ended := fun _ given => nomatch given
  have plain : stalling.Lacks .empty .custom := lacks_of_not_mentions rfl rfl
  have ruleFree : ∀ id, ¬ stalling.Contains (rule id) := fun id within =>
    nomatch within.textHas (fun | rule _ => true | _ => false) rfl
  have inside : ¬ stalling.Contains endOfInput := fun within =>
    nomatch within.textHas (fun | token kind => kind.isEnd | _ => false) rfl
  exact ⟨⟨ended, plain, ruleFree, inside⟩,
    runs_end_inside_stream ended plain ruleFree inside rfl⟩

end Parser

end Descent
