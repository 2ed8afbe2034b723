import Descent.Proofs.Resynchronisation

/-!
# Confinement

An expression is confined if no custom step and no end of the input is among those that it reaches.
Wherever a run of such an expression comes to an answer, it has stayed inside the stream: it has not
gone back, and it has not passed the end. That the rules come to an answer is not asked for.
-/

namespace Descent

/-- What comes behind a way that stays inside starts on the same input. -/
theorem State.StaysIn.andThen {stream : TokenStream} {start middle stop : State}
    (way : start.StaysIn stream middle)
    (later : middle.input = stream.tokenAt → middle.StaysIn stream stop)
    (input : start.input = stream.tokenAt) : start.StaysIn stream stop :=
  way.trans (later (way.input_eq.trans input))

namespace Parser

variable {table : RuleTable} {resync : Prop} {parser : Parser} {stream : TokenStream}
variable {state : State} {result : Result}

/-- The expression reaches no custom step and does not consume the end. -/
structure Confined (table : RuleTable) (parser : Parser) : Prop where
  plain : parser.Lacks table .custom
  spares : ¬ parser.Reaches table endOfInput

namespace Confined

theorem part {part : Parser} (h : parser.Confined table) (mem : part ∈ parser.parts) :
    part.Confined table :=
  ⟨h.plain.part mem, fun reaches => h.spares (.part mem reaches)⟩

theorem first {part : Parser} {rest : List Parser} (h : parser.Confined table)
    (parts : parser.parts = part :: rest) : part.Confined table :=
  h.part (parts ▸ List.mem_cons_self)

theorem second {first part : Parser} {rest : List Parser} (h : parser.Confined table)
    (parts : parser.parts = first :: part :: rest) : part.Confined table :=
  h.part (parts ▸ List.mem_cons_of_mem _ List.mem_cons_self)

theorem body {id : RuleId} {body : Parser} (h : (rule id).Confined table)
    (bound : (table.rule id).body = some body) : body.Confined table :=
  ⟨h.plain.body bound, fun reaches => h.spares (.body bound reaches)⟩

/-- An expression other than a rule is confined if it is by itself and its parts are. -/
theorem of_parts (notRule : ∀ id, parser ≠ rule id) (own : parser.feature? ≠ some .custom)
    (notEnd : parser ≠ endOfInput) (parts : ∀ part ∈ parser.parts, part.Confined table) :
    parser.Confined table := by
  refine ⟨lacks_of_parts notRule own fun part mem => (parts part mem).plain, fun reaches => ?_⟩
  cases reaches with
  | self => exact notEnd rfl
  | part mem further => exact (parts _ mem).spares further
  | body => exact notRule _ rfl

theorem rest {part : Parser} {rest : List Parser}
    (h : (sequence (part :: rest)).Confined table) : (sequence rest).Confined table :=
  of_parts (by simp) (by simp [feature?]) (by simp [endOfInput]) fun _ mem =>
    h.part (List.mem_cons_of_mem _ mem)

theorem chosen {part : Parser} {before rest : List Parser}
    (h : (choice (before ++ part :: rest)).Confined table) : part.Confined table :=
  h.part List.mem_append_cons_self

theorem many {body : Parser} (h : (many1 body).Confined table) : (many body).Confined table :=
  of_parts (by simp) (by simp [feature?]) (by simp [endOfInput]) fun _ mem => h.part mem

theorem separated {required : Bool} {element delimiter : Parser}
    (h : (separated required element delimiter).Confined table) :
    (Parser.separated false element delimiter).Confined table :=
  of_parts (by simp) (by simp [feature?]) (by simp [endOfInput]) fun _ mem => h.part mem

/-- The tokens of a confined expression are not of the end. -/
theorem kind_ne {kind : TokenKind} (h : (token kind).Confined table) : kind ≠ .endOfInput := by
  rintro rfl
  exact h.spares .self

end Confined

/-- The answer of a confined expression lies inside the stream. -/
theorem Evaluates.staysIn (h : parser.Evaluates table resync state result)
    (confined : parser.Confined table) (ended : stream.Ended)
    (input : state.input = stream.tokenAt) : state.StaysIn stream result.state := by
  induction h with
  | token found => exact .advance ended input (found ▸ confined.kind_ne)
  | mismatch | unbound => exact (State.StaysIn.refl _).reject _
  | sequenceNil | backtracked | manyFailed | manyStayed | separatedNil => exact .refl _
  | sequenceStopped _ _ _ first later | sequenceCons _ _ _ first later =>
    exact (first (confined.first rfl) input).andThen (later confined.rest) input
  | chosen _ _ _ _ taken => exact taken confined.chosen input
  | @exhausted state refused _ failures =>
    obtain gaveUp | ⟨stop, mem, gaveUp⟩ :=
      State.exhausted_cases state (refused.map Prod.snd)
    · rw [gaveUp]
      exact (State.StaysIn.refl _).reject _
    · obtain ⟨attempt, tried, rfl⟩ := List.mem_map.mp mem
      rw [gaveUp]
      exact failures attempt tried (confined.part (List.mem_map_of_mem tried)) input
  | lookahead _ seen => exact (seen (confined.first rfl) input).rewindTo
  | sequenceFailed _ attempt | recoverPassed _ _ attempt | rootFailed _ attempt
  | many1Failed _ attempt
  | separatedRefused _ attempt | terminatedFailed _ attempt | productionFailed _ attempt
  | labeledFailed _ attempt | production _ _ _ attempt | labeled _ _ attempt
  | separatedLast _ _ _ attempt =>
    exact attempt (confined.first rfl) input
  | resynchronised _ _ skipped attempt =>
    exact (attempt (confined.first rfl) input).andThen (.skipPast ended · skipped) input
  | manyNext _ _ _ _ round later =>
    exact (round (confined.first rfl) input).andThen (later confined) input
  | many1 _ _ _ first later =>
    exact (first (confined.first rfl) input).andThen (later confined.many) input
  | separatedStayed _ _ _ _ _ first between =>
    exact (first (confined.first rfl) input).andThen (between (confined.second rfl)) input
  | separatedNext _ _ _ _ _ _ first between later =>
    have round := (first (confined.first rfl) input).andThen (between (confined.second rfl)) input
    exact round.andThen (later confined.separated) input
  | terminatedOpen _ _ _ first last | terminated _ _ _ _ first last =>
    exact (first (confined.first rfl) input).andThen (last (confined.second rfl)) input
  | malformed _ _ _ content => exact (content (confined.first rfl) input).reject _
  | rule bound _ answer => exact answer (confined.body bound) input
  | recoverCustom | custom => exact (confined.plain.own rfl).elim

theorem Runs.staysIn (runs : parser.Runs table state result) (confined : parser.Confined table)
    (ended : stream.Ended) (input : state.input = stream.tokenAt) :
    state.StaysIn stream result.state :=
  (runs_iff_evaluates.mp runs).staysIn confined ended input

end Parser

end Descent
