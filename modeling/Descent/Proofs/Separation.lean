import Descent.Proofs.Evaluation.Rounds

/-!
# Separated lists

A list of elements with delimiters between them is a first element, any number of rounds of a
delimiter and an element, and a last delimiter that may be missing. Its loop answers as the
expressions of this form do, one after another: a repetition of rounds and an optional delimiter.
The repetition gives up a delimiter that no element follows, and the optional delimiter finds it
again.

For this an element that succeeds has to move on, and a delimiter must not go back. Otherwise the
loop and the repetition would end for different reasons.

`Continues` is what both have in common: how a list goes on behind an element.
-/

namespace Descent

namespace Parser

/-- Whenever the expression succeeds it has moved on. -/
def Advances (table : RuleTable) (parser : Parser) : Prop :=
  ∀ ⦃start tree stop⦄, parser.Runs table start ⟨tree, stop⟩ → tree ≠ .failed →
    start.position < stop.position

/-- Whenever the expression succeeds it has not gone back. -/
def NeverReturns (table : RuleTable) (parser : Parser) : Prop :=
  ∀ ⦃start tree stop⦄, parser.Runs table start ⟨tree, stop⟩ → tree ≠ .failed →
    start.position ≤ stop.position

/-- How a list goes on behind an element, with the trees of the elements that follow. -/
inductive Continues (table : RuleTable) (element delimiter : Parser) :
    State → List Tree → State → Prop where
  | ended {middle stop} (missing : delimiter.Runs table middle ⟨.failed, stop⟩) :
      Continues table element delimiter middle [] middle
  | trailing {middle mark next stop} (between : delimiter.Runs table middle ⟨mark, next⟩)
      (marked : mark ≠ .failed) (missing : element.Runs table next ⟨.failed, stop⟩) :
      Continues table element delimiter middle [] next
  | next {middle mark next tree later trees stop}
      (between : delimiter.Runs table middle ⟨mark, next⟩) (marked : mark ≠ .failed)
      (another : element.Runs table next ⟨tree, later⟩) (success : tree ≠ .failed)
      (more : Continues table element delimiter later trees stop) :
      Continues table element delimiter middle (tree :: trees) stop

/-- The same in expressions: rounds of a delimiter and an element, and then a delimiter that may be
missing. The trees are those of the elements in the rounds. -/
def Rounds (table : RuleTable) (element delimiter : Parser) (middle : State) (trees : List Tree)
    (stop : State) : Prop :=
  ∃ (rounds : List (Tree × Tree)) (back : State) (closing : Tree),
    (many (sequence [delimiter, element])).Runs table middle
      ⟨.sequence (rounds.map fun round => .sequence [round.1, round.2]), back⟩ ∧
    (optional delimiter).Runs table back ⟨closing, stop⟩ ∧
    trees = rounds.map Prod.snd

section Lists

variable {table : RuleTable} {element delimiter : Parser}
variable {start middle next later stop : State} {tree mark : Tree} {trees : List Tree}
variable {required : Bool} {result : Result}

/-! ## The loop -/

/-- A round does not end where it began. -/
theorem round_moved (advances : element.Advances table) (steady : delimiter.NeverReturns table)
    (first : element.Runs table start ⟨tree, middle⟩) (success : tree ≠ .failed)
    (between : delimiter.Runs table middle ⟨mark, next⟩) (marked : mark ≠ .failed) :
    next.position ≠ start.position := by
  have further := advances first success
  have kept := steady between marked
  omega

/-- What goes on behind an element is what the loop finds there. -/
theorem Continues.runs (advances : element.Advances table)
    (steady : delimiter.NeverReturns table)
    (more : Continues table element delimiter middle trees stop)
    (first : element.Runs table start ⟨tree, middle⟩) (success : tree ≠ .failed) :
    (separated required element delimiter).Runs table start ⟨.sequence (tree :: trees), stop⟩ := by
  induction more generalizing start tree required with
  | ended missing => exact runs_separated.mpr (.inr ⟨_, _, first, success, .inl ⟨_, missing, rfl⟩⟩)
  | @trailing middle mark next stop between marked missing =>
    have moved := round_moved advances steady first success between marked
    have none : (separated false element delimiter).Runs table next ⟨.sequence [], next⟩ :=
      runs_separated.mpr (.inl ⟨_, missing, rfl⟩)
    exact runs_separated.mpr (.inr ⟨_, _, first, success,
      .inr ⟨_, _, between, marked, .inr ⟨moved, _, _, none, rfl⟩⟩⟩)
  | next between marked another success' _ ih =>
    have moved := round_moved advances steady first success between marked
    exact runs_separated.mpr (.inr ⟨_, _, first, success,
      .inr ⟨_, _, between, marked, .inr ⟨moved, _, _, ih another success', rfl⟩⟩⟩)

/-- The loop behind a delimiter finds what goes on behind the element before it. -/
theorem Runs.continues (advances : element.Advances table)
    (steady : delimiter.NeverReturns table)
    (between : delimiter.Runs table middle ⟨mark, next⟩) (marked : mark ≠ .failed)
    (loop : (separated false element delimiter).Runs table next ⟨.sequence trees, stop⟩) :
    Continues table element delimiter middle trees stop := by
  induction trees generalizing middle mark next with
  | nil =>
    obtain ⟨_, missing, same⟩ | ⟨_, _, _, _, ⟨_, _, same⟩ |
      ⟨_, _, _, _, ⟨_, same⟩ | ⟨_, _, _, _, same⟩⟩⟩ := runs_separated.mp loop
    · cases same
      exact .trailing between marked missing
    all_goals cases same
  | cons tree trees ih =>
    obtain ⟨_, _, same⟩ | ⟨_, _, another, success, ⟨_, missing, same⟩ |
      ⟨_, _, between', marked', ⟨stayed, _⟩ | ⟨_, _, _, later, same⟩⟩⟩ := runs_separated.mp loop
    · cases same
    · cases same
      exact .next between marked another success (.ended missing)
    · exact absurd stayed (round_moved advances steady another success between' marked')
    · cases same
      exact .next between marked another success (ih between' marked' later)

/-- A list is refused, or empty, where its first element fails. Otherwise it begins with that
element and goes on behind it. -/
theorem runs_separated_iff_continues (advances : element.Advances table)
    (steady : delimiter.NeverReturns table) :
    (separated required element delimiter).Runs table start result ↔
      (∃ stop, element.Runs table start ⟨.failed, stop⟩ ∧
        result = if required then ⟨.failed, stop⟩ else ⟨.sequence [], start⟩) ∨
      ∃ tree middle trees stop, element.Runs table start ⟨tree, middle⟩ ∧ tree ≠ .failed ∧
        Continues table element delimiter middle trees stop ∧
        result = ⟨.sequence (tree :: trees), stop⟩ := by
  constructor
  · intro loop
    obtain missing | ⟨tree, middle, first, success, ⟨_, missing, rfl⟩ |
      ⟨_, _, between, marked, ⟨stayed, _⟩ | ⟨_, _, _, later, rfl⟩⟩⟩ := runs_separated.mp loop
    · exact .inl missing
    · exact .inr ⟨tree, middle, [], middle, first, success, .ended missing, rfl⟩
    · exact absurd stayed (round_moved advances steady first success between marked)
    · exact .inr ⟨tree, middle, _, _, first, success,
        Runs.continues advances steady between marked later, rfl⟩
  · rintro (missing | ⟨tree, middle, trees, stop, first, success, more, rfl⟩)
    · exact runs_separated.mpr (.inl missing)
    · exact more.runs advances steady first success

/-! ## The rounds -/

/-- A round is a delimiter with an element behind it. -/
theorem runs_round {entries : List Tree} :
    (sequence [delimiter, element]).Runs table middle ⟨.sequence entries, later⟩ ↔
      ∃ mark next tree, delimiter.Runs table middle ⟨mark, next⟩ ∧ mark ≠ .failed ∧
        element.Runs table next ⟨tree, later⟩ ∧ tree ≠ .failed ∧ entries = [mark, tree] := by
  simp only [runs_iff_evaluates]
  constructor
  · intro run
    cases run with
    | sequenceCons between marked rest =>
      cases rest with
      | sequenceCons another success rest =>
        cases rest
        exact ⟨_, _, _, between, marked, another, success, rfl⟩
  · rintro ⟨mark, next, tree, between, marked, another, success, rfl⟩
    exact .sequenceCons between marked (.sequenceCons another success .sequenceNil)

/-- A round fails for want of a delimiter or of an element behind it. -/
theorem runs_round_failed :
    (sequence [delimiter, element]).Runs table middle ⟨.failed, stop⟩ ↔
      delimiter.Runs table middle ⟨.failed, stop⟩ ∨
      ∃ mark next, delimiter.Runs table middle ⟨mark, next⟩ ∧ mark ≠ .failed ∧
        element.Runs table next ⟨.failed, stop⟩ := by
  simp only [runs_iff_evaluates]
  constructor
  · intro run
    cases run with
    | sequenceFailed missing => exact .inl missing
    | sequenceStopped between marked rest =>
      cases rest with
      | sequenceFailed missing => exact .inr ⟨_, _, between, marked, missing⟩
      | sequenceStopped _ _ rest => cases rest
  · rintro (missing | ⟨mark, next, between, marked, missing⟩)
    · exact .sequenceFailed missing
    · exact .sequenceStopped between marked (.sequenceFailed missing)

/-- A round moves on with its element. -/
theorem round_advances (advances : element.Advances table)
    (steady : delimiter.NeverReturns table) :
    (sequence [delimiter, element]).Advances table := by
  intro start tree stop run success
  obtain ⟨_, same⟩ | ⟨entries, _, same⟩ := (runs_iff_evaluates.mp run).sequence_cases
  · cases same
    exact absurd rfl success
  · cases same
    obtain ⟨mark, next, tree, between, marked, another, success, -⟩ := runs_round.mp run
    have kept := steady between marked
    have further := advances another success
    omega

/-- What goes on behind an element are rounds. -/
theorem Continues.rounds (advances : element.Advances table)
    (steady : delimiter.NeverReturns table)
    (more : Continues table element delimiter middle trees stop) :
    Rounds table element delimiter middle trees stop := by
  induction more with
  | @ended middle stop missing =>
    have refused : (sequence [delimiter, element]).Runs table middle ⟨.failed, stop⟩ :=
      runs_round_failed.mpr (.inl missing)
    exact ⟨[], middle, .nothing, runs_many.mpr (.inl ⟨_, _, refused, .inl rfl, rfl⟩),
      runs_optional.mpr (.inr ⟨_, missing, rfl⟩), rfl⟩
  | @trailing middle mark next stop between marked missing =>
    have refused := runs_round_failed.mpr (.inr ⟨_, _, between, marked, missing⟩)
    exact ⟨[], middle, mark, runs_many.mpr (.inl ⟨_, _, refused, .inl rfl, rfl⟩),
      runs_optional.mpr (.inl ⟨between, marked⟩), rfl⟩
  | @next middle mark next tree later trees stop between marked another success _ ih =>
    obtain ⟨rounds, back, closing, others, last, rfl⟩ := ih
    have round := runs_round.mpr ⟨_, _, _, between, marked, another, success, rfl⟩
    have moved := Nat.ne_of_gt (round_advances advances steady round (by simp))
    exact ⟨(mark, tree) :: rounds, back, closing,
      runs_many.mpr (.inr ⟨_, _, _, _, round, by simp, moved, others, rfl⟩), last, rfl⟩

/-- Rounds are what goes on behind an element. -/
theorem Rounds.continues (advances : element.Advances table)
    (steady : delimiter.NeverReturns table)
    (rounds : Rounds table element delimiter middle trees stop) :
    Continues table element delimiter middle trees stop := by
  obtain ⟨rounds, back, closing, repeated, last, rfl⟩ := rounds
  induction rounds generalizing middle with
  | nil =>
    obtain ⟨tree, after, attempt, ends, same⟩ | ⟨_, _, _, _, _, _, _, _, same⟩ :=
      runs_many.mp repeated
    · cases same
      have failed : tree = .failed := by
        rcases ends with failed | stayed
        · exact failed
        · refine Classical.byContradiction fun success => ?_
          exact Nat.ne_of_gt (round_advances advances steady attempt success) stayed
      subst failed
      obtain missing | ⟨mark, next, between, marked, missing⟩ := runs_round_failed.mp attempt
      · obtain ⟨found, success⟩ | ⟨_, _, same⟩ := runs_optional.mp last
        · cases found.unique missing
          exact absurd rfl success
        · cases same
          exact .ended missing
      · obtain ⟨found, _⟩ | ⟨_, missing', _⟩ := runs_optional.mp last
        · cases found.unique between
          exact .trailing between marked missing
        · cases missing'.unique between
          exact absurd rfl marked
    · cases same
  | cons round rounds ih =>
    obtain ⟨_, _, _, _, same⟩ | ⟨_, _, _, _, first, _, _, others, same⟩ := runs_many.mp repeated
    · cases same
    · cases same
      obtain ⟨mark, next, tree, between, marked, another, success, same⟩ := runs_round.mp first
      cases same
      exact .next between marked another success (ih others)

/-! ## The forms of lists -/

/-- The form of a list: an element, rounds, and perhaps a last delimiter. The trees are those of all
elements, and `stop` is where the last delimiter or else the last element ends. -/
def ListForm (table : RuleTable) (element delimiter : Parser) (start : State) (trees : List Tree)
    (stop : State) : Prop :=
  ∃ tree middle rest, element.Runs table start ⟨tree, middle⟩ ∧ tree ≠ .failed ∧
    Rounds table element delimiter middle rest stop ∧ trees = tree :: rest

/-- What a terminator makes of a list: the list, ending behind it, or its failure. -/
def Closes (table : RuleTable) (terminator : Parser) (trees : List Tree) (stop : State)
    (result : Result) : Prop :=
  (∃ after, terminator.Runs table stop ⟨.failed, after⟩ ∧ result = ⟨.failed, after⟩) ∨
  ∃ closing after, terminator.Runs table stop ⟨closing, after⟩ ∧ closing ≠ .failed ∧
    result = ⟨.sequence trees, after⟩

theorem runs_separated_iff_listForm (advances : element.Advances table)
    (steady : delimiter.NeverReturns table) :
    (separated required element delimiter).Runs table start result ↔
      (∃ stop, element.Runs table start ⟨.failed, stop⟩ ∧
        result = if required then ⟨.failed, stop⟩ else ⟨.sequence [], start⟩) ∨
      ∃ trees stop, ListForm table element delimiter start trees stop ∧
        result = ⟨.sequence trees, stop⟩ := by
  rw [runs_separated_iff_continues advances steady]
  refine or_congr_right ⟨?_, ?_⟩
  · rintro ⟨tree, middle, rest, stop, first, success, more, rfl⟩
    exact ⟨_, stop, ⟨tree, middle, rest, first, success, more.rounds advances steady, rfl⟩, rfl⟩
  · rintro ⟨_, stop, ⟨tree, middle, rest, first, success, rounds, rfl⟩, rfl⟩
    exact ⟨tree, middle, rest, stop, first, success, rounds.continues advances steady, rfl⟩

/-- A list that a terminator closes. Where the list is refused there is nothing to close. -/
theorem runs_terminated_iff_listForm {terminator : Parser} (advances : element.Advances table)
    (steady : delimiter.NeverReturns table) :
    (terminated (separated required element delimiter) terminator).Runs table start result ↔
      (∃ stop, element.Runs table start ⟨.failed, stop⟩ ∧
        if required then result = ⟨.failed, stop⟩ else Closes table terminator [] start result) ∨
      ∃ trees stop, ListForm table element delimiter start trees stop ∧
        Closes table terminator trees stop result := by
  constructor
  · intro run
    obtain ⟨stop, refused, rfl⟩ | ⟨tree, middle, body, success, closes⟩ := runs_terminated.mp run
    · obtain ⟨_, missing, same⟩ | ⟨_, _, _, same⟩ :=
        (runs_separated_iff_listForm advances steady).mp refused
      · cases required <;> cases same
        exact .inl ⟨_, missing, rfl⟩
      · cases same
    · obtain ⟨_, missing, same⟩ | ⟨trees, _, form, same⟩ :=
        (runs_separated_iff_listForm advances steady).mp body
      · cases required <;> cases same
        · exact .inl ⟨_, missing, closes⟩
        · exact absurd rfl success
      · cases same
        exact .inr ⟨trees, _, form, closes⟩
  · rintro (⟨stop, missing, answer⟩ | ⟨trees, stop, form, closes⟩)
    · have list : (separated required element delimiter).Runs table start _ :=
        (runs_separated_iff_listForm advances steady).mpr (.inl ⟨stop, missing, rfl⟩)
      cases required with
      | true => exact runs_terminated.mpr (.inl ⟨stop, list, answer⟩)
      | false => exact runs_terminated.mpr (.inr ⟨_, _, list, by simp, answer⟩)
    · have list : (separated required element delimiter).Runs table start _ :=
        (runs_separated_iff_listForm advances steady).mpr (.inr ⟨trees, stop, form, rfl⟩)
      exact runs_terminated.mpr (.inr ⟨_, _, list, by simp, closes⟩)

/-- A separated list is an element, rounds of a delimiter and an element, and perhaps a last
delimiter: all four forms answer as these expressions do, in trees, positions and reports. Where the
first element fails, the list fails as it did, or is empty if it may be. A terminator runs behind
the list, and its failure is that of the whole. -/
theorem separated_as_repetition {terminator : Parser} (advances : element.Advances table)
    (steady : delimiter.NeverReturns table) (start : State) (result : Result) :
    ((separatedBy1 element delimiter).Runs table start result ↔
      (∃ stop, element.Runs table start ⟨.failed, stop⟩ ∧ result = ⟨.failed, stop⟩) ∨
      ∃ trees stop, ListForm table element delimiter start trees stop ∧
        result = ⟨.sequence trees, stop⟩) ∧
    ((separatedBy element delimiter).Runs table start result ↔
      (∃ stop, element.Runs table start ⟨.failed, stop⟩ ∧ result = ⟨.sequence [], start⟩) ∨
      ∃ trees stop, ListForm table element delimiter start trees stop ∧
        result = ⟨.sequence trees, stop⟩) ∧
    ((separatedBy1Until element delimiter terminator).Runs table start result ↔
      (∃ stop, element.Runs table start ⟨.failed, stop⟩ ∧ result = ⟨.failed, stop⟩) ∨
      ∃ trees stop, ListForm table element delimiter start trees stop ∧
        Closes table terminator trees stop result) ∧
    ((separatedByUntil element delimiter terminator).Runs table start result ↔
      (∃ stop, element.Runs table start ⟨.failed, stop⟩ ∧
        Closes table terminator [] start result) ∨
      ∃ trees stop, ListForm table element delimiter start trees stop ∧
        Closes table terminator trees stop result) :=
  ⟨runs_separated_iff_listForm advances steady, runs_separated_iff_listForm advances steady,
    runs_terminated_iff_listForm advances steady, runs_terminated_iff_listForm advances steady⟩

theorem token_advances (kind : TokenKind) : (token kind).Advances table := by
  intro start tree stop run success
  cases runs_iff_evaluates.mp run with
  | token => exact Nat.lt_succ_self _
  | mismatch => exact absurd rfl success

/-- Looking for something that may be missing does not go back. -/
theorem optional_neverReturns {body : Parser} (steady : body.NeverReturns table) :
    (optional body).NeverReturns table := by
  intro start tree stop run _
  obtain ⟨attempt, success⟩ | ⟨_, _, same⟩ := runs_optional.mp run
  · exact steady attempt success
  · cases same
    exact Nat.le_refl _

end Lists

/-- Crosses with commas between them that may be missing, up to a bracket. -/
def crossesUntil : Parser := separatedByUntil (char 'x') (optional (char ',')) (char ']')

/-- Three crosses, the first and the last of them with a comma. -/
def crossesTokens : TokenStream :=
  .ofList ("x,xx,]".toList.map fun c => { kind := .ofChar c, text := c.toString }) none

theorem separated_as_repetition_crosses :
    (char 'x').Advances .empty ∧ (optional (char ',')).NeverReturns .empty ∧
    crossesUntil.Runs .empty (.start crossesTokens.tokenAt)
      ⟨.sequence ([0, 2, 3].map fun i => .token (crossesTokens.tokenAt i)),
        ⟨crossesTokens.tokenAt, 6, .empty⟩⟩ ∧
    ∃ trees stop, ListForm .empty (char 'x') (optional (char ',')) (.start crossesTokens.tokenAt)
        trees stop ∧
      Closes .empty (char ']') trees stop
        ⟨.sequence ([0, 2, 3].map fun i => .token (crossesTokens.tokenAt i)),
          ⟨crossesTokens.tokenAt, 6, .empty⟩⟩ := by
  have advances : (char 'x').Advances .empty := token_advances (.ofChar 'x')
  have steady : (optional (char ',')).NeverReturns .empty :=
    optional_neverReturns fun _ _ _ run success =>
      Nat.le_of_lt (token_advances (.ofChar ',') run success)
  have runs : crossesUntil.Runs .empty (.start crossesTokens.tokenAt)
      ⟨.sequence ([0, 2, 3].map fun i => .token (crossesTokens.tokenAt i)),
        ⟨crossesTokens.tokenAt, 6, .empty⟩⟩ := ⟨6, by rfl⟩
  obtain ⟨-, -, -, form⟩ := @separated_as_repetition .empty (char 'x') (optional (char ','))
    (char ']') advances steady (.start crossesTokens.tokenAt)
    ⟨.sequence ([0, 2, 3].map fun i => .token (crossesTokens.tokenAt i)),
      ⟨crossesTokens.tokenAt, 6, .empty⟩⟩
  obtain ⟨_, missing, _⟩ | listed := form.mp runs
  · obtain ⟨_, found⟩ : ∃ stop, (char 'x').Runs .empty (.start crossesTokens.tokenAt)
        ⟨.token (crossesTokens.tokenAt 0), stop⟩ := ⟨_, 0, rfl⟩
    cases found.unique missing
  · exact ⟨advances, steady, runs, listed⟩

end Parser

end Descent
