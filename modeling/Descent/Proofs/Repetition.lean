import Descent.Proofs.Evaluation.Rounds

/-!
# Repetition

A loop ends for one of two reasons: its body fails, or it succeeds without moving. Either way the
last attempt is given up as a whole, with its tree, its position and its reports, and so the reason
cannot be told from what the loop answers. All laws follow from this: a loop answers by the rounds
that it keeps and by where it is exhausted.
-/

namespace Descent

namespace Parser

/-- There is no further round at the state: the expression fails, or succeeds without moving. -/
def Exhausted (table : RuleTable) (body : Parser) (state : State) : Prop :=
  ∃ tree stop, body.Runs table state ⟨tree, stop⟩ ∧
    (tree = .failed ∨ stop.position = state.position)

/-- A round that a repetition keeps: the expression succeeds and has moved. -/
def Proceeds (table : RuleTable) (body : Parser) (start : State) (tree : Tree) (stop : State) :
    Prop :=
  body.Runs table start ⟨tree, stop⟩ ∧ tree ≠ .failed ∧ stop.position ≠ start.position

/-- Rounds one behind another, with their trees, up to where the expression is exhausted. -/
inductive Repeats (table : RuleTable) (body : Parser) : State → List Tree → State → Prop where
  | ended {state} (last : Exhausted table body state) : Repeats table body state [] state
  | next {start tree middle trees stop} (round : Proceeds table body start tree middle)
      (more : Repeats table body middle trees stop) :
      Repeats table body start (tree :: trees) stop

variable {table : RuleTable} {body other : Parser} {start middle stop : State} {tree : Tree}
variable {trees : List Tree} {result : Result}

/-! ## Loops are rounds -/

theorem Repeats.runs (repeats : Repeats table body start trees stop) :
    (many body).Runs table start ⟨.sequence trees, stop⟩ := by
  induction repeats with
  | ended last =>
    obtain ⟨tree, stop, attempt, ends⟩ := last
    exact runs_many.mpr (.inl ⟨tree, stop, attempt, ends, rfl⟩)
  | next round _ ih =>
    obtain ⟨run, success, moved⟩ := round
    exact runs_many.mpr (.inr ⟨_, _, _, _, run, success, moved, ih, rfl⟩)

theorem Runs.repeats (loop : (many body).Runs table start ⟨.sequence trees, stop⟩) :
    Repeats table body start trees stop := by
  induction trees generalizing start with
  | nil =>
    obtain ⟨tree, after, attempt, ends, same⟩ | ⟨_, _, _, _, _, _, _, _, same⟩ :=
      runs_many.mp loop
    · cases same
      exact .ended ⟨tree, after, attempt, ends⟩
    · cases same
  | cons tree trees ih =>
    obtain ⟨_, _, _, _, same⟩ | ⟨_, _, _, _, run, success, moved, later, same⟩ :=
      runs_many.mp loop
    · cases same
    · cases same
      exact .next ⟨run, success, moved⟩ (ih later)

/-- A loop answers with the trees of its rounds, where the last of them has ended. -/
theorem runs_many_iff_repeats :
    (many body).Runs table start result ↔
      ∃ trees stop, Repeats table body start trees stop ∧ result = ⟨.sequence trees, stop⟩ := by
  constructor
  · intro loop
    obtain ⟨trees, stop, rfl⟩ := (runs_iff_evaluates.mp loop).many_cases
    exact ⟨trees, stop, loop.repeats, rfl⟩
  · rintro ⟨trees, stop, repeats, rfl⟩
    exact repeats.runs

/-- Rounds end only where the expression is exhausted. -/
theorem Repeats.exhausted (repeats : Repeats table body start trees stop) :
    Exhausted table body stop := by
  induction repeats with
  | ended last => exact last
  | next _ _ ih => exact ih

/-- Expressions that keep the same rounds and are exhausted at the same states repeat alike. -/
theorem Repeats.congr (rounds : ∀ {start tree stop}, Proceeds table body start tree stop →
      Proceeds table other start tree stop)
    (ends : ∀ {state}, Exhausted table body state → Exhausted table other state)
    (repeats : Repeats table body start trees stop) : Repeats table other start trees stop := by
  induction repeats with
  | ended last => exact .ended (ends last)
  | next round _ ih => exact .next (rounds round) ih

/-! ## Optional bodies -/

/-- What an optional expression adds does not move. -/
theorem proceeds_optional :
    Proceeds table (optional body) start tree stop ↔ Proceeds table body start tree stop := by
  constructor
  · rintro ⟨run, success, moved⟩
    obtain ⟨attempt, _⟩ | ⟨_, _, same⟩ := runs_optional.mp run
    · exact ⟨attempt, success, moved⟩
    · cases same
      exact absurd rfl moved
  · rintro ⟨attempt, success, moved⟩
    exact ⟨runs_optional.mpr (.inl ⟨attempt, success⟩), success, moved⟩

/-- Where an expression fails, its optional form stays. -/
theorem exhausted_optional {state : State} :
    Exhausted table (optional body) state ↔ Exhausted table body state := by
  constructor
  · rintro ⟨tree, stop, run, ends⟩
    obtain ⟨attempt, _⟩ | ⟨refused, attempt, _⟩ := runs_optional.mp run
    · exact ⟨tree, stop, attempt, ends⟩
    · exact ⟨.failed, refused, attempt, .inl rfl⟩
  · rintro ⟨tree, stop, attempt, ends⟩
    by_cases failed : tree = .failed
    · subst failed
      exact ⟨.nothing, state, runs_optional.mpr (.inr ⟨stop, attempt, rfl⟩), .inr rfl⟩
    · exact ⟨tree, stop, runs_optional.mpr (.inl ⟨attempt, failed⟩), ends⟩

/-- A loop does not tell whether its body is optional. -/
theorem runs_many_optional :
    (many (optional body)).Runs table start result ↔ (many body).Runs table start result := by
  simp only [runs_many_iff_repeats]
  constructor
  · rintro ⟨trees, stop, repeats, rfl⟩
    exact ⟨trees, stop, repeats.congr proceeds_optional.mp exhausted_optional.mp, rfl⟩
  · rintro ⟨trees, stop, repeats, rfl⟩
    exact ⟨trees, stop, repeats.congr proceeds_optional.mpr exhausted_optional.mpr, rfl⟩

/-! ## Loops again -/

/-- Where a loop has ended, a further one finds nothing and changes nothing. -/
theorem runs_many_again (loop : (many body).Runs table start ⟨tree, stop⟩) :
    (many body).Runs table stop result ↔ result = ⟨.sequence [], stop⟩ := by
  obtain ⟨trees, _, repeats, same⟩ := runs_many_iff_repeats.mp loop
  cases same
  have empty : (many body).Runs table stop ⟨.sequence [], stop⟩ :=
    Repeats.runs (.ended repeats.exhausted)
  exact empty.iff_eq

/-- A repetition that may not be empty fails as its body does, and for no other reason. -/
theorem runs_many1_failed :
    (many1 body).Runs table start ⟨.failed, stop⟩ ↔ body.Runs table start ⟨.failed, stop⟩ := by
  rw [runs_many1]
  constructor
  · rintro (⟨_, first, same⟩ | ⟨_, _, _, _, _, _, _, same⟩)
    · cases same
      exact first
    · cases same
  · exact fun first => .inl ⟨stop, first, rfl⟩

/-- Behind a first round that has moved, it does not matter whether there had to be one. -/
theorem runs_many1_of_proceeds (round : Proceeds table body start tree middle) :
    (many1 body).Runs table start result ↔ (many body).Runs table start result := by
  obtain ⟨run, success, moved⟩ := round
  constructor
  · intro loop
    obtain ⟨_, refused, _⟩ | ⟨_, _, _, _, first, _, later, rfl⟩ := runs_many1.mp loop
    · cases refused.unique run
      exact absurd rfl success
    · cases first.unique run
      exact runs_many.mpr (.inr ⟨_, _, _, _, run, success, moved, later, rfl⟩)
  · intro loop
    obtain ⟨_, _, attempt, ends, _⟩ | ⟨_, _, _, _, first, _, _, later, rfl⟩ := runs_many.mp loop
    · cases attempt.unique run
      exact absurd ends (not_or.mpr ⟨success, moved⟩)
    · cases first.unique run
      exact runs_many1.mpr (.inr ⟨_, _, _, _, run, success, later, rfl⟩)

/-- The laws of repetition, for every body. A loop answers the same if its body is made optional.
Where it has ended, it finds nothing more and leaves everything as it is, the log included. A loop
that may not be empty fails exactly if its body does, in the same state; and if the first round
succeeds and moves, it answers as the other loop does. -/
theorem repetition_laws (table : RuleTable) (body : Parser) (start : State) :
    (∀ result, (many (optional body)).Runs table start result ↔
      (many body).Runs table start result) ∧
    (∀ tree stop, (many body).Runs table start ⟨tree, stop⟩ →
      ∀ again, (many body).Runs table stop again ↔ again = ⟨.sequence [], stop⟩) ∧
    (∀ stop, (many1 body).Runs table start ⟨.failed, stop⟩ ↔
      body.Runs table start ⟨.failed, stop⟩) ∧
    ∀ tree middle, body.Runs table start ⟨tree, middle⟩ → tree ≠ .failed →
      middle.position ≠ start.position →
        ∀ result, (many1 body).Runs table start result ↔ (many body).Runs table start result := by
  refine ⟨fun _ => runs_many_optional, fun _ _ loop _ => runs_many_again loop,
    fun _ => runs_many1_failed, fun _ _ run success moved _ => ?_⟩
  exact runs_many1_of_proceeds ⟨run, success, moved⟩

/-- A cross that is skipped up to a semicolon if it is missing, so that a round may succeed and
report something. -/
def crossOrSkip : Parser := recoverTo (.ofChar ';') (char 'x')

/-- A cross, and a semicolon behind something else. -/
def crossOrSkipTokens : TokenStream :=
  .ofList ("x?;".toList.map fun c => { kind := .ofChar c, text := c.toString }) none

/-- Behind both, with a report of the second. -/
def behindCrosses : State :=
  ⟨crossOrSkipTokens.tokenAt, 3, .push .empty
    ⟨crossOrSkipTokens.tokenAt 1, .mismatch (.ofChar 'x') (crossOrSkipTokens.tokenAt 1)⟩⟩

theorem repetition_laws_crosses :
    (many crossOrSkip).Runs .empty (.start crossOrSkipTokens.tokenAt)
      ⟨.sequence [.token (crossOrSkipTokens.tokenAt 0), .nothing], behindCrosses⟩ ∧
    (∀ again, (many crossOrSkip).Runs .empty behindCrosses again ↔
      again = ⟨.sequence [], behindCrosses⟩) ∧
    crossOrSkip.Runs .empty (.start crossOrSkipTokens.tokenAt)
      ⟨.token (crossOrSkipTokens.tokenAt 0), (State.start crossOrSkipTokens.tokenAt).advance⟩ ∧
    ∀ result, (many1 crossOrSkip).Runs .empty (.start crossOrSkipTokens.tokenAt) result ↔
      (many crossOrSkip).Runs .empty (.start crossOrSkipTokens.tokenAt) result := by
  have loop : (many crossOrSkip).Runs .empty (.start crossOrSkipTokens.tokenAt)
      ⟨.sequence [.token (crossOrSkipTokens.tokenAt 0), .nothing], behindCrosses⟩ := ⟨6, by rfl⟩
  have first : crossOrSkip.Runs .empty (.start crossOrSkipTokens.tokenAt)
      ⟨.token (crossOrSkipTokens.tokenAt 0), (State.start crossOrSkipTokens.tokenAt).advance⟩ :=
    ⟨6, by rfl⟩
  obtain ⟨-, again, -, nonempty⟩ :=
    repetition_laws .empty crossOrSkip (.start crossOrSkipTokens.tokenAt)
  exact ⟨loop, again _ _ loop, first, nonempty _ _ first (by simp) (by simp)⟩

end Parser

end Descent
