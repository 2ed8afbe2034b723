import Descent.Proofs.Locality

/-!
# Order of the tokens of a tree

Where nothing looks ahead, the tokens of a tree stand in it in the order of the input, each at most
once, and all of them were consumed on the way. `Picks` says this of an interval of the input: its
tokens are gone through from left to right, and each is taken or dropped. Tokens are dropped only
by delimiters, by terminators and by resynchronisation, so without those a tree holds exactly the
interval that was consumed.
-/

namespace Descent

/-- Tokens picked in order from the interval of the input between two positions. All are picked if
the choice is `dense`. -/
inductive Picks (input : Nat → Token) (dense : Prop) : Nat → Nat → List Token → Prop where
  | nil {start} : Picks input dense start start []
  | take {start stop tokens} (rest : Picks input dense (start + 1) stop tokens) :
      Picks input dense start stop (input start :: tokens)
  | drop {start stop tokens} (sparse : ¬ dense) (rest : Picks input dense (start + 1) stop tokens) :
      Picks input dense start stop tokens

namespace Picks

variable {input : Nat → Token} {dense : Prop} {start middle stop : Nat} {front back : List Token}

theorem trans (first : Picks input dense start middle front)
    (later : Picks input dense middle stop back) :
    Picks input dense start stop (front ++ back) := by
  induction first with
  | nil => exact later
  | take _ ih => exact .take (ih later)
  | drop sparse _ ih => exact .drop sparse (ih later)

/-- All tokens of an interval may be dropped. -/
theorem dropAll (sparse : ¬ dense) (start count : Nat) :
    Picks input dense start (start + count) [] := by
  induction count generalizing start with
  | zero => exact .nil
  | succ count ih =>
    have rest := ih (start + 1)
    rw [Nat.add_right_comm] at rest
    exact .drop sparse rest

/-- Tokens behind the last one picked may be dropped. -/
theorem dropTo (first : Picks input dense start middle front) (sparse : ¬ dense)
    (le : middle ≤ stop) : Picks input dense start stop front := by
  have rest : Picks input dense middle (middle + (stop - middle)) [] := dropAll sparse _ _
  rw [Nat.add_sub_cancel' le] at rest
  simpa using first.trans rest

theorem le (h : Picks input dense start stop front) : start ≤ stop := by
  induction h with
  | nil => exact Nat.le_refl _
  | take _ ih => omega
  | drop _ _ ih => omega

/-- What is picked behind a state is picked from the same input as what is picked in front of it. -/
theorem goOn {state next : State} (way : state.GoesOn next)
    (first : Picks state.input dense state.position next.position front)
    (later : Picks next.input dense next.position stop back) :
    Picks state.input dense state.position stop (front ++ back) := by
  rw [way.input_eq] at later
  exact first.trans later

/-- What is picked are the tokens at increasing positions of the interval, and at all of them if the
choice is dense. -/
theorem exists_positions (h : Picks input dense start stop front) :
    ∃ positions : List Nat, front = positions.map input ∧ positions.Pairwise (· < ·) ∧
      (∀ i ∈ positions, start ≤ i ∧ i < stop) ∧
      (dense → positions = List.range' start (stop - start)) := by
  induction h with
  | nil => exact ⟨[], by simp⟩
  | @take start stop tokens rest ih =>
    obtain ⟨positions, same, increasing, within, all⟩ := ih
    have before : start + 1 ≤ stop := rest.le
    refine ⟨start :: positions, by simp [same], ?_, ?_, fun full => ?_⟩
    · refine List.pairwise_cons.mpr ⟨fun i mem => ?_, increasing⟩
      exact (within i mem).1
    · intro i mem
      rcases List.mem_cons.mp mem with rfl | mem
      · omega
      · have bounds := within i mem
        omega
    · have length : stop - start = (stop - (start + 1)) + 1 := by omega
      rw [length, List.range'_succ, ← all full]
  | drop sparse _ ih =>
    obtain ⟨positions, same, increasing, within, _⟩ := ih
    refine ⟨positions, same, increasing, fun i mem => ?_, fun full => absurd full sparse⟩
    have bounds := within i mem
    omega

end Picks

namespace Parser

variable {table : RuleTable} {resync : Prop} {parser : Parser} {state : State} {result : Result}

/-- A tree made without custom steps and without looking ahead holds tokens picked from what was
consumed, and all of it if there are no lists and nothing is resynchronised. -/
theorem Evaluates.picks {forbidden : Feature → Prop}
    (h : parser.Evaluates table resync state result) (avoids : parser.Avoids table forbidden)
    (plain : forbidden .custom) (blind : forbidden .lookahead) (success : result.tree ≠ .failed) :
    Picks state.input (forbidden .separation ∧ forbidden .resynchronisation) state.position
      result.state.position result.tree.tokens := by
  induction h with
  | token => exact .take .nil
  | sequenceNil | backtracked | manyFailed | manyStayed | separatedNil => exact .nil
  | mismatch | sequenceFailed | sequenceStopped | rootFailed | many1Failed | separatedRefused
  | terminatedFailed | terminatedOpen | productionFailed | malformed | labeledFailed | unbound =>
    exact absurd rfl success
  | exhausted => exact absurd (State.exhausted_tree _ _) success
  | sequenceCons start passed _ first later =>
    have head := first (avoids.first rfl) passed
    have tail := later avoids.rest (by simp)
    exact head.goOn (start.goesOn (avoids.first rfl plain)) tail
  | chosen _ _ passed _ taken => exact taken avoids.chosen passed
  | lookahead => exact absurd blind (avoids.own rfl)
  | recoverPassed _ passed attempt => exact attempt (avoids.first rfl) passed
  | resynchronised allowed start skipped =>
    have way := (Evaluates.resynchronised allowed start skipped).goesOn (avoids plain)
    exact Picks.nil.dropTo (fun full => avoids.own rfl full.2) way.le
  | manyNext start passed _ _ round later =>
    have head := round (avoids.first rfl) passed
    have tail := later avoids (by simp)
    exact head.goOn (start.goesOn (avoids.first rfl plain)) tail
  | many1 start passed _ first later =>
    have head := first (avoids.first rfl) passed
    have tail := later avoids.many (by simp)
    exact head.goOn (start.goesOn (avoids.first rfl plain)) tail
  | separatedLast _ passed _ first =>
    have head := first (avoids.first rfl) passed
    simpa [Tree.tokens, Tree.tokensEach] using head
  | separatedStayed _ passed mark _ _ first =>
    have head := first (avoids.first rfl) passed
    have way := mark.goesOn (avoids.second rfl plain)
    -- Whatever the delimiter consumed is not in the tree.
    have whole := head.dropTo (fun full => avoids.own rfl full.1) way.le
    simpa [Tree.tokens, Tree.tokensEach] using whole
  | separatedNext start passed mark _ _ _ first between later =>
    have head := first (avoids.first rfl) passed
    have way := mark.goesOn (avoids.second rfl plain)
    have tail := later avoids.separated (by simp)
    have round := head.dropTo (fun full => avoids.own rfl full.1) way.le
    exact round.goOn ((start.goesOn (avoids.first rfl plain)).trans way) tail
  | terminated _ passed closing _ first =>
    have head := first (avoids.first rfl) passed
    have way := closing.goesOn (avoids.second rfl plain)
    exact head.dropTo (fun full => avoids.own rfl full.1) way.le
  | production _ passed flat content =>
    have inner := content (avoids.first rfl) passed
    rw [Tree.tokens, Step.tokensEach_children flat]
    exact inner
  | labeled _ passed content => exact content (avoids.first rfl) passed
  | rule bound _ answer => exact answer (avoids.body bound) success
  | recoverCustom | custom => exact absurd plain (avoids.own rfl)

/-- No token is invented, repeated or moved. The leaves of a tree, read from left to right, are
tokens at increasing positions of what the run consumed. Without lists and resynchronisation they
are all of it. -/
theorem leaves_in_input_order (plain : parser.Lacks table .custom)
    (blind : parser.Lacks table .lookahead) (runs : parser.Runs table state result)
    (success : result.tree ≠ .failed) :
    state.position ≤ result.state.position ∧
      ∃ positions : List Nat, result.tree.tokens = positions.map state.input ∧
        positions.Pairwise (· < ·) ∧
        (∀ i ∈ positions, state.position ≤ i ∧ i < result.state.position) ∧
        (parser.Lacks table .separation → parser.Lacks table .resynchronisation →
          positions = List.range' state.position
            (result.state.position - state.position)) := by
  have evaluates := runs_iff_evaluates.mp runs
  have picks := evaluates.picks (fun _ lacks => lacks) plain blind success
  obtain ⟨positions, same, increasing, within, all⟩ := picks.exists_positions
  exact ⟨picks.le, positions, same, increasing, within, fun noLists steady =>
    all ⟨noLists, steady⟩⟩

/-- Any number of crosses in brackets. -/
def crosses : Parser := production "crosses" (sequence [char '(', many (char 'x'), char ')'])

/-- Two crosses in brackets, behind another token. -/
def crossesInput : Nat → Token
  | 1 => { kind := .ofChar '(', text := "(" }
  | 2 => { kind := .ofChar 'x', text := "x" }
  | 3 => { kind := .ofChar 'x', text := "x" }
  | 4 => { kind := .ofChar ')', text := ")" }
  | _ => .endOfInput

theorem leaves_in_input_order_crosses :
    (crosses.Lacks .empty .custom ∧ crosses.Lacks .empty .lookahead ∧
      crosses.Runs .empty ⟨crossesInput, 1, .empty⟩
        ⟨.production "crosses" ([1, 2, 3, 4].map fun i => .token (crossesInput i)),
          ⟨crossesInput, 5, .empty⟩⟩) ∧
    1 ≤ 5 ∧ ∃ positions : List Nat,
      Tree.tokensEach ([1, 2, 3, 4].map fun i => .token (crossesInput i)) =
        positions.map crossesInput ∧
      positions.Pairwise (· < ·) ∧ (∀ i ∈ positions, 1 ≤ i ∧ i < 5) ∧
      (crosses.Lacks .empty .separation → crosses.Lacks .empty .resynchronisation →
        positions = List.range' 1 (5 - 1)) := by
  have plain : crosses.Lacks .empty .custom := lacks_of_not_mentions rfl rfl
  have blind : crosses.Lacks .empty .lookahead := lacks_of_not_mentions rfl rfl
  have runs : crosses.Runs .empty ⟨crossesInput, 1, .empty⟩
      ⟨.production "crosses" ([1, 2, 3, 4].map fun i => .token (crossesInput i)),
        ⟨crossesInput, 5, .empty⟩⟩ := ⟨5, by rfl⟩
  exact ⟨⟨plain, blind, runs⟩, leaves_in_input_order plain blind runs (by simp)⟩

end Parser

end Descent
