import Descent.Proofs.Locality
import Descent.Proofs.Repetition
import Descent.Proofs.Resynchronisation
import Mathlib.Data.Nat.Find
import Mathlib.Order.Bounds.Basic

/-!
# Synchronisation points

The token at which a resynchronisation stops can be told from the input alone: it is the first one
from the failure on that is of the end or of the kind. Whether parsing goes on in front of it or
behind it depends on the token, not on the kind that was asked for, so the end is not consumed even
by a resynchronisation that asks for the end.

Nothing is assumed about the expression, which may contain custom steps, nor about the input, except
that it serves the end from some position on.
-/

namespace Descent

namespace State

/-- The input serves nothing but the end from some position on. -/
def EndsSomewhere (state : State) : Prop := ∃ last, ∀ i, last ≤ i → (state.input i).isEnd

/-- The positions from the state on whose token is of the end or of the kind. -/
def syncPoints (state : State) (kind : TokenKind) : Set Nat :=
  {i | state.position ≤ i ∧ ((state.input i).isEnd ∨ (state.input i).kind = kind)}

/-- Where parsing goes on from a synchronisation point: in front of the end, behind any other
token. -/
def resumeAt (state : State) (point : Nat) : State :=
  { state with position := if (state.input point).isEnd then point else point + 1 }

variable {start : State} {kind : TokenKind} {point bound : Nat}

/-- Where the input ends there is a synchronisation point. -/
theorem EndsSomewhere.exists_isLeast (ends : start.EndsSomewhere) (kind : TokenKind) :
    ∃ point, IsLeast (start.syncPoints kind) point := by
  obtain ⟨last, served⟩ := ends
  have some : ∃ i, i ∈ start.syncPoints kind :=
    ⟨max start.position last, Nat.le_max_left _ _, .inl (served _ (Nat.le_max_right _ _))⟩
  classical exact ⟨Nat.find some, Nat.find_spec some, fun _ mem => Nat.find_min' some mem⟩

/-- A stream that is followed by the end serves nothing else behind its tokens. -/
theorem EndsSomewhere.of_ended {stream : TokenStream} (ended : stream.Ended)
    (input : start.input = stream.tokenAt) : start.EndsSomewhere := by
  refine ⟨stream.size, fun i outside => ?_⟩
  rw [input, Token.isEnd, TokenKind.isEnd_iff]
  exact ended.kind_of_size_le outside

theorem isLeast_of_none_before (after : start.position ≤ point)
    (found : (start.input point).isEnd ∨ (start.input point).kind = kind)
    (before : ∀ i < point, start.position ≤ i →
      ¬ ((start.input i).isEnd ∨ (start.input i).kind = kind)) :
    IsLeast (start.syncPoints kind) point :=
  ⟨⟨after, found⟩, fun _ mem => Nat.not_lt.mp fun less => before _ less mem.1 mem.2⟩

theorem mem_syncPoints_position :
    start.position ∈ start.syncPoints kind ↔ start.atEnd ∨ start.peek.kind = kind :=
  and_iff_right (Nat.le_refl _)

/-- In front of a token that is no synchronisation point the next one is that of the next state. -/
theorem isLeast_advance (least : IsLeast (start.syncPoints kind) point)
    (other : start.position ∉ start.syncPoints kind) :
    IsLeast (start.advance.syncPoints kind) point := by
  have moved : start.position ≠ point := by
    rintro rfl
    exact other least.1
  refine ⟨⟨Nat.lt_of_le_of_ne least.1.1 moved, least.1.2⟩, fun i mem => least.2 ⟨?_, mem.2⟩⟩
  exact Nat.le_of_succ_le mem.1

/-- Skipping resumes at the first synchronisation point. -/
theorem skipPast_eq_resumeAt (least : IsLeast (start.syncPoints kind) point)
    (enough : point < start.position + bound) :
    start.skipPast kind bound = some (start.resumeAt point) := by
  -- by induction on how many tokens may be skipped, which is more than are in front of the point
  induction bound generalizing start with
  | zero => exact absurd enough (Nat.not_lt.mpr least.1.1)
  | succ bound ih =>
    have here (mem : start.position ∈ start.syncPoints kind) : point = start.position :=
      Nat.le_antisymm (least.2 mem) least.1.1
    simp only [skipPast]
    split
    · next atEnd =>
      obtain rfl := here (mem_syncPoints_position.mpr (.inl atEnd))
      have served : (start.input start.position).isEnd := atEnd
      rw [resumeAt, if_pos served]
    · next inside =>
      split
      · next found =>
        obtain rfl := here (mem_syncPoints_position.mpr (.inr found))
        have other : ¬ (start.input start.position).isEnd := inside
        rw [resumeAt, if_neg other, advance]
      · next other =>
        have later := isLeast_advance least
          (mt mem_syncPoints_position.mp (not_or.mpr ⟨inside, other⟩))
        have enough' : point < start.advance.position + bound := by
          rw [advance_position]
          omega
        exact ih later enough'

/-- No token of the end is among those that are skipped or consumed on the way. -/
theorem not_isEnd_of_lt_resumeAt (least : IsLeast (start.syncPoints kind) point) {i : Nat}
    (after : start.position ≤ i) (before : i < (start.resumeAt point).position) :
    ¬ (start.input i).isEnd := by
  intro served
  have le : point ≤ i := least.2 ⟨after, .inl served⟩
  simp only [resumeAt] at before
  split at before
  · omega
  · next other =>
    obtain rfl : i = point := by omega
    exact other served

end State

namespace Parser

variable {table : RuleTable} {body : Parser} {start stop : State} {kind : TokenKind}

/-- A resynchronised expression never fails. -/
theorem recoverTo_ne_failed {result : Result}
    (run : (recoverTo kind body).Runs table start result) : result.tree ≠ .failed := by
  obtain ⟨_, success⟩ | ⟨_, _, _, _, _, rfl⟩ := runs_recoverTo.mp run
  · exact success
  · simp

/-- Behind a failure it answers with nothing where it resumes. -/
theorem recoverTo_resumed {point : Nat} (failure : body.Runs table start ⟨.failed, stop⟩)
    (least : IsLeast (stop.syncPoints kind) point) :
    (recoverTo kind body).Runs table start ⟨.nothing, stop.resumeAt point⟩ := by
  have enough : point < stop.position + (point + 1) := by omega
  exact runs_recoverTo.mpr
    (.inr ⟨stop, _, _, failure, State.skipPast_eq_resumeAt least enough, rfl⟩)

/-- Resynchronisation stops at the right token. An expression that succeeds is left as it is, tree
and state. If it fails and the input of the failed state ends somewhere, then there is a first
synchronisation point from that state on, and the one answer is nothing, with the failed state moved
there: in front of the token if it is of the end, and behind it otherwise. So input and log are
those of the failure, and no token of the end is skipped or consumed, whatever the kind. In no case
does the answer fail. The input of the failed state is that of the start unless a custom step
replaces it. -/
theorem resynchronisation_stops (table : RuleTable) (kind : TokenKind) (body : Parser)
    (start : State) :
    (∀ tree stop, body.Runs table start ⟨tree, stop⟩ → tree ≠ .failed →
      ∀ result, (recoverTo kind body).Runs table start result ↔ result = ⟨tree, stop⟩) ∧
    (∀ stop, body.Runs table start ⟨.failed, stop⟩ → stop.EndsSomewhere →
      ∃ point, IsLeast (stop.syncPoints kind) point ∧
        (∀ result, (recoverTo kind body).Runs table start result ↔
          result = ⟨.nothing, stop.resumeAt point⟩) ∧
        ∀ i, stop.position ≤ i → i < (stop.resumeAt point).position →
          ¬ (stop.input i).isEnd) ∧
    (∀ result, (recoverTo kind body).Runs table start result → result.tree ≠ .failed) ∧
    (body.Lacks table .custom → ∀ result, body.Runs table start result →
      result.state.input = start.input) := by
  refine ⟨fun tree stop run success => ?_, fun stop failure ends => ?_,
    fun _ => recoverTo_ne_failed, fun plain _ run => ?_⟩
  · exact fun _ => (runs_recoverTo.mpr (.inl ⟨run, success⟩)).iff_eq
  · obtain ⟨point, least⟩ := ends.exists_isLeast kind
    exact ⟨point, least, fun _ => (recoverTo_resumed failure least).iff_eq,
      fun _ after before => State.not_isEnd_of_lt_resumeAt least after before⟩
  · exact ((runs_iff_evaluates.mp run).goesOn plain).input_eq

/-- Behind the cross, where a nought is missing. -/
def crossed : State :=
  ⟨crossOrSkipTokens.tokenAt, 1, .push .empty
    ⟨crossOrSkipTokens.tokenAt 1, .mismatch (.ofChar 'o') (crossOrSkipTokens.tokenAt 1)⟩⟩

/-- The semicolon is consumed, and the end is not, although it is the kind that is asked for. -/
theorem resynchronisation_stops_crossed :
    (sequence [char 'x', char 'o']).Runs .empty (.start crossOrSkipTokens.tokenAt)
      ⟨.failed, crossed⟩ ∧ crossed.EndsSomewhere ∧
    (∀ result, (recoverTo (.ofChar ';') (sequence [char 'x', char 'o'])).Runs .empty
      (.start crossOrSkipTokens.tokenAt) result ↔ result = ⟨.nothing, crossed.resumeAt 2⟩) ∧
    ∀ result, (recoverTo .endOfInput (sequence [char 'x', char 'o'])).Runs .empty
      (.start crossOrSkipTokens.tokenAt) result ↔ result = ⟨.nothing, crossed.resumeAt 3⟩ := by
  have failure : (sequence [char 'x', char 'o']).Runs .empty (.start crossOrSkipTokens.tokenAt)
      ⟨.failed, crossed⟩ := ⟨1, by rfl⟩
  have ended : crossOrSkipTokens.Ended := fun _ given => nomatch given
  have ends : crossed.EndsSomewhere := .of_ended ended rfl
  have semicolon : IsLeast (crossed.syncPoints (.ofChar ';')) 2 :=
    State.isLeast_of_none_before (by decide) (by decide) (by decide)
  have last : IsLeast (crossed.syncPoints .endOfInput) 3 :=
    State.isLeast_of_none_before (by decide) (by decide) (by decide)
  have stops (kind : TokenKind) :=
    (resynchronisation_stops .empty kind _ _).2.1 crossed failure ends
  obtain ⟨point, least, only, -⟩ := stops (.ofChar ';')
  obtain ⟨point', least', only', -⟩ := stops .endOfInput
  obtain rfl := least.unique semicolon
  obtain rfl := least'.unique last
  exact ⟨failure, ends, only, only'⟩

end Parser

end Descent
