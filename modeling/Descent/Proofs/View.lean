import Descent.Proofs.Tree.Tokens
import Mathlib.Data.List.Forall2

/-!
# Views

A view says how much of tokens and problems is looked at. It has to keep the kinds of tokens and
the expectations of problems, since parsers decide by those. Two states are alike under a view if
they stand at the same position and their inputs look the same from there on; what lies behind them
and what they have reported may differ. They go on alike if the same happens to both: they move to
the same position and report what looks the same.

Every operation of a step goes on alike from states that are alike.
-/

namespace Descent

/-- A way to look at tokens and problems under which parsers cannot tell alike inputs apart. -/
structure View where
  token : Token → Token
  problem : Problem → Problem
  kind_eq : ∀ {a b : Token}, token a = token b → a.kind = b.kind
  expected_eq : ∀ {a b : Token} (kind : TokenKind), token a = token b →
    problem (.expected kind a.render) = problem (.expected kind b.render)
  noAlternative_eq : ∀ {a b : Token} (wanted : List String), token a = token b →
    problem (.noAlternative wanted a.render) = problem (.noAlternative wanted b.render)
  expectations_eq : ∀ {p q : Problem}, problem p = problem q → p.expectations = q.expectations

namespace View

/-- How a diagnostic looks. -/
def diagnostic (view : View) (diagnostic : Diagnostic) : Diagnostic :=
  ⟨view.token diagnostic.token, view.problem diagnostic.problem⟩

/-- Looking at everything. -/
def exact : View where
  token t := t
  problem p := p
  kind_eq same := congrArg Token.kind same
  expected_eq kind same := congrArg (fun t : Token => Problem.expected kind t.render) same
  noAlternative_eq wanted same :=
    congrArg (fun t : Token => Problem.noAlternative wanted t.render) same
  expectations_eq same := congrArg Problem.expectations same

theorem exact_tree {a b : Tree} : a.mapTokens exact.token = b.mapTokens exact.token ↔ a = b := by
  rw [exact, Tree.mapTokens_id, Tree.mapTokens_id]

theorem exact_reports {left right : List Diagnostic} :
    left.map exact.diagnostic = right.map exact.diagnostic ↔ left = right := by
  rw [show exact.diagnostic = id from rfl, List.map_id, List.map_id]

end View

namespace State

variable {view : View} {a b a' b' a'' b'' : State}

/-- States at one position whose inputs look the same from there on. -/
structure Alike (view : View) (a b : State) : Prop where
  position_eq : a.position = b.position
  input_eq : ∀ i, a.position ≤ i → view.token (a.input i) = view.token (b.input i)

/-- The same happened on the way from `a` to `a'` as on the way from `b` to `b'`. -/
structure GoAlike (view : View) (a b a' b' : State) : Prop where
  left_input : a'.input = a.input
  right_input : b'.input = b.input
  position_eq : a'.position = b'.position
  le : a.position ≤ a'.position
  reports : ∃ left right, a'.log.toList = a.log.toList ++ left ∧
    b'.log.toList = b.log.toList ++ right ∧
    left.map view.diagnostic = right.map view.diagnostic

/-- Going on from a state keeps the input, never moves back and only adds to the log. -/
structure GoesOn (start stop : State) : Prop where
  input_eq : stop.input = start.input
  le : start.position ≤ stop.position
  reports : ∃ added, stop.log.toList = start.log.toList ++ added

theorem GoesOn.trans (first : a.GoesOn a') (second : a'.GoesOn a'') : a.GoesOn a'' := by
  obtain ⟨added, log⟩ := first.reports
  obtain ⟨added', log'⟩ := second.reports
  refine ⟨second.input_eq.trans first.input_eq, Nat.le_trans first.le second.le,
    added ++ added', ?_⟩
  rw [log', log, List.append_assoc]

theorem GoAlike.goesOn (way : GoAlike view a b a' b') : a.GoesOn a' := by
  obtain ⟨added, _, log, _, _⟩ := way.reports
  exact ⟨way.left_input, way.le, added, log⟩

theorem Alike.refl (view : View) (a : State) : Alike view a a := ⟨rfl, fun _ _ => rfl⟩

theorem Alike.peek (h : Alike view a b) : view.token a.peek = view.token b.peek := by
  have same := h.input_eq a.position (Nat.le_refl _)
  rw [State.peek, State.peek, ← h.position_eq]
  exact same

theorem Alike.peek_kind (h : Alike view a b) : a.peek.kind = b.peek.kind := view.kind_eq h.peek

theorem Alike.atEnd (h : Alike view a b) : a.atEnd = b.atEnd := by
  rw [State.atEnd, State.atEnd, Token.isEnd, Token.isEnd, h.peek_kind]

theorem Alike.stay (h : Alike view a b) : GoAlike view a b a b :=
  ⟨rfl, rfl, h.position_eq, Nat.le_refl _, [], [], by simp⟩

theorem Alike.go (h : Alike view a b) (way : GoAlike view a b a' b') : Alike view a' b' := by
  refine ⟨way.position_eq, fun i le => ?_⟩
  rw [way.left_input, way.right_input]
  exact h.input_eq i (Nat.le_trans way.le le)

theorem GoAlike.trans (first : GoAlike view a b a' b') (second : GoAlike view a' b' a'' b'') :
    GoAlike view a b a'' b'' := by
  obtain ⟨left, right, atLeft, atRight, same⟩ := first.reports
  obtain ⟨left', right', atLeft', atRight', same'⟩ := second.reports
  refine ⟨second.left_input.trans first.left_input, second.right_input.trans first.right_input,
    second.position_eq, Nat.le_trans first.le second.le, left ++ left', right ++ right', ?_, ?_, ?_⟩
  · rw [atLeft', atLeft, List.append_assoc]
  · rw [atRight', atRight, List.append_assoc]
  · rw [List.map_append, List.map_append, same, same']

theorem Alike.advance (h : Alike view a b) : GoAlike view a b a.advance b.advance :=
  ⟨rfl, rfl, by simp [h.position_eq], by simp, [], [], by simp⟩

theorem Alike.report (h : Alike view a b) {p q : Problem} (same : view.problem p = view.problem q) :
    GoAlike view a b (a.report a.peek p) (b.report b.peek q) :=
  ⟨rfl, rfl, h.position_eq, Nat.le_refl _, [⟨a.peek, p⟩], [⟨b.peek, q⟩], by simp, by simp, by
    simp [View.diagnostic, h.peek, same]⟩

/-- Going back keeps the reports. -/
theorem GoAlike.rewindTo (way : GoAlike view a b a' b') (h : Alike view a b) :
    GoAlike view a b (a'.rewindTo a) (b'.rewindTo b) :=
  ⟨way.left_input, way.right_input, h.position_eq, Nat.le_refl _, way.reports⟩

theorem Alike.skipPast {kind : TokenKind} {bound : Nat} (h : Alike view a b)
    (skipped : a.skipPast kind bound = some a') :
    ∃ b', b.skipPast kind bound = some b' ∧ GoAlike view a b a' b' := by
  induction bound generalizing a b with
  | zero => cases skipped
  | succ bound ih =>
    simp only [State.skipPast] at skipped ⊢
    rw [← h.atEnd, ← h.peek_kind]
    split at skipped
    · next atEnd =>
      cases skipped
      exact ⟨b, by rw [if_pos atEnd], h.stay⟩
    · next notAtEnd =>
      rw [if_neg notAtEnd]
      split at skipped
      · next found =>
        cases skipped
        exact ⟨b.advance, by rw [if_pos found], h.advance⟩
      · next other =>
        rw [if_neg other]
        obtain ⟨b', skipped', way⟩ := ih (h.go h.advance) skipped
        exact ⟨b', skipped', h.advance.trans way⟩

/-! ## Choices that gave up -/

/-- The best of the ends is the same one on both sides. -/
theorem foldl_furthest {lefts rights : List State}
    (ends : List.Forall₂ (GoAlike view a b) lefts rights) (best : GoAlike view a b a' b') :
    GoAlike view a b
      (lefts.foldl (fun best stop => if best.position < stop.position then stop else best) a')
      (rights.foldl (fun best stop => if best.position < stop.position then stop else best)
        b') := by
  induction ends generalizing a' b' with
  | nil => exact best
  | cons way _ ih =>
    simp only [List.foldl_cons]
    rw [← best.position_eq, ← way.position_eq]
    split
    · exact ih way
    · exact ih best

theorem expectations_of_reports {left right : List Diagnostic}
    (same : left.map view.diagnostic = right.map view.diagnostic) :
    left.flatMap (·.problem.expectations) = right.flatMap (·.problem.expectations) := by
  induction left generalizing right with
  | nil =>
    cases right with
    | nil => rfl
    | cons => simp at same
  | cons d left ih =>
    cases right with
    | nil => simp at same
    | cons e right =>
      simp only [List.map_cons, List.cons.injEq] at same
      have head := view.expectations_eq (congrArg Diagnostic.problem same.1)
      simp [head, ih same.2]

/-- The same kinds were wanted on both sides. -/
theorem expectations_eq {lefts rights : List State}
    (ends : List.Forall₂ (GoAlike view a b) lefts rights) :
    a.expectations lefts = b.expectations rights := by
  unfold expectations
  congr 1
  induction ends with
  | nil => rfl
  | cons way _ ih =>
    obtain ⟨left, right, atLeft, atRight, same⟩ := way.reports
    have head := expectations_of_reports same
    simp only [List.flatMap_cons, ih]
    simp only [Log.since_eq_drop, ← Log.length_toList, atLeft, atRight, List.drop_left, head]

/-- Choices whose attempts went alike give up alike. -/
theorem Alike.exhausted {lefts rights : List State} (h : Alike view a b)
    (ends : List.Forall₂ (GoAlike view a b) lefts rights) :
    ∃ a' b', a.exhausted lefts = ⟨.failed, a'⟩ ∧ b.exhausted rights = ⟨.failed, b'⟩ ∧
      GoAlike view a b a' b' := by
  have best : GoAlike view a b (a.furthest lefts) (b.furthest rights) := foldl_furthest ends h.stay
  simp only [State.exhausted]
  rw [← expectations_eq ends, ← h.position_eq, ← best.position_eq]
  split
  · exact ⟨_, _, rfl, rfl, best⟩
  · exact ⟨_, _, rfl, rfl, h.report (view.noAlternative_eq _ h.peek)⟩

end State

end Descent
