import Descent.Proofs.Choice

/-!
# Choices within choices

A choice whose alternatives include another choice answers as if the alternatives of the inner one
stood in its place. Success is the simple case. If everything fails, the inner choice has put one
end in the place of many: its best one, which is as good as all of them in the comparison of the
outer choice, or its own report, which wants what all of them wanted.

The proofs are about the steps of a choice. Where a choice is reached with some ends behind it, its
first alternatives either decide it or leave it with more ends.
-/

namespace Descent

/-! ## Lists without repetitions -/

section EraseDups

variable {α : Type} [BEq α] [LawfulBEq α]

theorem eraseDups_filter (keep : α → Bool) (all : List α) :
    (all.filter keep).eraseDups = all.eraseDups.filter keep := by
  match all with
  | [] => rfl
  | head :: tail =>
    have rest := eraseDups_filter keep (tail.filter fun item => !item == head)
    rw [List.eraseDups_cons, List.filter_cons, List.filter_cons]
    by_cases kept : keep head
    · rw [if_pos kept, if_pos kept, List.eraseDups_cons, ← rest, List.filter_comm]
    · have others : (tail.filter keep) = (tail.filter fun item => !item == head).filter keep := by
        rw [List.filter_filter]
        apply List.filter_congr
        intro item _
        by_cases same : item = head <;> simp [same, kept]
      rw [if_neg kept, if_neg kept, others, rest]
termination_by all.length
decreasing_by exact Nat.lt_succ_of_le (List.length_filter_le _ _)

theorem eraseDups_of_nodup {all : List α} (distinct : all.Nodup) : all.eraseDups = all := by
  induction all with
  | nil => rfl
  | cons head tail ih =>
    obtain ⟨new, distinct⟩ := List.nodup_cons.mp distinct
    have others : (tail.filter fun item => !item == head) = tail := by
      rw [List.filter_eq_self]
      intro item mem
      have different : item ≠ head := fun same => new (same ▸ mem)
      simpa using different
    rw [List.eraseDups_cons, others, ih distinct]

/-- Repetitions can be dropped from a part first. -/
theorem eraseDups_append_eraseDups (before part after : List α) :
    (before ++ (part.eraseDups ++ after)).eraseDups =
      (before ++ (part ++ after)).eraseDups := by
  have once : part.eraseDups.eraseDups = part.eraseDups :=
    eraseDups_of_nodup (listsOnce_eraseDups part).distinct
  have middle : (before ++ part.eraseDups).eraseDups = (before ++ part).eraseDups := by
    simp only [List.eraseDups_append, List.removeAll, eraseDups_filter, once]
  have behind : after.removeAll (before ++ part.eraseDups) = after.removeAll (before ++ part) := by
    unfold List.removeAll
    apply List.filter_congr
    intro item _
    simp
  rw [← List.append_assoc, List.eraseDups_append, middle, behind, ← List.eraseDups_append,
    List.append_assoc]

end EraseDups

/-! ## Ends of inner choices -/

namespace State

variable {start best : State} {before inner after : List State}

/-- A best end that is carried along gives way to the best of the ends that follow, if that is
better. -/
theorem furthest_from (ahead : start.position ≤ best.position) :
    best.furthest inner =
      if best.position < (start.furthest inner).position then start.furthest inner else best := by
  induction inner generalizing start best with
  | nil => rw [furthest_nil, furthest_nil, if_neg (Nat.not_lt.mpr ahead)]
  | cons stop inner ih =>
    rw [furthest_cons, furthest_cons]
    by_cases further : best.position < stop.position
    · have less : best.position < (stop.furthest inner).position :=
        Nat.lt_of_lt_of_le further le_furthest
      rw [if_pos further, if_pos (Nat.lt_of_le_of_lt ahead further), if_pos less]
    · rw [if_neg further]
      apply ih
      split
      · exact Nat.not_lt.mp further
      · exact ahead

/-- The failure of an inner choice counts as much as those of its alternatives. -/
theorem furthest_exhausted (before inner after : List State) :
    start.furthest (before ++ (start.exhausted inner).state :: after) =
      start.furthest (before ++ (inner ++ after)) := by
  simp only [furthest_append, furthest_cons]
  congr 1
  have reaches : start.position ≤ (start.furthest before).position := le_furthest
  rw [furthest_from reaches]
  by_cases moved : start.position < (start.furthest inner).position
  · rw [exhausted_of_moved moved]
    rfl
  · have low : (start.furthest inner).position ≤ (start.furthest before).position :=
      Nat.le_trans (Nat.not_lt.mp moved) reaches
    have stays : (start.exhausted inner).state.position ≤ (start.furthest before).position := by
      rw [exhausted, if_neg moved]
      exact reaches
    rw [if_neg (Nat.not_lt.mpr stays), if_neg (Nat.not_lt.mpr low)]

theorem wanted_append :
    start.wanted (before ++ after) = start.wanted before ++ start.wanted after :=
  List.flatMap_append

/-- A choice that reports lists what its alternatives wanted. -/
theorem wanted_exhausted (still : ∀ stop ∈ inner, stop.position ≤ start.position) :
    start.wanted [(start.exhausted inner).state] = (start.wanted inner).eraseDups := by
  rw [exhausted_of_still still, ← expectations_eq_eraseDups]
  simp [wanted, reject, Result.failure, ← Log.length_toList, Problem.expectations]

/-- An outer choice gives up alike over the end of an inner choice and over its ends. -/
theorem exhausted_exhausted (before inner after : List State) :
    start.exhausted (before ++ (start.exhausted inner).state :: after) =
      start.exhausted (before ++ (inner ++ after)) := by
  have best : start.furthest (before ++ (start.exhausted inner).state :: after) =
      start.furthest (before ++ (inner ++ after)) := furthest_exhausted before inner after
  by_cases moved : start.position < (start.furthest (before ++ (inner ++ after))).position
  · rw [exhausted_of_moved moved, exhausted_of_moved (best ▸ moved), best]
  · have still := still_of_furthest moved
    have still' := still_of_furthest (best ▸ moved)
    have within : ∀ stop ∈ inner, stop.position ≤ start.position := fun stop mem =>
      still stop (List.mem_append_right _ (List.mem_append_left _ mem))
    have same : start.expectations (before ++ (start.exhausted inner).state :: after) =
        start.expectations (before ++ (inner ++ after)) := by
      rw [expectations_eq_eraseDups, expectations_eq_eraseDups, List.append_cons, List.append_assoc]
      simp only [wanted_append, wanted_exhausted within, eraseDups_append_eraseDups]
    rw [exhausted_of_still still, exhausted_of_still still', same]

end State

namespace Step

variable {start : State}

/-- The first alternatives decide a choice, whatever it has behind it and in front of it, or leave
it with more ends. -/
theorem choiceFrom_cases (steps : List Step) (start : State) :
    (∃ answer : Option Result, (∀ result ∈ answer, result.isFailed = false) ∧
      ∀ ends rest, choiceFrom ends (steps ++ rest) start = answer) ∨
    ∃ stops, ∀ ends rest,
      choiceFrom ends (steps ++ rest) start = choiceFrom (stops ++ ends) rest start := by
  induction steps with
  | nil => exact .inr ⟨[], fun _ _ => rfl⟩
  | cons step steps ih =>
    cases ran : step start with
    | none =>
      refine .inl ⟨none, fun _ mem => absurd mem (Option.not_mem_none _), fun _ _ => ?_⟩
      simp [choiceFrom, ran]
    | some result =>
      by_cases failed : result.isFailed
      · rcases ih with ⟨answer, success, decided⟩ | ⟨stops, left⟩
        · refine .inl ⟨answer, success, fun ends rest => ?_⟩
          simp [choiceFrom, ran, failed, decided]
        · refine .inr ⟨stops ++ [result.state], fun ends rest => ?_⟩
          simp [choiceFrom, ran, failed, left]
      · refine .inl ⟨some result, by simpa using failed, fun ends rest => ?_⟩
        simp [choiceFrom, ran, failed]

/-- What is left of a choice depends only on how it would give up. -/
theorem choiceFrom_congr {ends ends' : List State} (rest : List Step)
    (same : ∀ more,
      start.exhausted (ends.reverse ++ more) = start.exhausted (ends'.reverse ++ more)) :
    choiceFrom ends rest start = choiceFrom ends' rest start := by
  induction rest generalizing ends ends' with
  | nil => simpa [choiceFrom] using same []
  | cons step rest ih =>
    simp only [choiceFrom]
    congr 1
    funext result
    split
    · apply ih
      intro more
      simpa using same (result.state :: more)
    · rfl

/-- An inner choice can be replaced by its alternatives. -/
theorem choice_choice (before inner after : List Step) :
    choice (before ++ choice inner :: after) = choice (before ++ (inner ++ after)) := by
  funext start
  show choiceFrom [] (before ++ choice inner :: after) start =
    choiceFrom [] (before ++ (inner ++ after)) start
  rcases choiceFrom_cases before start with ⟨_, -, decided⟩ | ⟨ends, left⟩
  · rw [decided, decided]
  rw [left, left]
  rcases choiceFrom_cases inner start with ⟨answer, success, decided⟩ | ⟨stops, left⟩
  · have inside : choice inner start = answer := by simpa [choice] using decided [] []
    rw [decided, choiceFrom, inside]
    cases answer with
    | none => rfl
    | some result => simp [success result rfl]
  · have inside : choice inner start = some (start.exhausted stops.reverse) := by
      simpa [choice, choiceFrom] using left [] []
    have failed : (start.exhausted stops.reverse).isFailed :=
      Result.isFailed_iff.mpr (State.exhausted_tree start stops.reverse)
    rw [left, choiceFrom, inside, Option.bind_eq_bind, Option.bind_some, if_pos failed]
    apply choiceFrom_congr
    intro more
    simpa using State.exhausted_exhausted ends.reverse stops.reverse more

end Step

namespace Parser

/-- Nesting of choices does not matter: an inner choice answers as its alternatives do in its place,
in tree, position and reports, and runs that do not end do so in both forms. -/
theorem choice_nested (table : RuleTable) (before inner after : List Parser) (state : State)
    (result : Result) :
    (choice (before ++ [choice inner] ++ after)).Runs table state result ↔
      (choice (before ++ inner ++ after)).Runs table state result := by
  have same : ∀ bound, (choice (before ++ [choice inner] ++ after)).run table bound =
      (choice (before ++ inner ++ after)).run table bound := by
    intro bound
    simp only [run_choice, List.map_append, List.map_cons, List.append_assoc,
      List.singleton_append, Step.choice_choice]
  simp only [Runs, same]

end Parser

end Descent
