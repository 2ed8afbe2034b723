import Descent.Proofs.Tree.WellFormed

/-!
# Productions in trees

A tree shows a name if a production of this name occurs in it. Making a production flattens what it
holds, and that brings nothing in that did not occur there. So without custom steps every name that
the tree of a run shows is that of a production which the expression can reach.
-/

namespace Descent

namespace Tree

theorem Occurs.trans {a b c : Tree} (first : a.Occurs b) (second : b.Occurs c) : a.Occurs c := by
  induction second with
  | self => exact first
  | part mem _ ih => exact .part mem ih

/-- A production of the name occurs in the tree. -/
def Shows (tree : Tree) (name : String) : Prop :=
  ∃ children, (production name children).Occurs tree

section Shows

variable {tree node : Tree} {name other : String} {children entries : List Tree}

theorem Shows.of_occurs (h : node.Shows name) (occurs : node.Occurs tree) : tree.Shows name := by
  obtain ⟨children, shown⟩ := h
  exact ⟨children, shown.trans occurs⟩

/-- A tree other than a production shows what its parts show. -/
theorem shows_iff_parts (other : ∀ children, tree ≠ production name children) :
    tree.Shows name ↔ ∃ part ∈ tree.parts, part.Shows name := by
  constructor
  · rintro ⟨children, occurs⟩
    cases occurs with
    | self => exact absurd rfl (other children)
    | part mem deeper => exact ⟨_, mem, children, deeper⟩
  · rintro ⟨part, mem, shown⟩
    exact shown.of_occurs (.part mem .self)

@[simp] theorem not_shows_nothing : ¬ nothing.Shows name := by
  simp [shows_iff_parts, parts]

@[simp] theorem not_shows_failed : ¬ failed.Shows name := by
  simp [shows_iff_parts, parts]

@[simp] theorem not_shows_token {t : Token} : ¬ (token t).Shows name := by
  simp [shows_iff_parts, parts]

@[simp] theorem shows_labeled : (labeled other node).Shows name ↔ node.Shows name := by
  simp [shows_iff_parts, parts]

@[simp] theorem shows_sequence :
    (sequence entries).Shows name ↔ ∃ entry ∈ entries, entry.Shows name := by
  simp [shows_iff_parts, parts]

theorem shows_cons :
    (sequence (node :: entries)).Shows name ↔ node.Shows name ∨ (sequence entries).Shows name := by
  simp

theorem shows_production :
    (production other children).Shows name ↔
      name = other ∨ ∃ child ∈ children, child.Shows name := by
  constructor
  · rintro ⟨inside, occurs⟩
    cases occurs with
    | self => exact .inl rfl
    | part mem deeper => exact .inr ⟨_, mem, inside, deeper⟩
  · rintro (rfl | ⟨child, mem, shown⟩)
    · exact ⟨children, .self⟩
    · exact shown.of_occurs (.part mem .self)

end Shows

/-! ## Flattening -/

mutual

/-- What a tree contributes to a flat sequence occurs in it. -/
theorem leaves_occur : ∀ {tree : Tree} {flat : List Tree}, tree.leaves = .ok flat →
    ∀ leaf ∈ flat, leaf.Occurs tree
  | .failed, _, h => by cases h
  | .sequence entries, flat, h => by
    intro leaf mem
    obtain ⟨entry, listed, occurs⟩ := flatten_occurs (by rwa [Tree.leaves] at h) leaf mem
    exact .part listed occurs
  | .nothing, flat, h | .token _, flat, h | .production .., flat, h | .labeled .., flat, h => by
    obtain rfl := Except.ok.inj h
    exact List.forall_mem_singleton.mpr .self

theorem flatten_occurs : ∀ {entries flat : List Tree}, flatten entries = .ok flat →
    ∀ leaf ∈ flat, ∃ entry ∈ entries, leaf.Occurs entry
  | [], flat, h => by
    obtain rfl := Except.ok.inj h
    exact fun _ mem => absurd mem List.not_mem_nil
  | tree :: rest, flat, h => by
    rw [flatten] at h
    cases front : tree.leaves with
    | error => simp [front, bind, Except.bind] at h
    | ok first =>
      cases back : flatten rest with
      | error => simp [front, back, bind, Except.bind] at h
      | ok later =>
        simp only [front, back, bind, Except.bind, pure, Except.pure] at h
        obtain rfl := Except.ok.inj h
        intro leaf mem
        rcases List.mem_append.mp mem with mem | mem
        · exact ⟨tree, List.mem_cons_self, leaves_occur front leaf mem⟩
        · obtain ⟨entry, listed, occurs⟩ := flatten_occurs back leaf mem
          exact ⟨entry, List.mem_cons_of_mem _ listed, occurs⟩

end

end Tree

/-- The children that a tree contributes to a production occur in it. -/
theorem Step.children_occur {tree : Tree} {flat : List Tree} (h : children tree = .ok flat) :
    ∀ child ∈ flat, child.Occurs tree := by
  cases tree with
  | nothing =>
    obtain rfl := Except.ok.inj h
    exact fun _ mem => absurd mem List.not_mem_nil
  | sequence entries =>
    intro child mem
    obtain ⟨entry, listed, occurs⟩ := Tree.flatten_occurs h child mem
    exact .part listed occurs
  | failed | token | production | labeled =>
    obtain rfl := Except.ok.inj h
    exact List.forall_mem_singleton.mpr .self

namespace Parser

variable {table : RuleTable} {resync : Prop} {parser other part : Parser} {state : State}
variable {result : Result} {name : String}

/-- The expression can reach a production of the name. -/
def Makes (table : RuleTable) (parser : Parser) (name : String) : Prop :=
  ∃ body, parser.Reaches table (production name body)

theorem Makes.of_part (h : part.Makes table name) (mem : part ∈ parser.parts) :
    parser.Makes table name := by
  obtain ⟨body, reaches⟩ := h
  exact ⟨body, .part mem reaches⟩

theorem Makes.of_first {rest : List Parser} (h : part.Makes table name)
    (parts : parser.parts = part :: rest) : parser.Makes table name :=
  h.of_part (parts ▸ List.mem_cons_self)

/-- An expression makes what another one makes that has all its parts. -/
theorem Makes.of_parts (h : parser.Makes table name) (notRule : ∀ id, parser ≠ rule id)
    (notProduction : ∀ name body, parser ≠ production name body)
    (subset : parser.parts ⊆ other.parts) : other.Makes table name := by
  obtain ⟨body, reaches⟩ := h
  cases reaches with
  | self => exact absurd rfl (notProduction name body)
  | part mem further => exact ⟨body, .part (subset mem) further⟩
  | body => exact absurd rfl (notRule _)

/-- Every name that the tree of a run shows is that of a production that the expression reaches. -/
theorem Evaluates.makes (h : parser.Evaluates table resync state result)
    (plain : parser.Lacks table .custom) (shown : result.tree.Shows name) :
    parser.Makes table name := by
  induction h with
  | token => exact absurd shown Tree.not_shows_token
  | backtracked | resynchronised => exact absurd shown Tree.not_shows_nothing
  | sequenceNil | manyFailed | manyStayed | separatedNil => simp at shown
  | mismatch | sequenceFailed | sequenceStopped | rootFailed | many1Failed | separatedRefused
  | terminatedFailed | terminatedOpen | productionFailed | malformed | labeledFailed | unbound =>
    exact absurd shown Tree.not_shows_failed
  | exhausted => exact absurd (State.exhausted_tree _ _ ▸ shown) Tree.not_shows_failed
  | sequenceCons _ _ _ first later =>
    obtain ⟨plainFirst, plainLater⟩ := lacks_sequence_cons.mp plain
    obtain head | tail := Tree.shows_cons.mp shown
    · exact (first plainFirst head).of_first rfl
    · exact (later plainLater tail).of_parts (by simp) (by simp) (List.subset_cons_self _ _)
  | chosen _ _ _ _ taken =>
    exact (taken plain.chosen shown).of_part (List.mem_append_right _ List.mem_cons_self)
  | lookahead _ seen => exact (seen (plain.first rfl) shown).of_first rfl
  | recoverPassed _ _ attempt => exact (attempt (plain.first rfl) shown).of_first rfl
  | manyNext _ _ _ _ round later =>
    obtain head | tail := Tree.shows_cons.mp shown
    · exact (round (plain.first rfl) head).of_first rfl
    · exact later plain tail
  | many1 _ _ _ first later =>
    obtain head | tail := Tree.shows_cons.mp shown
    · exact (first (plain.first rfl) head).of_first rfl
    · exact (later plain.many tail).of_parts (by simp) (by simp) (List.Subset.refl _)
  | separatedLast _ _ _ first | separatedStayed _ _ _ _ _ first =>
    exact (first (plain.first rfl) (by simpa using shown)).of_first rfl
  | separatedNext _ _ _ _ _ _ first _ later =>
    obtain head | tail := Tree.shows_cons.mp shown
    · exact (first (plain.first rfl) head).of_first rfl
    · exact (later plain.separated tail).of_parts (by simp) (by simp) (List.Subset.refl _)
  | terminated _ _ _ _ first => exact (first (plain.first rfl) shown).of_first rfl
  | production _ _ flat inner =>
    obtain rfl | ⟨child, mem, deeper⟩ := Tree.shows_production.mp shown
    · exact ⟨_, .self⟩
    · have within := deeper.of_occurs (Step.children_occur flat child mem)
      exact (inner (plain.first rfl) within).of_first rfl
  | labeled _ _ content =>
    exact (content (plain.first rfl) (Tree.shows_labeled.mp shown)).of_first rfl
  | rule bound _ answer =>
    obtain ⟨body, reaches⟩ := answer (plain.body bound) shown
    exact ⟨body, .body bound reaches⟩
  | recoverCustom | custom => exact (plain.own rfl).elim

end Parser

end Descent
