import Descent.Proofs.Evaluation.Runs
import Descent.Proofs.Features

/-!
# Well-formed trees

A tree is well formed if no failure occurs in it and its productions hold their children in one
level. Sequences of well-formed trees can be flattened, so a production can always be made of a
well-formed tree, and then is well formed itself. Without custom steps every tree other than a
failure is made in this way.
-/

namespace Descent

namespace Tree

/-- The trees directly below a tree. -/
def parts : Tree → List Tree
  | .production _ children => children
  | .labeled _ value => [value]
  | .sequence entries => entries
  | _ => []

/-- A tree occurs in a tree if it is that tree or occurs in a part of it. -/
inductive Occurs (node : Tree) : Tree → Prop where
  | self : Occurs node node
  | part {tree part} (mem : part ∈ tree.parts) (deeper : Occurs node part) : Occurs node tree

/-- Whether a tree may be a child of a production. -/
def isChild : Tree → Bool
  | .nothing => true
  | .token _ => true
  | .production .. => true
  | .labeled .. => true
  | .failed => false
  | .sequence _ => false

/-- What is asked of a tree apart from its parts. -/
def Sound : Tree → Prop
  | .failed => False
  | .production _ children => ∀ child ∈ children, child.isChild
  | _ => True

/-- Everything that occurs in the tree is sound. -/
def WellFormed (tree : Tree) : Prop := ∀ node : Tree, node.Occurs tree → node.Sound

theorem wellFormed_iff {tree : Tree} :
    tree.WellFormed ↔ tree.Sound ∧ ∀ part ∈ tree.parts, part.WellFormed := by
  constructor
  · intro h
    exact ⟨h tree .self, fun part mem node deeper => h node (.part mem deeper)⟩
  · rintro ⟨sound, parts⟩ node occurs
    cases occurs with
    | self => exact sound
    | part mem deeper => exact parts _ mem node deeper

theorem WellFormed.ne_failed {tree node : Tree} (h : tree.WellFormed) (occurs : node.Occurs tree) :
    node ≠ .failed := by
  rintro rfl
  exact h _ occurs

theorem WellFormed.isChild {tree child : Tree} {name : String} {children : List Tree}
    (h : tree.WellFormed) (occurs : (production name children).Occurs tree)
    (mem : child ∈ children) : child.isChild :=
  h _ occurs child mem

@[simp] theorem wellFormed_nothing : nothing.WellFormed :=
  wellFormed_iff.mpr ⟨trivial, fun _ mem => nomatch mem⟩

@[simp] theorem wellFormed_token (t : Token) : (token t).WellFormed :=
  wellFormed_iff.mpr ⟨trivial, fun _ mem => nomatch mem⟩

@[simp] theorem not_wellFormed_failed : ¬ failed.WellFormed := fun h => h .failed .self

@[simp] theorem wellFormed_labeled {name : String} {value : Tree} :
    (labeled name value).WellFormed ↔ value.WellFormed :=
  wellFormed_iff.trans (by simp [Sound, parts])

@[simp] theorem wellFormed_sequence {entries : List Tree} :
    (sequence entries).WellFormed ↔ ∀ entry ∈ entries, entry.WellFormed :=
  wellFormed_iff.trans (by simp [Sound, parts])

@[simp] theorem wellFormed_production {name : String} {children : List Tree} :
    (production name children).WellFormed ↔
      (∀ child ∈ children, child.isChild) ∧ ∀ child ∈ children, child.WellFormed :=
  wellFormed_iff.trans Iff.rfl

/-! ## Flattening -/

/-- A list of trees that can be the children of a production. -/
def OneLevel (trees : List Tree) : Prop := ∀ tree ∈ trees, tree.isChild ∧ tree.WellFormed

theorem OneLevel.append {front back : List Tree} (first : OneLevel front) (later : OneLevel back) :
    OneLevel (front ++ back) :=
  List.forall_mem_append.mpr ⟨first, later⟩

theorem oneLevel_singleton {tree : Tree} (child : tree.isChild) (wellFormed : tree.WellFormed) :
    OneLevel [tree] :=
  List.forall_mem_singleton.mpr ⟨child, wellFormed⟩

theorem OneLevel.production {children : List Tree} (h : OneLevel children) (name : String) :
    (production name children).WellFormed :=
  wellFormed_production.mpr ⟨fun child mem => (h child mem).1, fun child mem => (h child mem).2⟩

mutual

/-- What a well-formed tree contributes to a flat sequence stands in one level. -/
theorem WellFormed.leaves : ∀ {tree : Tree}, tree.WellFormed →
    ∃ flat, tree.leaves = .ok flat ∧ OneLevel flat
  | .nothing, h => ⟨_, rfl, oneLevel_singleton rfl h⟩
  | .failed, h => absurd h not_wellFormed_failed
  | .token _, h => ⟨_, rfl, oneLevel_singleton rfl h⟩
  | .production .., h => ⟨_, rfl, oneLevel_singleton rfl h⟩
  | .labeled .., h => ⟨_, rfl, oneLevel_singleton rfl h⟩
  | .sequence entries, h => by
    rw [Tree.leaves]
    exact exists_flatten (wellFormed_sequence.mp h)

/-- Well-formed trees can be put into one level. -/
theorem exists_flatten : ∀ {entries : List Tree}, (∀ entry ∈ entries, entry.WellFormed) →
    ∃ flat, flatten entries = .ok flat ∧ OneLevel flat
  | [], _ => ⟨[], rfl, fun _ mem => nomatch mem⟩
  | tree :: rest, h => by
    obtain ⟨head, others⟩ := List.forall_mem_cons.mp h
    obtain ⟨front, flat, first⟩ := head.leaves
    obtain ⟨back, flat', later⟩ := exists_flatten others
    exact ⟨front ++ back, by rw [flatten, flat, flat']; rfl, first.append later⟩

end

end Tree

/-- A production can be made of every well-formed tree. -/
theorem Step.exists_children {tree : Tree} (h : tree.WellFormed) :
    ∃ flat, children tree = .ok flat ∧ Tree.OneLevel flat := by
  cases tree with
  | nothing => exact ⟨[], rfl, fun _ mem => nomatch mem⟩
  | failed => exact absurd h Tree.not_wellFormed_failed
  | sequence entries => exact Tree.exists_flatten (Tree.wellFormed_sequence.mp h)
  | token | production | labeled => exact ⟨_, rfl, Tree.oneLevel_singleton rfl h⟩

namespace Parser

variable {table : RuleTable} {resync : Prop} {parser : Parser} {state : State} {result : Result}

/-- An expression without custom steps makes well-formed trees. -/
theorem Evaluates.wellFormed (h : parser.Evaluates table resync state result)
    (plain : parser.Lacks table .custom) (success : result.tree ≠ .failed) :
    result.tree.WellFormed := by
  induction h with
  | token => exact Tree.wellFormed_token _
  | sequenceNil | manyFailed | manyStayed | separatedNil => simp
  | backtracked | resynchronised => exact Tree.wellFormed_nothing
  | mismatch | sequenceFailed | sequenceStopped | rootFailed | many1Failed | separatedRefused
  | terminatedFailed | terminatedOpen | productionFailed | malformed | labeledFailed | unbound =>
    exact absurd rfl success
  | exhausted => exact absurd (State.exhausted_tree _ _) success
  | sequenceCons _ passed _ first later =>
    obtain ⟨plainFirst, plainLater⟩ := lacks_sequence_cons.mp plain
    have head := first plainFirst passed
    have tail := later plainLater (by simp)
    simpa [head] using tail
  | chosen _ _ passed _ taken => exact taken plain.chosen passed
  | lookahead _ seen => exact seen (plain.first rfl) success
  | recoverPassed _ passed attempt => exact attempt (plain.first rfl) passed
  | manyNext _ passed _ _ round later =>
    have head := round (plain.first rfl) passed
    have tail := later plain (by simp)
    simpa [head] using tail
  | many1 _ passed _ first later =>
    have head := first (plain.first rfl) passed
    have tail := later plain.many (by simp)
    simpa [head] using tail
  | separatedLast _ passed _ first | separatedStayed _ passed _ _ _ first =>
    have head := first (plain.first rfl) passed
    simpa using head
  | separatedNext _ passed _ _ _ _ first _ later =>
    have head := first (plain.first rfl) passed
    have tail := later plain.separated (by simp)
    simpa [head] using tail
  | terminated _ passed _ _ first => exact first (plain.first rfl) passed
  | production _ passed flat content =>
    obtain ⟨flat', same, level⟩ := Step.exists_children (content (plain.first rfl) passed)
    obtain rfl : flat' = _ := Except.ok.inj (same.symm.trans flat)
    exact level.production _
  | labeled _ passed content =>
    have inner := content (plain.first rfl) passed
    simpa using inner
  | rule bound _ answer => exact answer (plain.body bound) success
  | recoverCustom | custom => exact (plain.own rfl).elim

/-- A production without custom steps never finds its content malformed. -/
theorem Evaluates.content_ok {tree : Tree} {stop : State}
    (h : parser.Evaluates table resync state ⟨tree, stop⟩) (plain : parser.Lacks table .custom)
    (success : tree ≠ .failed) {reason : Tree.FlattenError} :
    Step.children tree ≠ .error reason := by
  obtain ⟨flat, same, -⟩ := Step.exists_children (h.wellFormed plain success)
  simp [same]

end Parser

end Descent
