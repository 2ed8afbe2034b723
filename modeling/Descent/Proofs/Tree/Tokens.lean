import Descent.Step

/-!
# The tokens of a tree

`Tree.tokens` reads the tokens at the leaves of a tree from left to right. `Tree.mapTokens` changes
every token and leaves the shape as it is. Making the children of a production out of a tree keeps
the tokens and goes along with any change of them.
-/

namespace Descent

namespace Tree

mutual

/-- The tokens at the leaves, from left to right. -/
def tokens : Tree → List Token
  | .nothing => []
  | .failed => []
  | .token t => [t]
  | .production _ children => tokensEach children
  | .labeled _ value => value.tokens
  | .sequence entries => tokensEach entries

/-- The tokens of several trees, one tree after the other. -/
def tokensEach : List Tree → List Token
  | [] => []
  | tree :: rest => tree.tokens ++ tokensEach rest

end

@[simp] theorem tokensEach_append (front back : List Tree) :
    tokensEach (front ++ back) = tokensEach front ++ tokensEach back := by
  induction front with
  | nil => rfl
  | cons tree front ih => simp [tokensEach, ih]

mutual

/-- The tree with every token changed. -/
def mapTokens (f : Token → Token) : Tree → Tree
  | .nothing => .nothing
  | .failed => .failed
  | .token t => .token (f t)
  | .production name children => .production name (mapTokensEach f children)
  | .labeled name value => .labeled name (value.mapTokens f)
  | .sequence entries => .sequence (mapTokensEach f entries)

/-- Several trees with every token changed. -/
def mapTokensEach (f : Token → Token) : List Tree → List Tree
  | [] => []
  | tree :: rest => tree.mapTokens f :: mapTokensEach f rest

end

@[simp] theorem mapTokensEach_append (f : Token → Token) (front back : List Tree) :
    mapTokensEach f (front ++ back) = mapTokensEach f front ++ mapTokensEach f back := by
  induction front with
  | nil => rfl
  | cons tree front ih => simp [mapTokensEach, ih]

mutual

theorem mapTokens_id : ∀ tree : Tree, tree.mapTokens (fun t => t) = tree
  | .nothing => rfl
  | .failed => rfl
  | .token _ => rfl
  | .production _ children => by rw [mapTokens, mapTokensEach_id children]
  | .labeled _ value => by rw [mapTokens, mapTokens_id value]
  | .sequence entries => by rw [mapTokens, mapTokensEach_id entries]

theorem mapTokensEach_id : ∀ trees : List Tree, mapTokensEach (fun t => t) trees = trees
  | [] => rfl
  | tree :: rest => by rw [mapTokensEach, mapTokens_id tree, mapTokensEach_id rest]

end

section Shape

variable {f : Token → Token} {a b : Tree}

/-- Trees that differ in tokens only fail together. -/
theorem failed_iff_of_mapTokens_eq (same : a.mapTokens f = b.mapTokens f) :
    a = .failed ↔ b = .failed := by
  cases a <;> cases b <;> simp_all [mapTokens]

theorem exists_sequence_of_mapTokens_eq {entries : List Tree}
    (same : a.mapTokens f = (sequence entries).mapTokens f) :
    ∃ others, a = .sequence others ∧ mapTokensEach f others = mapTokensEach f entries := by
  cases a <;> simp_all [mapTokens]

end Shape

/-! ## Children -/

mutual

/-- What a tree contributes to a flat sequence has its tokens. -/
theorem tokensEach_leaves : ∀ {tree : Tree} {flat : List Tree}, tree.leaves = .ok flat →
    tokensEach flat = tree.tokens
  | .nothing, _, h => by cases h; rfl
  | .failed, _, h => by cases h
  | .token _, _, h => by cases h; rfl
  | .production .., _, h => by cases h; simp [tokensEach]
  | .labeled .., _, h => by cases h; simp [tokensEach]
  | .sequence entries, _, h => by
    rw [leaves] at h
    exact tokensEach_flatten h

theorem tokensEach_flatten : ∀ {entries flat : List Tree}, flatten entries = .ok flat →
    tokensEach flat = tokensEach entries
  | [], _, h => by cases h; rfl
  | tree :: rest, flat, h => by
    rw [flatten] at h
    cases front : tree.leaves with
    | error => simp [front, bind, Except.bind] at h
    | ok heads =>
      cases back : flatten rest with
      | error => simp [front, back, bind, Except.bind] at h
      | ok tails =>
        simp only [front, back, bind, Except.bind, pure, Except.pure, Except.ok.injEq] at h
        subst h
        rw [tokensEach_append, tokensEach_leaves front, tokensEach_flatten back, tokensEach]

end

mutual

theorem leaves_mapTokens (f : Token → Token) : ∀ tree : Tree,
    (tree.mapTokens f).leaves = tree.leaves.map (mapTokensEach f)
  | .nothing => rfl
  | .failed => rfl
  | .token _ => rfl
  | .production .. => rfl
  | .labeled .. => rfl
  | .sequence entries => by rw [mapTokens, leaves, leaves, flatten_mapTokens f entries]

/-- Flattening goes along with a change of the tokens. -/
theorem flatten_mapTokens (f : Token → Token) : ∀ entries : List Tree,
    flatten (mapTokensEach f entries) = (flatten entries).map (mapTokensEach f)
  | [] => rfl
  | tree :: rest => by
    rw [mapTokensEach, flatten, flatten, leaves_mapTokens f tree, flatten_mapTokens f rest]
    cases tree.leaves with
    | error => rfl
    | ok heads =>
      cases flatten rest with
      | error => rfl
      | ok tails => simp [bind, Except.bind, pure, Except.pure, Except.map]

end

end Tree

namespace Step

open Descent.Tree

/-- The children of a production have the tokens of its content. -/
theorem tokensEach_children {tree : Tree} {entries : List Tree} (h : children tree = .ok entries) :
    tokensEach entries = tree.tokens := by
  cases tree with
  | nothing => cases h; rfl
  | sequence => exact tokensEach_flatten h
  | _ => cases h; simp [tokensEach]

theorem children_mapTokens (f : Token → Token) (tree : Tree) :
    children (tree.mapTokens f) = (children tree).map (mapTokensEach f) := by
  cases tree with
  | sequence entries => exact flatten_mapTokens f entries
  | _ => rfl

section Shape

variable {f : Token → Token} {a b : Tree}

/-- Trees that differ in tokens only have children that do. -/
theorem children_ok_of_mapTokens_eq (same : a.mapTokens f = b.mapTokens f) {entries : List Tree}
    (flat : children b = .ok entries) :
    ∃ others, children a = .ok others ∧ mapTokensEach f others = mapTokensEach f entries := by
  have both := children_mapTokens f a
  rw [same, children_mapTokens, flat] at both
  cases others : children a with
  | error => simp [others, Except.map] at both
  | ok others' =>
    simp only [others, Except.map, Except.ok.injEq] at both
    exact ⟨others', rfl, both.symm⟩

theorem children_error_of_mapTokens_eq (same : a.mapTokens f = b.mapTokens f)
    {reason : FlattenError} (nested : children b = .error reason) : children a = .error reason := by
  have both := children_mapTokens f a
  rw [same, children_mapTokens, nested] at both
  cases others : children a with
  | error => rfl
  | ok => simp [others, Except.map] at both

end Shape

end Step

end Descent
