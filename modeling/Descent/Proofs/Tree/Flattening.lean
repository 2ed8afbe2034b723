import Descent.Tree
import Mathlib.Data.List.Sort

/-!
# Flattening

An address leads from a tree to a node below it, one entry after the other, through sequences only.
The nodes other than sequences, in the order of their addresses, are the flat form of a list of
trees. Flattening finds this form, unless a failure is among the nodes.

`places` lists the nodes with their addresses. That it lists all of them in order is proved on
addresses, and that flattening follows it by recursion on trees.
-/

namespace Descent

namespace Tree

/-- A node stands at an address of a tree. The address numbers the entries to take, from the
outermost sequence inwards. -/
inductive At (node : Tree) : (address : List Nat) → (tree : Tree) → Prop where
  | here : At node [] node
  | inside {i address part entries} (found : entries[i]? = some part)
      (deeper : At node address part) : At node (i :: address) (.sequence entries)

/-- The list holds the nodes of a sequence that are not sequences themselves, each as often as it
has addresses, from left to right. -/
def FlatForm (entries flat : List Tree) : Prop :=
  ∃ places : List (List Nat × Tree), flat = places.map Prod.snd ∧
    places.Pairwise (fun first second => first.1 < second.1) ∧
    ∀ address node, (address, node) ∈ places ↔
      node.At address (.sequence entries) ∧ node.sequence? = none

variable {tree node : Tree} {address : List Nat} {entries flat front back : List Tree}

/-! ## Nodes and their addresses -/

mutual

/-- The nodes of a tree that are not sequences, with their addresses, from left to right. -/
def places : Tree → List (List Nat × Tree)
  | .sequence entries => placesFrom 0 entries
  | tree => [([], tree)]

/-- The nodes of several trees, which are numbered from `index` on. -/
def placesFrom (index : Nat) : List Tree → List (List Nat × Tree)
  | [] => []
  | tree :: rest =>
    tree.places.map (fun place => (index :: place.1, place.2)) ++ placesFrom (index + 1) rest

end

theorem places_of_not_sequence (leaf : tree.sequence? = none) : tree.places = [([], tree)] := by
  cases tree with
  | sequence => cases leaf
  | _ => rfl

theorem mem_placesFrom {index : Nat} :
    (address, node) ∈ placesFrom index entries ↔
      ∃ i inner part, address = (index + i) :: inner ∧ entries[i]? = some part ∧
        (inner, node) ∈ part.places := by
  induction entries generalizing index with
  | nil => simp [placesFrom]
  | cons tree rest ih =>
    simp only [placesFrom, List.mem_append, List.mem_map, ih, Prod.mk.injEq, Prod.exists]
    constructor
    · rintro (⟨inner, _, mem, rfl, rfl⟩ | ⟨i, inner, part, rfl, found, mem⟩)
      · exact ⟨0, inner, tree, rfl, rfl, mem⟩
      · exact ⟨i + 1, inner, part, by rw [Nat.add_assoc, Nat.add_comm 1], found, mem⟩
    · rintro ⟨i, inner, part, rfl, found, mem⟩
      cases i with
      | zero =>
        obtain rfl : tree = part := Option.some.inj found
        exact .inl ⟨inner, node, mem, rfl, rfl⟩
      | succ i => exact .inr ⟨i, inner, part, by rw [Nat.add_assoc, Nat.add_comm 1], found, mem⟩

/-- All nodes that are not sequences are listed, and no others. -/
theorem mem_places :
    (address, node) ∈ tree.places ↔ node.At address tree ∧ node.sequence? = none := by
  induction address generalizing tree with
  | nil =>
    constructor
    · intro mem
      cases tree with
      | sequence => simp [places, mem_placesFrom] at mem
      | _ =>
        obtain rfl : node = _ := by simpa [places] using mem
        exact ⟨.here, rfl⟩
    · rintro ⟨own, leaf⟩
      cases own
      rw [places_of_not_sequence leaf]
      exact List.mem_singleton_self _
  | cons i inner ih =>
    constructor
    · intro mem
      cases tree with
      | sequence =>
        obtain ⟨_, _, part, same, found, mem⟩ := mem_placesFrom.mp mem
        obtain ⟨rfl, rfl⟩ : i = 0 + _ ∧ inner = _ := List.cons.inj same
        rw [Nat.zero_add]
        obtain ⟨deeper, leaf⟩ := ih.mp mem
        exact ⟨.inside found deeper, leaf⟩
      | _ => simp [places] at mem
    · rintro ⟨inside, leaf⟩
      cases inside with
      | inside found deeper =>
        exact mem_placesFrom.mpr ⟨i, inner, _, by rw [Nat.zero_add], found, ih.mpr ⟨deeper, leaf⟩⟩

mutual

/-- The nodes are listed in the order of their addresses. -/
theorem places_pairwise : ∀ tree : Tree,
    tree.places.Pairwise fun first second => first.1 < second.1
  | .nothing => List.pairwise_singleton _ _
  | .failed => List.pairwise_singleton _ _
  | .token _ => List.pairwise_singleton _ _
  | .production .. => List.pairwise_singleton _ _
  | .labeled .. => List.pairwise_singleton _ _
  | .sequence entries => by
    rw [places]
    exact placesFrom_pairwise 0 entries

theorem placesFrom_pairwise (index : Nat) : ∀ entries : List Tree,
    (placesFrom index entries).Pairwise fun first second => first.1 < second.1
  | [] => .nil
  | tree :: rest => by
    rw [placesFrom, List.pairwise_append]
    refine ⟨List.pairwise_map.mpr ?_, placesFrom_pairwise (index + 1) rest, ?_⟩
    · exact (places_pairwise tree).imp fun less => List.cons_lt_cons_iff.mpr (.inr ⟨rfl, less⟩)
    · -- an address in a later tree is larger from its first number on
      rintro first mem ⟨address, node⟩ later
      obtain ⟨place, -, rfl⟩ := List.mem_map.mp mem
      obtain ⟨i, inner, part, rfl, -⟩ := mem_placesFrom.mp later
      exact List.cons_lt_cons_iff.mpr (.inl (by omega))

end

/-- There is one flat form. -/
theorem flatForm_iff : FlatForm entries flat ↔ flat = (sequence entries).places.map Prod.snd := by
  constructor
  · rintro ⟨places, rfl, ordered, mem⟩
    have irrefl : Std.Irrefl fun first second : List Nat × Tree => first.1 < second.1 :=
      ⟨fun _ => List.lt_irrefl _⟩
    have asymm : Std.Antisymm fun first second : List Nat × Tree => first.1 < second.1 :=
      ⟨fun _ _ less more => absurd more (List.lt_asymm less)⟩
    have same := ordered.eq_of_mem_iff (places_pairwise (sequence entries))
      fun place => (mem place.1 place.2).trans mem_places.symm
    rw [same]
  · rintro rfl
    exact ⟨_, rfl, places_pairwise _, fun _ _ => mem_places⟩

/-! ## Flattening finds them -/

/-- The nodes, unless a failure is among them. -/
def unlessFailed (nodes : List Tree) : Except FlattenError (List Tree) :=
  if .failed ∈ nodes then .error .embeddedFailure else .ok nodes

theorem unlessFailed_eq_error_iff {nodes : List Tree} :
    unlessFailed nodes = .error .embeddedFailure ↔ failed ∈ nodes := by
  simp [unlessFailed]

theorem unlessFailed_eq_ok_iff {nodes : List Tree} :
    unlessFailed nodes = .ok flat ↔ failed ∉ nodes ∧ flat = nodes := by
  by_cases failure : failed ∈ nodes <;> simp [unlessFailed, failure, eq_comm]

theorem unlessFailed_append (front back : List Tree) :
    unlessFailed (front ++ back) =
      do return (← unlessFailed front) ++ (← unlessFailed back) := by
  by_cases first : failed ∈ front
  · simp only [unlessFailed, List.mem_append, first, true_or, if_true]
    rfl
  · by_cases later : failed ∈ back <;>
    · simp only [unlessFailed, List.mem_append, first, later, false_or, if_true, if_false]
      rfl

mutual

theorem leaves_eq_unlessFailed : ∀ tree : Tree,
    tree.leaves = unlessFailed (tree.places.map Prod.snd)
  | .nothing => rfl
  | .failed => rfl
  | .token _ => rfl
  | .production .. => rfl
  | .labeled .. => rfl
  | .sequence entries => by
    rw [leaves, places]
    exact flatten_eq_unlessFailed 0 entries

/-- Flattening answers with the nodes, unless a failure is among them. -/
theorem flatten_eq_unlessFailed (index : Nat) : ∀ entries : List Tree,
    flatten entries = unlessFailed ((placesFrom index entries).map Prod.snd)
  | [] => rfl
  | tree :: rest => by
    have nodes : (placesFrom index (tree :: rest)).map Prod.snd =
        tree.places.map Prod.snd ++ (placesFrom (index + 1) rest).map Prod.snd := by
      rw [placesFrom, List.map_append, List.map_map]
      rfl
    rw [nodes, unlessFailed_append, flatten, leaves_eq_unlessFailed tree,
      flatten_eq_unlessFailed (index + 1) rest]

end

theorem mem_nodes_iff :
    node ∈ (sequence entries).places.map Prod.snd ↔
      ∃ address, node.At address (.sequence entries) ∧ node.sequence? = none := by
  simp only [List.mem_map, Prod.exists, exists_eq_right, mem_places]

/-! ## Laws -/

/-- Flattening fails if a failure can be reached through sequences. -/
theorem flatten_eq_error_iff :
    flatten entries = .error .embeddedFailure ↔
      ∃ address, failed.At address (.sequence entries) := by
  rw [flatten_eq_unlessFailed 0, unlessFailed_eq_error_iff]
  exact mem_nodes_iff.trans (by simp [sequence?])

/-- Otherwise it answers with the flat form. -/
theorem flatten_eq_ok_iff :
    flatten entries = .ok flat ↔
      (¬ ∃ address, failed.At address (.sequence entries)) ∧ FlatForm entries flat := by
  rw [← flatten_eq_error_iff, flatForm_iff, flatten_eq_unlessFailed 0, unlessFailed_eq_ok_iff,
    unlessFailed_eq_error_iff]
  rfl

theorem FlatForm.sequence?_eq_none (form : FlatForm entries flat) (mem : node ∈ flat) :
    node.sequence? = none := by
  rw [flatForm_iff.mp form] at mem
  obtain ⟨_, _, leaf⟩ := mem_nodes_iff.mp mem
  exact leaf

/-- Trees that are neither failures nor sequences are in one level already. -/
theorem flatten_of_leaves (leaf : ∀ node ∈ flat, node ≠ failed ∧ node.sequence? = none) :
    flatten flat = .ok flat := by
  induction flat with
  | nil => rfl
  | cons node rest ih =>
    obtain ⟨⟨success, single⟩, others⟩ := List.forall_mem_cons.mp leaf
    have alone : node.leaves = .ok [node] := by
      cases node with
      | failed => exact absurd rfl success
      | sequence => cases single
      | _ => rfl
    rw [flatten, alone, ih others]
    rfl

/-- A flat form is its own flat form. -/
theorem flatten_flatten (flattened : flatten entries = .ok flat) : flatten flat = .ok flat := by
  obtain ⟨spared, form⟩ := flatten_eq_ok_iff.mp flattened
  refine flatten_of_leaves fun node mem => ⟨?_, form.sequence?_eq_none mem⟩
  rintro rfl
  rw [flatForm_iff.mp form] at mem
  obtain ⟨address, place, -⟩ := mem_nodes_iff.mp mem
  exact spared ⟨address, place⟩

/-- A list is flattened part by part, from left to right. -/
theorem flatten_append (front back : List Tree) :
    flatten (front ++ back) = do return (← flatten front) ++ (← flatten back) := by
  induction front with
  | nil =>
    rw [List.nil_append, flatten]
    cases flatten back <;> rfl
  | cons tree front ih =>
    rw [List.cons_append, flatten, flatten, ih]
    cases tree.leaves with
    | error => rfl
    | ok heads =>
      cases flatten front with
      | error => rfl
      | ok middle =>
        cases flatten back with
        | error => rfl
        | ok tails => simp [bind, Except.bind, pure, Except.pure]

/-- It fails if and only if a part does. -/
theorem flatten_append_eq_error_iff :
    flatten (front ++ back) = .error .embeddedFailure ↔
      flatten front = .error .embeddedFailure ∨ flatten back = .error .embeddedFailure := by
  rw [flatten_append]
  cases flatten front with
  | error => simp [bind, Except.bind]
  | ok => cases flatten back <;> simp [bind, Except.bind, pure, Except.pure]

/-- The laws of flattening. It fails if and only if a failure can be reached through sequences
alone. Otherwise it answers with the flat form, which is unique: all nodes that can be reached
through sequences and are no sequences, as they are, from left to right. The flat form is flattened
to itself. Two lists that are joined are flattened one behind the other, and this fails if and only
if one of the two does. -/
theorem flatten_laws (entries others : List Tree) :
    (flatten entries = .error .embeddedFailure ↔
      ∃ address, failed.At address (.sequence entries)) ∧
    ((¬ ∃ address, failed.At address (.sequence entries)) →
      ∃ flat, flatten entries = .ok flat ∧ (∀ list, FlatForm entries list ↔ list = flat) ∧
        (∀ node ∈ flat, node.sequence? = none) ∧ flatten flat = .ok flat) ∧
    (flatten (entries ++ others) = do return (← flatten entries) ++ (← flatten others)) ∧
    (flatten (entries ++ others) = .error .embeddedFailure ↔
      flatten entries = .error .embeddedFailure ∨ flatten others = .error .embeddedFailure) := by
  refine ⟨flatten_eq_error_iff, fun spared => ?_, flatten_append _ _, flatten_append_eq_error_iff⟩
  have form := flatForm_iff.mpr (Eq.refl ((sequence entries).places.map Prod.snd))
  have flattened := flatten_eq_ok_iff.mpr ⟨spared, form⟩
  exact ⟨_, flattened, fun _ => flatForm_iff, fun _ => form.sequence?_eq_none,
    flatten_flatten flattened⟩

/-- Sequences in sequences, an empty one among them, and one below a label. -/
def nested : List Tree :=
  [.token .endOfInput, .sequence [.nothing, .sequence [.production "Empty" [],
    .labeled "key" (.sequence [])]], .sequence []]

theorem flatten_laws_nested :
    (¬ ∃ address, failed.At address (.sequence nested)) ∧
    FlatForm nested [.token .endOfInput, .nothing, .production "Empty" [],
      .labeled "key" (.sequence [])] ∧
    flatten (nested ++ [.sequence [.failed]]) = .error .embeddedFailure := by
  obtain ⟨fails, answers, -, either⟩ := flatten_laws nested [.sequence [.failed]]
  have found : flatten nested = .ok [.token .endOfInput, .nothing, .production "Empty" [],
      .labeled "key" (.sequence [])] := rfl
  have spared : ¬ ∃ address, failed.At address (.sequence nested) := by
    rw [← fails, found]
    nofun
  obtain ⟨flat, flattened, only, -⟩ := answers spared
  obtain rfl := Except.ok.inj (flattened.symm.trans found)
  exact ⟨spared, (only _).mpr rfl, either.mpr (.inr rfl)⟩

end Tree

end Descent
