/-!
# Maps from names

A map from names keeps its entries sorted by name, each name once. Two maps with the same answers
therefore are the same map. Names are ordered character by character.
-/

namespace Descent

/-- Entries with a name. -/
abbrev NamedEntries (α : Type) := List (String × α)

namespace NamedEntries

variable {α : Type}

/-- Puts a value under a name into sorted entries. A value that was there before is replaced. -/
def insert (name : String) (value : α) : NamedEntries α → NamedEntries α
  | [] => [(name, value)]
  | (other, old) :: rest =>
    if name < other then (name, value) :: (other, old) :: rest
    else if name = other then (name, value) :: rest
    else (other, old) :: insert name value rest

/-- The value under a name. -/
def find? (name : String) : NamedEntries α → Option α
  | [] => none
  | (other, value) :: rest => if name = other then some value else find? name rest

/-- Names strictly increase. -/
def Sorted (entries : NamedEntries α) : Prop := entries.Pairwise (·.1 < ·.1)

theorem mem_insert {name : String} {value : α} {entries : NamedEntries α} {entry : String × α}
    (h : entry ∈ insert name value entries) : entry = (name, value) ∨ entry ∈ entries := by
  induction entries with
  | nil => simpa [insert] using h
  | cons head rest ih =>
    obtain ⟨other, old⟩ := head
    simp only [insert] at h
    split at h
    · simpa using h
    · split at h
      · rcases List.mem_cons.mp h with h | h
        · exact .inl h
        · exact .inr (List.mem_cons_of_mem _ h)
      · rcases List.mem_cons.mp h with h | h
        · exact .inr (h ▸ List.mem_cons_self)
        · exact (ih h).imp_right (List.mem_cons_of_mem _)

theorem Sorted.insert {name : String} {value : α} {entries : NamedEntries α}
    (sorted : Sorted entries) : Sorted (insert name value entries) := by
  induction entries with
  | nil => simp [Sorted, NamedEntries.insert]
  | cons head rest ih =>
    obtain ⟨other, old⟩ := head
    obtain ⟨front, back⟩ := List.pairwise_cons.mp sorted
    simp only [NamedEntries.insert]
    split
    · next less =>
      refine List.pairwise_cons.mpr ⟨fun entry mem => ?_, sorted⟩
      rcases List.mem_cons.mp mem with rfl | mem
      · exact less
      · exact String.lt_trans less (front entry mem)
    · next notLess =>
      split
      · next same =>
        subst same
        exact List.pairwise_cons.mpr ⟨front, back⟩
      · next different =>
        refine List.pairwise_cons.mpr ⟨fun entry mem => ?_, ih back⟩
        rcases mem_insert mem with rfl | mem
        · exact Std.lt_of_le_of_ne (String.not_lt.mp notLess) (Ne.symm different)
        · exact front entry mem

@[simp] theorem find?_insert_self (name : String) (value : α) (entries : NamedEntries α) :
    find? name (insert name value entries) = some value := by
  induction entries with
  | nil => simp [insert, find?]
  | cons head rest ih =>
    obtain ⟨other, old⟩ := head
    simp only [insert]
    split
    · simp [find?]
    · split
      · simp [find?]
      · next different => simpa [find?, different] using ih

theorem find?_insert_of_ne {name other : String} (value : α) (entries : NamedEntries α)
    (different : other ≠ name) : find? other (insert name value entries) = find? other entries := by
  induction entries with
  | nil => simp [insert, find?, different]
  | cons head rest ih =>
    obtain ⟨third, old⟩ := head
    simp only [insert]
    split
    · simp [find?, different]
    · split
      · next same =>
        subst same
        simp [find?, different]
      · simp [find?, ih]

end NamedEntries

/-- A finite map from names. -/
structure NameMap (α : Type) where
  entries : NamedEntries α
  sorted : entries.Sorted

namespace NameMap

variable {α : Type}

def empty : NameMap α := ⟨[], .nil⟩

instance : Inhabited (NameMap α) := ⟨empty⟩

instance [DecidableEq α] : DecidableEq (NameMap α) := fun a b =>
  decidable_of_iff (a.entries = b.entries)
    ⟨fun h => by cases a; cases b; simpa using h, fun h => h ▸ rfl⟩

/-- Puts a value under a name, in place of the one that was there. -/
def insert (map : NameMap α) (name : String) (value : α) : NameMap α :=
  ⟨map.entries.insert name value, map.sorted.insert⟩

def find? (map : NameMap α) (name : String) : Option α := map.entries.find? name

def contains (map : NameMap α) (name : String) : Bool := (map.find? name).isSome

@[simp] theorem find?_insert_self (map : NameMap α) (name : String) (value : α) :
    (map.insert name value).find? name = some value :=
  NamedEntries.find?_insert_self name value map.entries

theorem find?_insert_of_ne (map : NameMap α) {name other : String} (value : α)
    (different : other ≠ name) : (map.insert name value).find? other = map.find? other :=
  NamedEntries.find?_insert_of_ne value map.entries different

end NameMap

end Descent
