import Descent.NameMap

/-!
# Filling maps

A map is filled by inserting named values one after the other. Entries that are sorted come out as
they are, and under each name stands the value that was inserted last.
-/

namespace Descent

namespace NamedEntries

variable {α : Type} {old new : NamedEntries α}

/-- A name behind all others is inserted at the end. -/
theorem insert_last {name : String} (value : α) {entries : NamedEntries α}
    (last : ∀ entry ∈ entries, entry.1 < name) :
    insert name value entries = entries ++ [(name, value)] := by
  induction entries with
  | nil => rfl
  | cons entry entries ih =>
    obtain ⟨first, others⟩ := List.forall_mem_cons.mp last
    have notLess : ¬ name < entry.1 := String.lt_asymm first
    have different : name ≠ entry.1 := by
      rintro rfl
      exact String.lt_irrefl _ first
    rw [insert, if_neg notLess, if_neg different, ih others, List.cons_append]

/-- Inserts the new entries one after the other. -/
def insertAll (old new : NamedEntries α) : NamedEntries α :=
  new.foldl (fun entries entry => insert entry.1 entry.2 entries) old

@[simp] theorem insertAll_nil (old : NamedEntries α) : insertAll old [] = old := rfl

@[simp] theorem insertAll_cons (old new : NamedEntries α) (entry : String × α) :
    insertAll old (entry :: new) = insertAll (insert entry.1 entry.2 old) new := rfl

theorem Sorted.insertAll (sorted : Sorted old) : Sorted (insertAll old new) := by
  induction new generalizing old with
  | nil => exact sorted
  | cons entry new ih => exact ih sorted.insert

/-- Entries that are sorted together with the old ones stand behind them. -/
theorem insertAll_of_sorted (sorted : Sorted (old ++ new)) : insertAll old new = old ++ new := by
  induction new generalizing old with
  | nil => rw [insertAll_nil, List.append_nil]
  | cons entry new ih =>
    have last : ∀ earlier ∈ old, earlier.1 < entry.1 := by
      intro earlier mem
      exact (List.pairwise_append.mp sorted).2.2 earlier mem entry List.mem_cons_self
    rw [List.append_cons] at sorted
    rw [insertAll_cons, insert_last entry.2 last, ih sorted, List.append_assoc,
      List.singleton_append]

theorem find?_append (name : String) (front back : NamedEntries α) :
    find? name (front ++ back) = (find? name front).or (find? name back) := by
  induction front with
  | nil => rfl
  | cons entry front ih =>
    rw [List.cons_append, find?, find?, ih]
    split <;> rfl

/-- Under each name stands what was inserted last, or else what was there before. -/
theorem find?_insertAll (name : String) (old new : NamedEntries α) :
    find? name (insertAll old new) = (find? name new.reverse).or (find? name old) := by
  induction new generalizing old with
  | nil => rfl
  | cons entry new ih =>
    rw [insertAll_cons, ih, List.reverse_cons, find?_append, Option.or_assoc]
    congr 1
    by_cases same : name = entry.1
    · subst same
      simp [find?]
    · rw [find?_insert_of_ne entry.2 old same]
      simp [find?, same]

end NamedEntries

namespace NameMap

variable {α : Type}

@[ext] theorem ext_entries {a b : NameMap α} (same : a.entries = b.entries) : a = b := by
  cases a
  cases b
  simpa using same

/-- Inserts the new entries one after the other. -/
def insertAll (map : NameMap α) (new : NamedEntries α) : NameMap α :=
  ⟨map.entries.insertAll new, map.sorted.insertAll⟩

@[simp] theorem insertAll_nil (map : NameMap α) : map.insertAll [] = map := rfl

@[simp] theorem insertAll_cons (map : NameMap α) (new : NamedEntries α) (entry : String × α) :
    map.insertAll (entry :: new) = (map.insert entry.1 entry.2).insertAll new := rfl

/-- A map is made again of its own entries. -/
theorem insertAll_entries (map : NameMap α) : empty.insertAll map.entries = map :=
  ext_entries (NamedEntries.insertAll_of_sorted map.sorted)

end NameMap

end Descent
