import Descent.Grammar
import Mathlib.Data.List.Nodup

/-!
# Entering productions

The registry of a draft takes a production under each name once. Entries that come again are noted as
problems, so that the first problem is that of the first name that is repeated.
-/

namespace Descent.Draft

theorem lookup_singleton {α β : Type} [DecidableEq α] {key other : α} {value : β} :
    [(key, value)].lookup other = if other = key then some value else none := by
  by_cases same : other = key
  · rw [same, List.lookup_cons_self, if_pos rfl]
  · rw [if_neg same, List.lookup_eq_none_iff]
    exact List.forall_mem_singleton.mpr (bne_iff_ne.mpr same)

/-- The name is the first that stands in the list for the second time. -/
def FirstRepeated (name : String) (names : List String) : Prop :=
  ∃ before after, names = before ++ name :: after ∧ before.Nodup ∧ name ∈ before

section Repeated

variable {name other : String} {names more : List String}

theorem FirstRepeated.append (h : FirstRepeated name names) : FirstRepeated name (names ++ more) := by
  obtain ⟨before, after, rfl, distinct, mem⟩ := h
  exact ⟨before, after ++ more, by simp, distinct, mem⟩

theorem FirstRepeated.not_nodup (h : FirstRepeated name names) : ¬ names.Nodup := by
  obtain ⟨before, after, rfl, -, mem⟩ := h
  intro distinct
  exact (List.nodup_append.mp distinct).2.2 name mem name List.mem_cons_self rfl

theorem eq_of_longer {before between after after' : List String} (mem : name ∈ before)
    (distinct : (before ++ between).Nodup) (same : name :: after = between ++ other :: after') :
    name = other := by
  cases between with
  | nil => exact (List.cons.inj same).1
  | cons first between =>
    obtain rfl : name = first := (List.cons.inj same).1
    exact absurd rfl ((List.nodup_append.mp distinct).2.2 name mem name List.mem_cons_self)

theorem FirstRepeated.unique (h : FirstRepeated name names) (h' : FirstRepeated other names) :
    name = other := by
  obtain ⟨before, after, same, distinct, mem⟩ := h
  obtain ⟨before', after', rfl, distinct', mem'⟩ := h'
  obtain ⟨between, rfl, rest⟩ | ⟨between, rfl, rest⟩ := List.append_eq_append_iff.mp same
  · exact (eq_of_longer mem' distinct rest).symm
  · exact eq_of_longer mem distinct' rest

end Repeated

/-- The registry and the problems of a draft are those of these entries. The first shape of a name
counts; the problems are in the order of the names, the first one is that of the first name repeated. -/
structure Entered (entries : List (String × Option Shape)) (registry : Registry)
    (problems : List GrammarError) : Prop where
  shapes : ∀ name, registry.shapes.find? name = entries.lookup name
  order : (entries.map Prod.fst).Nodup ∧ problems = [] ∧ registry.order = entries.map Prod.fst ∨
    ∃ name rest, FirstRepeated name (entries.map Prod.fst) ∧
      problems = .duplicateProduction name :: rest

section Entered

variable {draft : Draft} {registry : Registry} {problems : List GrammarError}
variable {entries : List (String × Option Shape)} {name : String} {shape : Option Shape}

theorem Entered.start : Entered [] .empty [] where
  shapes _ := rfl
  order := .inl ⟨List.nodup_nil, rfl, rfl⟩

theorem Entered.contains_iff (h : Entered entries registry problems) :
    registry.contains name = true ↔ name ∈ entries.map Prod.fst := by
  rw [Registry.contains, NameMap.contains, h.shapes, List.lookup_isSome_iff, List.mem_map]
  exact exists_congr fun entry => and_congr_right fun _ => beq_iff_eq.trans eq_comm

/-- A name that comes again is a problem and keeps the shape that it had. -/
theorem Entered.again (h : Entered entries registry problems)
    (known : registry.contains name = true) :
    Entered (entries ++ [(name, shape)]) registry
      (problems ++ [.duplicateProduction name]) where
  shapes other := by
    rw [h.shapes, List.lookup_append, lookup_singleton]
    by_cases same : other = name
    · have given : (entries.lookup other).isSome := by
        rw [same, ← h.shapes]
        exact known
      rw [Option.or_of_isSome given]
    · rw [if_neg same, Option.or_none]
  order := by
    rw [List.map_append, List.map_singleton]
    right
    obtain ⟨distinct, clean, -⟩ | ⟨first, rest, repeats, noted⟩ := h.order
    · refine ⟨name, [], ⟨_, [], rfl, distinct, h.contains_iff.mp known⟩, ?_⟩
      rw [clean, List.nil_append]
    · refine ⟨first, rest ++ [.duplicateProduction name], repeats.append, ?_⟩
      rw [noted, List.cons_append]

/-- A new name stands behind all others, with the shape that it is given. -/
theorem Entered.add (h : Entered entries registry problems)
    (new : ¬ registry.contains name = true) :
    Entered (entries ++ [(name, shape)])
      ⟨registry.order ++ [name], registry.shapes.insert name shape⟩ problems where
  shapes other := by
    rw [List.lookup_append, lookup_singleton, ← h.shapes]
    by_cases same : other = name
    · have missing : registry.shapes.find? other = none := by
        rw [same]
        exact Option.not_isSome_iff_eq_none.mp new
      rw [missing, if_pos same, same]
      exact NameMap.find?_insert_self ..
    · rw [if_neg same, Option.or_none]
      exact NameMap.find?_insert_of_ne _ _ same
  order := by
    rw [List.map_append, List.map_singleton]
    obtain ⟨distinct, clean, ordered⟩ | ⟨first, rest, repeats, noted⟩ := h.order
    · left
      have absent : name ∉ entries.map Prod.fst := fun mem => new (h.contains_iff.mpr mem)
      have longer : (entries.map Prod.fst ++ [name]).Nodup := by
        rw [← List.concat_eq_append]
        exact distinct.concat absent
      exact ⟨longer, clean, by rw [ordered]⟩
    · right
      exact ⟨first, rest, repeats.append, noted⟩

theorem enter_of_contains (known : draft.registry.contains name = true) :
    draft.enter name shape =
      { draft with problems := draft.problems ++ [.duplicateProduction name] } := by
  rw [enter, Registry.register, if_pos known]

theorem enter_of_new (new : ¬ draft.registry.contains name = true) :
    draft.enter name shape = { draft with
      registry := ⟨draft.registry.order ++ [name], draft.registry.shapes.insert name shape⟩ } := by
  rw [enter, Registry.register, if_neg new]

theorem Entered.enter (h : Entered entries draft.registry draft.problems) :
    Entered (entries ++ [(name, shape)]) (draft.enter name shape).registry
      (draft.enter name shape).problems := by
  by_cases known : draft.registry.contains name
  · rw [enter_of_contains known]
    exact h.again known
  · rw [enter_of_new known]
    exact h.add known

end Entered

end Descent.Draft
