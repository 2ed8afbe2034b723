import Descent.State
import Mathlib.Data.Fin.Tuple.Basic

/-!
# Histories of logs

A log is made by pushing onto an earlier log, any of which may be gone on from more than once, or by
adding the reports of one state to those of another. What it lists is what was inserted on its own
branch: pushing inserts behind everything that its base lists, and merging inserts everything that
the other log lists, one entry after the other. No other branch matters, and making a log changes
none of those before it.
-/

namespace Descent

namespace Log

/-- Every way to read the log tells that it lists these entries. -/
structure Lists (log : Log) (entries : List Diagnostic) : Prop where
  toList_eq : log.toList = entries
  size_eq : log.size = entries.length
  isEmpty_iff : log.isEmpty ↔ entries = []
  last?_eq : log.last? = entries.getLast?
  newestFirst_eq : log.newestFirst = entries.reverse
  since_eq : ∀ count, log.since count = entries.drop count

/-- The ways to read a log agree. -/
theorem lists_toList (log : Log) : log.Lists log.toList where
  toList_eq := rfl
  size_eq := log.length_toList.symm
  isEmpty_iff := by rw [← List.length_eq_zero_iff, length_toList, isEmpty, decide_eq_true_iff]
  last?_eq := by rw [last?, toList, List.getLast?_reverse]
  newestFirst_eq := by rw [toList, List.reverse_reverse]
  since_eq := log.since_eq_drop

theorem lists_iff {log : Log} {entries : List Diagnostic} :
    log.Lists entries ↔ log.toList = entries :=
  ⟨Lists.toList_eq, fun same => same ▸ log.lists_toList⟩

/-- Adding a log pushes its entries one after the other. -/
theorem append_eq_foldl_push (log later : Log) : log ++ later = later.toList.foldl push log := by
  apply ext_toList
  rw [toList_append]
  generalize later.toList = entries
  induction entries generalizing log with
  | nil => simp
  | cons entry entries ih => rw [List.foldl_cons, ← ih, toList_push, List.append_assoc]; rfl

/-- How `n + 1` logs came about, numbered in the order in which they were made. The first one is
empty. Every other one is made from logs in front of it, and any of these may be used again. -/
inductive History : Nat → Type where
  | empty : History 0
  | push {n} (earlier : History n) (base : Fin (n + 1)) (diagnostic : Diagnostic) : History (n + 1)
  | merge {n} (earlier : History n) (base later : Fin (n + 1)) : History (n + 1)

namespace History

variable {n : Nat}

/-- The logs of a history. -/
def logs : {n : Nat} → History n → Fin (n + 1) → Log
  | _, .empty => fun _ => .empty
  | _, .push earlier base diagnostic =>
    Fin.snoc earlier.logs ((earlier.logs base).push diagnostic)
  | _, .merge earlier base later => Fin.snoc earlier.logs (earlier.logs base ++ earlier.logs later)

/-- What was inserted on the branch of each log, from the empty log on. -/
def inserted : {n : Nat} → History n → Fin (n + 1) → List Diagnostic
  | _, .empty => fun _ => []
  | _, .push earlier base diagnostic =>
    Fin.snoc earlier.inserted (earlier.inserted base ++ [diagnostic])
  | _, .merge earlier base later =>
    Fin.snoc earlier.inserted (earlier.inserted base ++ earlier.inserted later)

/-- Behind logs that list what they should, one more that does. -/
theorem toList_snoc {logs : Fin n → Log} {lists : Fin n → List Diagnostic} {log : Log}
    {entries : List Diagnostic} (before : ∀ i, (logs i).toList = lists i)
    (last : log.toList = entries) (i : Fin (n + 1)) :
    (@Fin.snoc n (fun _ => Log) logs log i).toList =
      @Fin.snoc n (fun _ => List Diagnostic) lists entries i := by
  induction i using Fin.lastCases with
  | last => rw [Fin.snoc_last, Fin.snoc_last, last]
  | cast i => rw [Fin.snoc_castSucc, Fin.snoc_castSucc, before]

/-- Each log lists what was inserted on its branch. -/
theorem toList_logs (history : History n) (i : Fin (n + 1)) :
    (history.logs i).toList = history.inserted i := by
  induction history with
  | empty => rfl
  | push earlier base diagnostic ih => exact toList_snoc ih (by rw [toList_push, ih]) i
  | merge earlier base later ih => exact toList_snoc ih (by rw [toList_append, ih, ih]) i

/-- A log is the list of its insertions. However logs came about, by pushing onto any earlier one
and by merging any two, every way to read one of them tells what was inserted on its own branch, in
this order. If the reports of a state are added to those of another one, or to its own, they are
pushed one after the other, and the log lists all that the one listed and then all that the other
did. -/
theorem logs_list_insertions (history : History n) :
    (∀ i, (history.logs i).Lists (history.inserted i)) ∧
    ∀ (state other : State) (i j : Fin (n + 1)), state.log = history.logs i →
      other.log = history.logs j →
      (state.reportAllOf other).log = other.log.toList.foldl Log.push state.log ∧
      (state.reportAllOf other).log.Lists (history.inserted i ++ history.inserted j) := by
  refine ⟨fun i => lists_iff.mpr (history.toList_logs i), fun state other i j same same' => ?_⟩
  rw [State.reportAllOf_log]
  refine ⟨append_eq_foldl_push _ _, lists_iff.mpr ?_⟩
  rw [toList_append, same, same', toList_logs, toList_logs]

/-- A report in the words of an author, at the end of the input. -/
def remark (text : String) : Diagnostic := ⟨.endOfInput, .custom text⟩

/-- Two branches from the empty log, the first of which is gone on with behind the second. -/
def forked : History 3 :=
  ((History.empty.push 0 (remark "left")).push 0 (remark "right")).push 1 (remark "leaf")

/-- A state that takes over its own reports. -/
theorem logs_list_insertions_forked :
    (forked.logs 3).Lists [remark "left", remark "leaf"] ∧
    ((State.mk (fun _ => .endOfInput) 1 (forked.logs 3)).reportAllOf
      (.mk (fun _ => .endOfInput) 1 (forked.logs 3))).log.Lists
        [remark "left", remark "leaf", remark "left", remark "leaf"] := by
  obtain ⟨lists, merged⟩ := logs_list_insertions forked
  exact ⟨lists 3, (merged (.mk _ _ (forked.logs 3)) (.mk _ _ (forked.logs 3)) 3 3 rfl rfl).2⟩

end History

end Log

end Descent
