import Descent.Diagnostic

/-!
# Logs

A log is a list of diagnostics that only grows. Pushing makes a new log and leaves the old one
as it was, so a speculative branch can report freely and be forgotten with its log. Branches share
what they have in common, and the size is kept beside the entries so that it costs nothing to ask.

`toList` is the view in which the other operations are stated.
-/

namespace Descent

/-- The diagnostics recorded so far, the newest in front. -/
structure Log where
  newestFirst : List Diagnostic
  size : Nat
  size_eq : size = newestFirst.length

namespace Log

def empty : Log := ⟨[], 0, rfl⟩

instance : Inhabited Log := ⟨empty⟩

def push (log : Log) (diagnostic : Diagnostic) : Log :=
  ⟨diagnostic :: log.newestFirst, log.size + 1, by simp [log.size_eq]⟩

/-- The entries in the order in which they were recorded. -/
def toList (log : Log) : List Diagnostic := log.newestFirst.reverse

def isEmpty (log : Log) : Bool := log.size = 0

/-- The entry recorded last. -/
def last? (log : Log) : Option Diagnostic := log.newestFirst.head?

/-- The entries recorded after the first `count` ones. -/
def since (log : Log) (count : Nat) : List Diagnostic :=
  (log.newestFirst.take (log.size - count)).reverse

/-- Records every entry of `later` after those of `log`. -/
def append (log later : Log) : Log :=
  ⟨later.newestFirst ++ log.newestFirst, log.size + later.size, by
    simp [log.size_eq, later.size_eq, Nat.add_comm]⟩

instance : Append Log := ⟨append⟩

@[ext] theorem ext_toList {a b : Log} (h : a.toList = b.toList) : a = b := by
  obtain ⟨xs, n, hn⟩ := a
  obtain ⟨ys, m, hm⟩ := b
  have same : xs = ys := List.reverse_inj.mp h
  subst same
  simp [hn, hm]

@[simp] theorem toList_empty : empty.toList = [] := rfl

@[simp] theorem toList_push (log : Log) (diagnostic : Diagnostic) :
    (log.push diagnostic).toList = log.toList ++ [diagnostic] := by
  simp [toList, push]

@[simp] theorem toList_append (log later : Log) :
    (log ++ later).toList = log.toList ++ later.toList := by
  show (append log later).toList = _
  simp [append, toList]

@[simp] theorem length_toList (log : Log) : log.toList.length = log.size := by
  simp [toList, log.size_eq]

@[simp] theorem since_eq_drop (log : Log) (count : Nat) :
    log.since count = log.toList.drop count := by
  simp [since, toList, log.size_eq, List.reverse_take]
  omega

end Log

end Descent
