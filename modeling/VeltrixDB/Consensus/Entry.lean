import Mathlib.Data.List.Basic

/-!
# Entries of the replicated log

The log entry of `consensus/raft.go` and the shape every in-memory log
has: consecutive indices from some first index on.

Main results:

- Theorem `indexedFrom_append`: consecutive logs concatenate.
- Theorem `IndexedFrom.getElem_index`: the position of an entry determines
  its index.
-/

namespace VeltrixDB.Consensus

open List

/-- The kind of a log entry, the byte that is written to disk. -/
abbrev EntryType := UInt8

/-- An opaque command applied to the state machine. -/
def entryNormal : EntryType := 0

def entryConfig : EntryType := 1

/-- One entry of the replicated log.  The command type is left open: the log
store writes byte strings, the protocol never looks inside. -/
structure LogEntry (κ : Type) where
  term : Nat
  index : Nat
  type : EntryType
  command : κ
deriving DecidableEq, Repr

variable {κ : Type}

/-! ## Consecutive logs -/

/-- The entries have the consecutive indices `s`, `s + 1`, and so on. -/
def IndexedFrom : Nat → List (LogEntry κ) → Prop
  | _, [] => True
  | s, e :: es => e.index = s ∧ IndexedFrom (s + 1) es

instance instDecidableIndexedFrom (s : Nat) (log : List (LogEntry κ)) :
    Decidable (IndexedFrom s log) :=
  match s, log with
  | _, [] => isTrue trivial
  | s, _ :: es =>
    have := instDecidableIndexedFrom (s + 1) es
    inferInstanceAs (Decidable (_ ∧ _))

@[simp] theorem indexedFrom_nil (s : Nat) : IndexedFrom s ([] : List (LogEntry κ)) := trivial

@[simp] theorem indexedFrom_cons (s : Nat) (e : LogEntry κ) (es : List (LogEntry κ)) :
    IndexedFrom s (e :: es) ↔ e.index = s ∧ IndexedFrom (s + 1) es := Iff.rfl

/-- Two consecutive logs concatenate exactly when the second starts where the
first ends. -/
theorem indexedFrom_append (s : Nat) (xs ys : List (LogEntry κ)) :
    IndexedFrom s (xs ++ ys) ↔ IndexedFrom s xs ∧ IndexedFrom (s + xs.length) ys := by
  induction xs generalizing s with
  | nil => simp
  | cons x xs ih =>
    rw [cons_append, indexedFrom_cons, indexedFrom_cons, ih, length_cons, and_assoc,
      Nat.add_assoc, Nat.add_comm 1]

namespace IndexedFrom

variable {s : Nat} {log : List (LogEntry κ)}

section

variable (h : IndexedFrom s log)
include h

theorem take (k : Nat) : IndexedFrom s (log.take k) := by
  rw [← take_append_drop k log] at h
  exact ((indexedFrom_append _ _ _).1 h).1

theorem drop (k : Nat) (hk : k ≤ log.length) : IndexedFrom (s + k) (log.drop k) := by
  rw [← take_append_drop k log] at h
  have hdrop := ((indexedFrom_append _ _ _).1 h).2
  rwa [length_take_of_le hk] at hdrop

/-- Position determines index. -/
theorem getElem_index (i : Nat) (hi : i < log.length) : log[i].index = s + i := by
  induction log generalizing s i with
  | nil => simp at hi
  | cons e es ih =>
    cases i with
    | zero => simpa using h.1
    | succ i =>
      have hrec := ih h.2 i (by simpa using hi)
      simpa [Nat.add_assoc, Nat.add_comm 1] using hrec

/-- The indices of a consecutive log fill an interval. -/
theorem mem_bounds {e : LogEntry κ} (he : e ∈ log) : s ≤ e.index ∧ e.index < s + log.length := by
  obtain ⟨i, hi, rfl⟩ := mem_iff_getElem.1 he
  rw [h.getElem_index i hi]
  omega

theorem getLast_index (hne : log ≠ []) : (log.getLast hne).index + 1 = s + log.length := by
  have hpos : 0 < log.length := length_pos_iff.2 hne
  rw [getLast_eq_getElem, h.getElem_index]
  omega

theorem head_index (hne : log ≠ []) : (log.head hne).index = s := by
  cases log with
  | nil => exact absurd rfl hne
  | cons => exact h.1

end

end IndexedFrom

end VeltrixDB.Consensus
