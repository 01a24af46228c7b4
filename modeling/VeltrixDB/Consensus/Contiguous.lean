import VeltrixDB.Consensus.Node

/-!
# Logs without gaps

The retained log of a node continues its snapshot without a gap.  Then the index
arithmetic of the node is list arithmetic.

Main results:

- Definition `NodeCore.Contiguous`.
- Theorems `NodeCore.Contiguous.lastLogIndex_eq`, `NodeCore.Contiguous.entryAt_eq`,
  `NodeCore.Contiguous.logTerm_eq` and `NodeCore.Contiguous.entriesFrom_eq`.
-/

namespace VeltrixDB.Consensus

open List

namespace NodeCore

variable {ι κ : Type}

/-- The retained log starts right after the snapshot and has no gap. -/
def Contiguous (n : NodeCore ι κ) : Prop :=
  IndexedFrom (n.lastIncludedIndex + 1) n.log

namespace Contiguous

variable {n : NodeCore ι κ}

theorem lastLogIndex_eq (h : n.Contiguous) :
    n.lastLogIndex = n.lastIncludedIndex + n.log.length := by
  rw [lastLogIndex]
  rcases eq_nil_or_concat n.log with hnil | ⟨log, e, hlog⟩
  · simp [hnil]
  · have hlast : n.log.getLast? = some e := by simp [hlog]
    have hidx := h.getLast_index (by simp [hlog])
    rw [getLast_of_getLast?_eq_some hlast] at hidx
    rw [hlast]
    dsimp only
    omega

theorem logFirstIndex_eq (h : n.Contiguous) : n.logFirstIndex = n.lastIncludedIndex + 1 := by
  rw [logFirstIndex]
  rw [Contiguous] at h
  cases hlog : n.log with
  | nil => rfl
  | cons =>
    rw [hlog] at h
    exact h.1

theorem entryAt_eq (h : n.Contiguous) (i : Nat) :
    n.entryAt i = if i ≤ n.lastIncludedIndex then none else n.log[i - n.lastIncludedIndex - 1]? := by
  have hlast := h.lastLogIndex_eq
  rw [Contiguous] at h
  rw [entryAt]
  cases hlog : n.log with
  | nil => simp
  | cons e =>
    rw [hlog] at h hlast
    have hidx : e.index = n.lastIncludedIndex + 1 := h.1
    rw [List.head?_cons]
    dsimp only
    rw [hidx]
    by_cases hle : i ≤ n.lastIncludedIndex
    · rw [if_pos (.inl (by omega)), if_pos hle]
    · rw [if_neg hle, Nat.sub_add_eq]
      split
      next hout =>
        rw [eq_comm, List.getElem?_eq_none_iff]
        omega
      · rfl

theorem entriesFrom_eq (h : n.Contiguous) {i : Nat} (hi : n.lastIncludedIndex < i) :
    n.entriesFrom i = n.log.drop (i - n.lastIncludedIndex - 1) := by
  have hlast := h.lastLogIndex_eq
  rw [Contiguous] at h
  rw [entriesFrom]
  cases hlog : n.log with
  | nil => simp
  | cons e =>
    rw [hlog] at h hlast
    have hidx : e.index = n.lastIncludedIndex + 1 := h.1
    rw [List.head?_cons]
    dsimp only
    rw [hidx]
    split
    · rw [eq_comm, drop_eq_nil_iff]
      omega
    · rfl

/-- The term after the snapshot position is that of the entry there. -/
theorem logTerm_eq (h : n.Contiguous) {i : Nat} (hi : n.lastIncludedIndex < i) :
    n.logTerm i = ((n.log[i - n.lastIncludedIndex - 1]?).map LogEntry.term).getD 0 := by
  rw [logTerm, if_neg (by omega), if_neg (by omega), h.entryAt_eq, if_neg (by omega)]

end Contiguous

end NodeCore

end VeltrixDB.Consensus
