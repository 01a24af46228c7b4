import VeltrixDB.Storage.IndexCount
import VeltrixDB.Storage.RaftApplied
import VeltrixDB.Storage.Transaction

/-!
# The index with its values

What the raft state machine and its snapshots see of the index: for each key
the stamp of its entry, and the value with its deadline unless the entry is a
tombstone.  Where a value is stored does not matter to them.  Outside a command
expired keys are tombstoned up to the raft clock only
(`expiryCutoffUs` in `storage/raft_clock.go`).

Main results:

- The `cells_` lemmas say what the operations of the slots do to the values.
- Theorem `Slots.read_markExpired`: a read from the cutoff on does not see
  whether an expired key was tombstoned.
-/

namespace VeltrixDB.Storage

open Function

/-! ## Slots -/

/-- The entry of each key: its stamp, and the value with its deadline unless it is
a tombstone. -/
abbrev Slots := Key → Option (Int × Option (List UInt8 × Int))

variable (s : Slots)

def Slots.cells : Keyspace := fun k =>
  (s k).bind fun c => c.2.map fun p => (c.1, p)

def Slots.isTombstone (k : Key) : Bool :=
  match s k with
  | some (_, none) => true
  | _ => false

def Slots.put (k : Key) (c : Cell) : Slots :=
  update s k (some (c.1, some c.2))

/-- `markTombstone`: only a key with an entry gets a tombstone. -/
def Slots.markTombstone (k : Key) (nowUs : Int) : Slots :=
  match s k with
  | none => s
  | some _ => update s k (some (nowUs, none))

def Slots.markExpired (k : Key) (cutoffUs tombUs : Int) : Slots :=
  match s.cells k with
  | none => s
  | some c => if (c.at cutoffUs).isSome then s else s.markTombstone k tombUs

def Slots.removeTombstone (k : Key) : Slots :=
  if s.isTombstone k then update s k none else s

/-- `expiryCutoffUs`: the time up to which expired keys may be
tombstoned. -/
def RaftClock.expiryCutoffUs (c : RaftClock) (cur : Option WriteClock) (localUs : Int) : Int :=
  match cur with
  | some t => t.nowUs
  | none => if 0 < c.last ∧ c.last < localUs then c.last else localUs

/-- `versionToken` of a key that is live. -/
def Cell.token (floorUs : Int) (c : Cell) : Nat :=
  if c.1 ≤ 0 ∨ (0 < floorUs ∧ c.1 < floorUs) then legacyVersion else c.1.toNat

/-! ## What the operations do to the keyspace -/

section Cells

variable {s : Slots} {k : Key}

namespace Slots

theorem cells_update (s : Slots) (k : Key) (c : Option (Int × Option (List UInt8 × Int))) :
    cells (update s k c) =
      update s.cells k (c.bind fun c => c.2.map fun p => (c.1, p)) := by
  funext x
  unfold cells
  by_cases hx : x = k
  · subst hx
    rw [update_self, update_self]
  · rw [update_of_ne hx, update_of_ne hx]

theorem cells_put (s : Slots) (k : Key) (c : Cell) :
    (s.put k c).cells = update s.cells k (some c) :=
  s.cells_update k _

theorem cells_markTombstone (s : Slots) (k : Key) (nowUs : Int) :
    (s.markTombstone k nowUs).cells = update s.cells k none := by
  unfold markTombstone
  split
  next hnone =>
    have hcell : s.cells k = none := by
      unfold cells
      rw [hnone]
      rfl
    rw [← hcell, update_eq_self]
  · exact s.cells_update k _

theorem cells_removeTombstone (s : Slots) (k : Key) : (s.removeTombstone k).cells = s.cells := by
  unfold removeTombstone
  split
  next h =>
    have hcell : s.cells k = none := by
      unfold isTombstone at h
      unfold cells
      split at h
      next heq => rw [heq]; rfl
      · cases h
    rw [cells_update, Option.bind_none, ← hcell, update_eq_self]
  · rfl

end Slots

/-- A cell that expired stays so. -/
theorem Cell.at_eq_none_of_le {c : Cell} {t t' : Int} (h : c.at t = none) (ht : t ≤ t') :
    c.at t' = none := by
  unfold Cell.at unexpired at h ⊢
  split at h
  next hexp => rw [if_pos ⟨hexp.1, hexp.2.trans ht⟩]; rfl
  · cases h

theorem Slots.read_markExpired (s : Slots) (k x : Key) {cutoffUs nowUs : Int} (tombUs : Int)
    (h : cutoffUs ≤ nowUs) :
    (s.markExpired k cutoffUs tombUs).cells.read x nowUs = s.cells.read x nowUs := by
  unfold Slots.markExpired
  split
  · rfl
  next c hc =>
    split
    · rfl
    next hexp =>
      unfold Keyspace.read
      rw [Slots.cells_markTombstone]
      by_cases hx : x = k
      · subst hx
        have hnone : c.at cutoffUs = none := Option.not_isSome_iff_eq_none.mp hexp
        rw [update_self, hc]
        exact (Cell.at_eq_none_of_le hnone h).symm
      · rw [update_of_ne hx]

end Cells

end VeltrixDB.Storage
