import VeltrixDB.Storage.Fidelity
import VeltrixDB.Storage.IndexCount

/-!
# The collector of the value log

Garbage collection of a value log, following `compactVLog` in
`storage/defrag.go`, the scans of `storage/shard.go` that it uses and
`punchDeadHead` in `storage/vlog.go`.  A pass copies the values of live
keys to the end of the log, points their entries to the copies, and then frees
the front of the file up to the lowest offset that a live entry uses.

Main results:

- Theorem `Engine.relocate_spec`: relocation changes the offsets of entries
  only, to offsets after the old end of the log.
-/

namespace VeltrixDB.Storage

/-! ## Candidates -/

structure VlogGCEntry where
  key : Key
  diskOffset : Nat
  valueSize : Nat
  writeTimestampUs : Int
  packed : Bool

/-- `getVLogEntryIfBelow`: the live entry of a key below the horizon. -/
def ShardedIndex.getVLogEntryIfBelow (idx : ShardedIndex) (gcHorizon : Nat) (key : Key) :
    Option VlogGCEntry :=
  match idx.entries key with
  | none => none
  | some e =>
    if e.flags.tombstone ∨ e.diskOffset = 0 ∨ gcHorizon ≤ e.diskOffset then none
    else some ⟨key, e.diskOffset, e.valueSize, e.writeTimestampUs, e.flags.packed⟩

/-- `minLiveVLogOffset`: the lowest offset of a live entry on the disk, or the
largest 64-bit integer. -/
def ShardedIndex.minLiveVLogOffset (idx : ShardedIndex) (diskIdx numDisks : Nat) : Nat :=
  (idx.keys.filter fun k => diskFor numDisks k = diskIdx).foldl
    (fun m k =>
      match idx.entries k with
      | none => m
      | some e => if e.flags.tombstone ∨ e.diskOffset = 0 ∨ m ≤ e.diskOffset then m
          else e.diskOffset)
    (2 ^ 63 - 1)

/-! ## Relocation -/

/-- A value that is staged for relocation, with its offset in the extent. -/
structure GcReloc where
  key : Key
  oldOffset : Nat
  newOffset : Nat
  newPacked : Bool

/-- Read the value of a candidate and stage it, unless it cannot be read. -/
def stageReloc (vl : VLog) (acc : VLogBatcher × List GcReloc) (c : VlogGCEntry) :
    VLogBatcher × List GcReloc :=
  match vl.readValue c.diskOffset c.valueSize with
  | none => acc
  | some value =>
    ((acc.1.stage value).1,
      acc.2 ++ [⟨c.key, c.diskOffset, (acc.1.stage value).2.1, (acc.1.stage value).2.2⟩])

def stageRelocs (vl : VLog) (batch : List VlogGCEntry) : VLogBatcher × List GcReloc :=
  batch.foldl (stageReloc vl) (.new, [])

/-- Point the staged keys to their copies, where the entry is still the one that
was read. -/
def ShardedIndex.relocated (idx : ShardedIndex) (base : Nat) (relocs : List GcReloc) :
    ShardedIndex :=
  relocs.foldl
    (fun idx r => idx.updateVLogOffset r.key r.oldOffset (base + r.newOffset) r.newPacked) idx

/-- Relocate those of the given keys of a disk that are live: stage, write the
extent, update the entries. -/
def Engine.relocate (se : Engine) (d : Nat) (keys : List Key) : Engine :=
  let batch := (keys.filter fun k => se.disk k = d).filterMap
    (se.index.getVLogEntryIfBelow (se.vlogs d).tail)
  let st := stageRelocs (se.vlogs d) batch
  let a := (se.vlogs d).commit st.1
  { se.setVLog d a.1 with index := se.index.relocated a.2 st.2 }

/-! ## Punching -/

def VLog.punchHole (vl : VLog) (length : Nat) : VLog :=
  { vl with
    blobs := fun o => if o < length then none else vl.blobs o
    blobs_lt := by
      intro o v h
      split at h
      · cases h
      · exact vl.blobs_lt o v h }

/-- `punchDeadHead`: free whole blocks below an offset and save how far, unless
it was done before. -/
def VLog.punchDeadHead (vl : VLog) (minLiveOffset : Nat) : VLog :=
  if alignDown minLiveOffset ≤ vl.punchWatermark then vl
  else
    { vl.punchHole (alignDown minLiveOffset) with
      punchWatermark := alignDown minLiveOffset
      savedWatermark := alignDown minLiveOffset }

/-- `applyVLogEmergencyPunch` and the part of `newVLog` that loads the
watermark: when the log is opened, everything below the saved watermark is freed
again. -/
def VLog.reopen (vl : VLog) : VLog :=
  if vl.savedWatermark = 0 then vl
  else { vl.punchHole vl.savedWatermark with punchWatermark := vl.savedWatermark }

/-! ## What they change -/

section Lemmas

variable {idx : ShardedIndex} {key k : Key} {e : IndexEntry}

/-- The entry is another's with a different place in the value log. -/
structure IndexEntry.MovedFrom (e e₀ : IndexEntry) : Prop where
  segmentID : e.segmentID = e₀.segmentID
  valueSize : e.valueSize = e₀.valueSize
  uncompressedSize : e.uncompressedSize = e₀.uncompressedSize
  tombstone : e.flags.tombstone = e₀.flags.tombstone
  compressed : e.flags.compressed = e₀.flags.compressed

theorem IndexEntry.MovedFrom.refl (e : IndexEntry) : e.MovedFrom e := ⟨rfl, rfl, rfl, rfl, rfl⟩

theorem IndexEntry.MovedFrom.trans {e₁ e₂ e₃ : IndexEntry} (h : e₁.MovedFrom e₂)
    (h' : e₂.MovedFrom e₃) : e₁.MovedFrom e₃ where
  segmentID := h.segmentID.trans h'.segmentID
  valueSize := h.valueSize.trans h'.valueSize
  uncompressedSize := h.uncompressedSize.trans h'.uncompressedSize
  tombstone := h.tombstone.trans h'.tombstone
  compressed := h.compressed.trans h'.compressed

theorem ShardedIndex.entries_updateVLogOffset {oldOffset newOffset : Nat} {newPacked : Bool}
    (h : (idx.updateVLogOffset key oldOffset newOffset newPacked).entries k = some e) :
    ∃ e₀, idx.entries k = some e₀ ∧ e.MovedFrom e₀ ∧
      (e.diskOffset = e₀.diskOffset ∨ e.diskOffset = newOffset) := by
  by_cases hk : k = key
  · subst hk
    change Function.update idx.entries k _ k = some e at h
    rw [Function.update_self, Option.map_eq_some_iff] at h
    obtain ⟨e₀, he₀, rfl⟩ := h
    refine ⟨e₀, he₀, ?_⟩
    split
    · exact ⟨.refl e₀, .inl rfl⟩
    · exact ⟨⟨rfl, rfl, rfl, rfl, rfl⟩, .inr rfl⟩
  · change Function.update idx.entries key _ k = some e at h
    rw [Function.update_of_ne hk] at h
    exact ⟨e, h, .refl e, .inl rfl⟩

/-- An entry after relocation: as before, or moved to the new extent. -/
theorem ShardedIndex.entries_relocated {base : Nat} (relocs : List GcReloc)
    (h : (idx.relocated base relocs).entries k = some e) :
    ∃ e₀, idx.entries k = some e₀ ∧ e.MovedFrom e₀ ∧
      (e.diskOffset = e₀.diskOffset ∨ base ≤ e.diskOffset) := by
  induction relocs generalizing idx with
  | nil => exact ⟨e, h, .refl e, .inl rfl⟩
  | cons r relocs ih =>
    obtain ⟨e₁, he₁, hmoved₁, hoff₁⟩ := ih h
    obtain ⟨e₀, he₀, hmoved₀, hoff₀⟩ := ShardedIndex.entries_updateVLogOffset he₁
    refine ⟨e₀, he₀, hmoved₁.trans hmoved₀, ?_⟩
    omega

theorem ShardedIndex.dirtyValues_relocated (idx : ShardedIndex) (base : Nat)
    (relocs : List GcReloc) : (idx.relocated base relocs).dirtyValues = idx.dirtyValues := by
  induction relocs generalizing idx with
  | nil => rfl
  | cons r relocs ih => exact ih _

/-- Relocation moves entries to the end of their log and leaves everything else
of them alone. -/
theorem Engine.relocate_spec (se : Engine) (d : Nat) (keys : List Key)
    (h : (se.relocate d keys).index.entries k = some e) :
    ∃ e₀, se.index.entries k = some e₀ ∧ e.MovedFrom e₀ ∧
      (e.diskOffset = e₀.diskOffset ∨ (se.vlogs d).tail ≤ e.diskOffset) :=
  ShardedIndex.entries_relocated _ h

end Lemmas

end VeltrixDB.Storage
