import VeltrixDB.Storage.VLog

/-!
# The index

The in-memory index of a storage engine, following `storage/types.go`,
`storage/shard.go` and `storage/tombstone_checkpoint.go`.  Its shards
partition the keys and matter only for locking and for the choice of a disk,
so the index is one map here; it keeps the list of keys that were ever
inserted, for the scans that walk over all of them.

Main results:

- Lemmas `ShardedIndex.entries_put` and `ShardedIndex.entries_setDirty`: a put
  changes the entry of its key, and a value in memory changes none.
-/

namespace VeltrixDB.Storage

open Function List

/-! ## Entries -/

/-- The bits of `Flags`. -/
structure EntryFlags where
  tombstone : Bool := false
  compressed : Bool := false
  encrypted : Bool := false
  hasTTL : Bool := false
  replicaApplied : Bool := false
  packed : Bool := false
deriving DecidableEq, Repr

/-- Where a key's value lives and what is known about it. -/
structure IndexEntry where
  diskOffset : Nat
  segmentID : Nat
  valueSize : Nat
  uncompressedSize : Nat
  writeTimestampUs : Int
  ttlExpiryUs : Int
  crc32c : UInt32
  flags : EntryFlags
deriving DecidableEq, Repr

variable (e : IndexEntry)

/-- The entry has a deadline, and it has passed. -/
def IndexEntry.isExpired (nowUs : Int) : Bool :=
  e.flags.hasTTL && decide (0 < e.ttlExpiryUs) && decide (e.ttlExpiryUs ≤ nowUs)

/-- Turn an entry into a tombstone written at `nowUs`. -/
def IndexEntry.markTombstone (nowUs : Int) : IndexEntry :=
  { e with
    flags := { e.flags with replicaApplied := false, tombstone := true }
    valueSize := 0
    writeTimestampUs := nowUs }

/-- The deadline, 0 for none. -/
def IndexEntry.expiryUs : Int :=
  if e.flags.hasTTL ∧ 0 < e.ttlExpiryUs then e.ttlExpiryUs else 0

/-! ## The map -/

/-- The entries, the values not yet flushed, and the keys seen so far. -/
structure ShardedIndex where
  entries : Key → Option IndexEntry
  dirtyValues : Key → Option (List UInt8)
  keys : List Key
  nodup_keys : keys.Nodup
  mem_keys : ∀ k e, entries k = some e → k ∈ keys

namespace ShardedIndex

def empty : ShardedIndex where
  entries := fun _ => none
  dirtyValues := fun _ => none
  keys := []
  nodup_keys := nodup_nil
  mem_keys := by intro k e h; cases h

/-- Set the entry of a key, whatever it was. -/
def swap (idx : ShardedIndex) (key : Key) (entry : IndexEntry) : ShardedIndex where
  entries := update idx.entries key (some entry)
  dirtyValues := idx.dirtyValues
  keys := if key ∈ idx.keys then idx.keys else key :: idx.keys
  nodup_keys := by
    split
    · exact idx.nodup_keys
    next h => exact nodup_cons.mpr ⟨h, idx.nodup_keys⟩
  mem_keys := by
    intro k e h
    by_cases hk : k = key
    · subst hk
      split
      next hm => exact hm
      · exact mem_cons_self ..
    · rw [update_of_ne hk] at h
      have hm := idx.mem_keys k e h
      split
      · exact hm
      · exact mem_cons_of_mem _ hm

/-- Change the entry of a key in place, if there is one. -/
def update (idx : ShardedIndex) (key : Key) (f : IndexEntry → IndexEntry) :
    ShardedIndex where
  entries := Function.update idx.entries key ((idx.entries key).map f)
  dirtyValues := idx.dirtyValues
  keys := idx.keys
  nodup_keys := idx.nodup_keys
  mem_keys := by
    intro k e h
    by_cases hk : k = key
    · subst hk
      rw [Function.update_self] at h
      obtain ⟨e', he', -⟩ := Option.map_eq_some_iff.mp h
      exact idx.mem_keys k e' he'
    · rw [Function.update_of_ne hk] at h
      exact idx.mem_keys k e h

/-- Set or drop the value of a key held in memory. -/
def setDirty (idx : ShardedIndex) (key : Key) (value : Option (List UInt8)) :
    ShardedIndex :=
  { idx with dirtyValues := Function.update idx.dirtyValues key value }

/-- `put`; a value in memory stays when none is given. -/
def put (idx : ShardedIndex) (key : Key) (entry : IndexEntry)
    (value : Option (List UInt8)) : ShardedIndex :=
  match value with
  | none => idx.swap key entry
  | some v => (idx.swap key entry).setDirty key (some v)

/-- `markTombstone`: a key without an entry gets none. -/
def markTombstone (idx : ShardedIndex) (key : Key) (nowUs : Int) : ShardedIndex :=
  match idx.entries key with
  | none => idx
  | some _ => (idx.update key (·.markTombstone nowUs)).setDirty key none

end ShardedIndex

variable (inOrder : Bool)

/-- Whether replay leaves `existing` in place of a record stamped
`tsUs`. -/
def supersedes (existing : IndexEntry) (tsUs : Int) : Bool :=
  !inOrder && decide (tsUs < existing.writeTimestampUs)

theorem supersedes_iff (existing : IndexEntry) (tsUs : Int) :
    supersedes inOrder existing tsUs = true ↔
      (!inOrder) = true ∧ tsUs < existing.writeTimestampUs := by
  rw [supersedes, Bool.and_eq_true, decide_eq_true_eq]

/-- `put`, unless the entry there is newer. -/
def ShardedIndex.replayPut (idx : ShardedIndex) (key : Key) (entry : IndexEntry)
    (value : Option (List UInt8)) : ShardedIndex :=
  match idx.entries key with
  | none => idx.put key entry value
  | some existing =>
    if supersedes inOrder existing entry.writeTimestampUs then idx
    else idx.put key entry value

/-- `markTombstone`, unless the entry there is newer. -/
def ShardedIndex.replayMarkTombstone (idx : ShardedIndex) (key : Key)
    (nowUs : Int) : ShardedIndex :=
  match idx.entries key with
  | none => idx
  | some existing =>
    if supersedes inOrder existing nowUs then idx
    else (idx.update key (·.markTombstone nowUs)).setDirty key none

/-- Mark a key's tombstone written at `tsUs` as applied from a peer. -/
def ShardedIndex.setReplicaApplied (idx : ShardedIndex) (key : Key) (tsUs : Int) : ShardedIndex :=
  idx.update key fun e =>
    if e.flags.tombstone ∧ e.writeTimestampUs = tsUs then
      { e with flags := { e.flags with replicaApplied := true } }
    else e

/-- The tombstone of a key of which nothing else is known. -/
def bareTombstone (tsUs : Int) (origin : Bool) : IndexEntry where
  diskOffset := 0
  segmentID := 0
  valueSize := 0
  uncompressedSize := 0
  writeTimestampUs := tsUs
  ttlExpiryUs := 0
  crc32c := 0
  flags := { tombstone := true, replicaApplied := origin }

/-- A checkpointed tombstone also makes an entry. -/
def ShardedIndex.replayTombstoneRecord (idx : ShardedIndex) (key : Key)
    (tsUs : Int) (origin : Bool) : ShardedIndex :=
  match idx.entries key with
  | none => idx.swap key (bareTombstone tsUs origin)
  | some _ =>
    let idx := idx.replayMarkTombstone inOrder key tsUs
    if origin then idx.setReplicaApplied key tsUs else idx

/-! ## What the operations do to a key -/

section Lemmas

variable (idx : ShardedIndex) {key k : Key}

@[simp] theorem ShardedIndex.entries_setDirty (v : Option (List UInt8)) :
    (idx.setDirty key v).entries = idx.entries := rfl

/-- A put changes the entry of its key only. -/
theorem ShardedIndex.entries_put (v : Option (List UInt8)) :
    (idx.put key e v).entries = Function.update idx.entries key (some e) := by
  cases v <;> rfl

theorem ShardedIndex.dirtyValues_put_some (v : List UInt8) :
    (idx.put key e (some v)).dirtyValues = Function.update idx.dirtyValues key (some v) := rfl

end Lemmas

end VeltrixDB.Storage
