import VeltrixDB.Lib.Bytes
import VeltrixDB.Lib.Register
import VeltrixDB.Storage.Index

/-!
# Replay of a log into the index

`applyWALReplay` of `storage/wal_replay.go`: the records of one disk's
log are applied to the index one after the other.  A record yields to an entry
with a later stamp.  In key-value separation, records that carry their value
are first written to the value log and installed after all others.

Main results:

- Theorem `visible_applyWALReplay`: what replay makes visible of a key is a
  last-writer-wins register updated by the key's records, in the order in which
  replay installs them.
-/

namespace VeltrixDB.Storage

open Function List ShardedIndex

open Register
open Bytes (fnv64a)

/-! ## Routing -/

def numShards : Nat := 8192

def diskForShard (shardID numDisks : Nat) : Nat :=
  if numDisks ≤ 1 then 0 else shardID % numDisks

def diskFor (numDisks : Nat) (key : Key) : Nat :=
  diskForShard ((fnv64a key).toNat % numShards) numDisks

/-! ## The value transform -/

/-- The compress and encrypt pipeline with its inverse.  The transform says
whether it compressed and whether it encrypted. -/
structure ValueCodec where
  transform : List UInt8 → List UInt8 × Bool × Bool
  untransform : Bool → Bool → Nat → List UInt8 → Option (List UInt8)
  untransform_transform : ∀ v,
    untransform (transform v).2.1 (transform v).2.2 v.length (transform v).1 = some v
  eq_nil_of_transform : ∀ v, (transform v).1 = [] → v = []
  untransform_uncompressed : ∀ enc m n b, untransform false enc m b = untransform false enc n b
  transform_nil : (transform []).2.1 = false

def ValueCodec.plain : ValueCodec where
  transform := fun v => (v, false, false)
  untransform := fun _ _ _ b => some b
  untransform_transform := fun _ => rfl
  eq_nil_of_transform := fun _ h => h
  untransform_uncompressed := fun _ _ _ _ => rfl
  transform_nil := rfl

/-- Bits of the transform byte of a record. -/
def flagCompressed : UInt8 := 0x02
def flagEncrypted : UInt8 := 0x04
def flagReplicaApplied : UInt8 := 0x10

/-- The transform byte carries the bits of `mask`. -/
def hasFlag (x mask : UInt8) : Bool := x &&& mask != 0

/-! ## Reading the index -/

def entryValue (codec : ValueCodec) (vlogs : Nat → VLog) (e : IndexEntry)
    (dirty : Option (List UInt8)) : Option (List UInt8) :=
  match dirty with
  | some v => some v
  | none =>
    if 0 < e.diskOffset then
      match (vlogs e.segmentID).readValue e.diskOffset e.valueSize with
      | none => none
      | some blob => codec.untransform e.flags.compressed e.flags.encrypted e.uncompressedSize blob
    else none

/-- What a read of a key at `nowUs` returns: the value and its deadline. -/
def ShardedIndex.view (codec : ValueCodec) (vlogs : Nat → VLog) (idx : ShardedIndex) (key : Key)
    (nowUs : Int) : Option (List UInt8 × Int) :=
  match idx.entries key with
  | none => none
  | some e =>
    if e.flags.tombstone ∨ e.isExpired nowUs then none
    else (entryValue codec vlogs e (idx.dirtyValues key)).map fun v => (v, e.expiryUs)

/-! ## Replay -/

def WalReplayEntry.stampUs (r : WalReplayEntry) : Int := r.timestampNs.tdiv 1000

def WalReplayEntry.expired (r : WalReplayEntry) (nowUs : Int) : Bool :=
  decide (0 < r.ttlExpiryUs) && decide (r.ttlExpiryUs ≤ nowUs)

def replayEntry (r : WalReplayEntry) : IndexEntry where
  diskOffset := 0
  segmentID := 0
  valueSize := r.diskLen
  uncompressedSize := r.valueLen
  writeTimestampUs := r.stampUs
  ttlExpiryUs := if 0 < r.ttlExpiryUs then r.ttlExpiryUs else 0
  crc32c := r.crc
  flags :=
    { compressed := hasFlag r.xflags flagCompressed
      encrypted := hasFlag r.xflags flagEncrypted
      hasTTL := decide (0 < r.ttlExpiryUs)
      replicaApplied := hasFlag r.xflags flagReplicaApplied
      packed := r.packed }

/-- How a replay is configured, and the time at which it judges expiry. -/
structure ReplayConfig where
  codec : ValueCodec
  kvSep : Bool
  inOrder : Bool
  diskIdx : Nat
  numDisks : Nat
  nowUs : Int

/-- The index and value log so far, and the entries whose values were written
to the value log but are not installed yet. -/
structure ReplayState where
  idx : ShardedIndex
  vl : VLog
  pending : List (Key × IndexEntry)

variable (c : ReplayConfig)

/-- The entry of an inline record whose value was written at `offset` of
the value log. -/
def pendingEntry (r : WalReplayEntry) (offset : Nat) : IndexEntry :=
  let s := c.codec.transform r.value
  let e := replayEntry r
  { e with
    valueSize := s.1.length
    uncompressedSize := r.value.length
    diskOffset := offset
    segmentID := c.diskIdx
    flags := { e.flags with
      compressed := e.flags.compressed || s.2.1
      encrypted := e.flags.encrypted || s.2.2 } }

def replayStep (st : ReplayState) (r : WalReplayEntry) : ReplayState :=
  if diskFor c.numDisks r.key ≠ c.diskIdx then st
  else if r.isTombstone then
    { st with idx := st.idx.replayTombstoneRecord c.inOrder r.key r.stampUs
                (hasFlag r.xflags flagReplicaApplied) }
  else if r.expired c.nowUs then
    { st with idx := st.idx.replayMarkTombstone c.inOrder r.key r.stampUs }
  else if c.kvSep ∧ 0 < r.vlogOffset then
    let e := { replayEntry r with diskOffset := r.vlogOffset.toNat, segmentID := c.diskIdx }
    { st with idx := st.idx.replayPut c.inOrder r.key e none }
  else if c.kvSep ∧ r.value ≠ [] then
    let a := st.vl.beginAppend (c.codec.transform r.value).1
    { st with vl := a.1, pending := st.pending ++ [(r.key, pendingEntry c r a.2)] }
  else if ¬c.kvSep ∧ r.value ≠ [] then
    { st with idx := st.idx.replayPut c.inOrder r.key (replayEntry r) (some r.value) }
  else st

def installPending (inOrder : Bool) (idx : ShardedIndex) (pending : List (Key × IndexEntry)) :
    ShardedIndex :=
  pending.foldl (fun idx p => idx.replayPut inOrder p.1 p.2 none) idx

def applyWALReplay (entries : List WalReplayEntry) (idx : ShardedIndex)
    (vl : VLog) : ShardedIndex × VLog :=
  let st := entries.foldl (replayStep c) { idx := idx, vl := vl, pending := [] }
  (installPending c.inOrder st.idx st.pending, st.vl)

/-! ## Replay as register updates -/

/-- What the index makes visible of a key, before expiry: the stamp, and the
value with its deadline unless the key is deleted. -/
def ShardedIndex.visible (codec : ValueCodec) (vlogs : Nat → VLog) (idx : ShardedIndex)
    (key : Key) : Content Int (List UInt8 × Int) :=
  (idx.entries key).map fun e =>
    (e.writeTimestampUs,
      if e.flags.tombstone then none
      else (entryValue codec vlogs e (idx.dirtyValues key)).map fun v => (v, e.expiryUs))

def recordValue (vl : VLog) (r : WalReplayEntry) : Option (List UInt8) :=
  if c.kvSep ∧ 0 < r.vlogOffset then
    entryValue c.codec (fun _ => vl)
      { replayEntry r with diskOffset := r.vlogOffset.toNat, segmentID := c.diskIdx } none
  else some r.value

def recordUpdate (vl : VLog) (r : WalReplayEntry) : Update Int (List UInt8 × Int) :=
  if r.isTombstone then .delete r.stampUs
  else if r.expired c.nowUs then .expire r.stampUs
  else
    match recordValue c vl r with
    | some v => .write r.stampUs (v, (replayEntry r).expiryUs)
    | none => .delete r.stampUs

/-- A put that is installed after all other records. -/
def deferred (r : WalReplayEntry) : Bool :=
  !r.isTombstone && !r.expired c.nowUs && c.kvSep && decide (r.vlogOffset ≤ 0) &&
    decide (r.value ≠ [])

/-- A put that replay has no case for: nothing points to the value log and
there are no value bytes. -/
def skipped (r : WalReplayEntry) : Bool :=
  !r.isTombstone && !r.expired c.nowUs && !(c.kvSep && decide (0 < r.vlogOffset)) &&
    decide (r.value = [])

def replayOrder (rs : List WalReplayEntry) : List WalReplayEntry :=
  rs.filter (fun r => !deferred c r && !skipped c r) ++ rs.filter (deferred c)

/-- The later log holds everything the earlier one holds. -/
structure VLog.Extends (vl vl' : VLog) : Prop where
  blobs : ∀ {o v}, vl.blobs o = some v → vl'.blobs o = some v

theorem VLog.Extends.refl (vl : VLog) : vl.Extends vl := ⟨fun h => h⟩

theorem VLog.Extends.trans {a b c : VLog} (h : a.Extends b) (h' : b.Extends c) : a.Extends c :=
  ⟨fun hv => h'.blobs (h.blobs hv)⟩

theorem VLog.extends_beginAppend (vl : VLog) (v : List UInt8) : vl.Extends (vl.beginAppend v).1 :=
  ⟨fun h => vl.beginAppend_blobs_of_some h v⟩

section Visible

variable {codec : ValueCodec} {vlogs : Nat → VLog} {idx : ShardedIndex} {key k : Key}
  {inOrder : Bool}

namespace ShardedIndex

theorem visible_congr {idx' : ShardedIndex} (he : idx'.entries k = idx.entries k)
    (hd : idx'.dirtyValues k = idx.dirtyValues k) :
    idx'.visible codec vlogs k = idx.visible codec vlogs k := by
  rw [visible, visible, he, hd]

theorem visible_put_of_ne (h : k ≠ key) (e : IndexEntry) (v : Option (List UInt8)) :
    (idx.put key e v).visible codec vlogs k = idx.visible codec vlogs k := by
  apply visible_congr
  · rw [entries_put, update_of_ne h]
  · cases v with
    | none => rfl
    | some => rw [dirtyValues_put_some, update_of_ne h]

theorem visible_put_self (e : IndexEntry) (v : Option (List UInt8))
    (hv : v = none → idx.dirtyValues k = none) :
    (idx.put k e v).visible codec vlogs k = some (e.writeTimestampUs,
      if e.flags.tombstone then none
      else (entryValue codec vlogs e v).map fun v => (v, e.expiryUs)) := by
  have hd : (idx.put k e v).dirtyValues k = v := by
    cases v with
    | none => exact hv rfl
    | some => rw [dirtyValues_put_some, update_self]
  rw [visible, entries_put, update_self, hd]
  rfl

/-- Tombstoning an entry hides its value. -/
theorem visible_tombstoned (t : Int) :
    ((idx.update k (·.markTombstone t)).setDirty k none).visible codec vlogs k =
      (idx.entries k).map fun _ => (t, none) := by
  rw [visible, entries_setDirty]
  simp only [update, update_self, Option.map_map]
  rfl

theorem visible_tombstoned_of_ne (h : k ≠ key) (t : Int) :
    ((idx.update key (·.markTombstone t)).setDirty key none).visible codec vlogs k =
      idx.visible codec vlogs k := by
  apply visible_congr
  · exact update_of_ne h ..
  · exact update_of_ne h ..

theorem visible_replayPut (e : IndexEntry) (v : Option (List UInt8))
    (hv : v = none → idx.dirtyValues k = none) (u : Update Int (List UInt8 × Int))
    (hu : u.isExpire = false) (hstamp : u.stamp = e.writeTimestampUs)
    (hval : u.value = if e.flags.tombstone then none
      else (entryValue codec vlogs e v).map fun v => (v, e.expiryUs)) :
    (idx.replayPut inOrder k e v).visible codec vlogs k =
      apply inOrder (idx.visible codec vlogs k) u := by
  rw [replayPut]
  cases hk : idx.entries k with
  | none =>
    rw [visible_put_self e v hv, visible, hk]
    simp [apply, hu, hstamp, hval]
  | some existing =>
    have hvis : idx.visible codec vlogs k = some (existing.writeTimestampUs,
        if existing.flags.tombstone then none
        else (entryValue codec vlogs existing (idx.dirtyValues k)).map
          fun v => (v, existing.expiryUs)) := by
      rw [visible, hk]
      rfl
    by_cases hsup : supersedes inOrder existing e.writeTimestampUs = true
    · simp only [hsup, if_true]
      rw [hvis, apply_of_lt (by rw [hstamp]; exact (supersedes_iff ..).mp hsup)]
    · simp only [hsup]
      rw [if_neg Bool.false_ne_true, visible_put_self e v hv, hvis,
        apply_of_not_lt (by rw [hstamp]; exact fun h => hsup ((supersedes_iff ..).mpr h)),
        hstamp, hval]

theorem visible_replayMarkTombstone (t : Int) :
    (idx.replayMarkTombstone inOrder k t).visible codec vlogs k =
      apply inOrder (idx.visible codec vlogs k) (.expire t) := by
  rw [replayMarkTombstone]
  cases hk : idx.entries k with
  | none => simp [visible, hk, apply, Update.isExpire]
  | some existing =>
    have hvis : ∃ a, idx.visible codec vlogs k = some (existing.writeTimestampUs, a) := by
      rw [visible, hk]
      exact ⟨_, rfl⟩
    obtain ⟨a, hvis⟩ := hvis
    by_cases hsup : supersedes inOrder existing t = true
    · simp only [hsup, if_true]
      rw [hvis]
      exact (apply_of_lt ((supersedes_iff inOrder existing t).mp hsup)).symm
    · simp only [hsup]
      have hlt : ¬((!inOrder) = true ∧
          (Update.expire t : Update Int (List UInt8 × Int)).stamp < existing.writeTimestampUs) :=
        fun h => hsup ((supersedes_iff inOrder existing t).mpr h)
      rw [if_neg Bool.false_ne_true, visible_tombstoned, hk, hvis]
      exact (apply_of_not_lt hlt).symm

theorem visible_setReplicaApplied (t : Int) (key k : Key) :
    (idx.setReplicaApplied key t).visible codec vlogs k = idx.visible codec vlogs k := by
  by_cases hk : k = key
  · subst hk
    rw [visible, visible, setReplicaApplied]
    simp only [update, update_self]
    cases idx.entries k with
    | none => rfl
    | some =>
      simp only [Option.map_some]
      split
      next h => simp [h.1]
      · rfl
  · exact visible_congr (update_of_ne hk ..) rfl

theorem visible_replayTombstoneRecord (t : Int) (origin : Bool) :
    (idx.replayTombstoneRecord inOrder k t origin).visible codec vlogs k =
      apply inOrder (idx.visible codec vlogs k) (.delete t) := by
  rw [replayTombstoneRecord]
  cases hk : idx.entries k with
  | none =>
    simp [visible, hk, apply, swap, bareTombstone, Update.isExpire, Update.stamp, Update.value]
  | some =>
    have hmark : (idx.replayMarkTombstone inOrder k t).visible codec vlogs k = _ :=
      visible_replayMarkTombstone t
    have hsame : apply inOrder (idx.visible codec vlogs k) (.expire t) =
        apply inOrder (idx.visible codec vlogs k) (.delete t) := by
      rw [visible, hk]
      rfl
    simp only
    split
    · rw [visible_setReplicaApplied, hmark, hsame]
    · rw [hmark, hsame]

end ShardedIndex

end Visible

/-! ## The whole replay -/

/-- An inline record says nothing about a transform: its bytes are
plaintext. -/
def WalReplayEntry.Plain (r : WalReplayEntry) : Prop :=
  r.value ≠ [] → hasFlag r.xflags flagCompressed = false ∧ hasFlag r.xflags flagEncrypted = false

def entryUpdate (codec : ValueCodec) (vl : VLog) (e : IndexEntry) :
    Update Int (List UInt8 × Int) :=
  match entryValue codec (fun _ => vl) e none with
  | some v => .write e.writeTimestampUs (v, e.expiryUs)
  | none => .delete e.writeTimestampUs

theorem entryUpdate_stamp (codec : ValueCodec) (vl : VLog) (e : IndexEntry) :
    (entryUpdate codec vl e).stamp = e.writeTimestampUs := by
  rw [entryUpdate]
  split <;> rfl

theorem entryUpdate_isExpire (codec : ValueCodec) (vl : VLog) (e : IndexEntry) :
    (entryUpdate codec vl e).isExpire = false := by
  rw [entryUpdate]
  split <;> rfl

theorem entryUpdate_value (codec : ValueCodec) (vl : VLog) (e : IndexEntry) :
    (entryUpdate codec vl e).value =
      (entryValue codec (fun _ => vl) e none).map fun v => (v, e.expiryUs) := by
  rw [entryUpdate]
  split
  next h => simp [h, Update.value]
  next h => simp [h, Update.value]

section Whole

variable {c : ReplayConfig} {vlF : VLog} {k key : Key} {idx : ShardedIndex} {inOrder : Bool}
  {r : WalReplayEntry} {codec : ValueCodec} {vlogs : Nat → VLog}

theorem ShardedIndex.visible_replayPut_of_ne (h : k ≠ key) (e : IndexEntry)
    (v : Option (List UInt8)) :
    (idx.replayPut inOrder key e v).visible codec vlogs k = idx.visible codec vlogs k := by
  rw [replayPut]
  split
  · exact visible_put_of_ne h e v
  · split
    · rfl
    · exact visible_put_of_ne h e v

theorem ShardedIndex.visible_replayMarkTombstone_of_ne (h : k ≠ key) (t : Int) :
    (idx.replayMarkTombstone inOrder key t).visible codec vlogs k = idx.visible codec vlogs k := by
  rw [replayMarkTombstone]
  split
  · rfl
  · split
    · rfl
    · exact visible_tombstoned_of_ne h t

theorem ShardedIndex.visible_replayTombstoneRecord_of_ne (h : k ≠ key) (t : Int) (origin : Bool) :
    (idx.replayTombstoneRecord inOrder key t origin).visible codec vlogs k =
      idx.visible codec vlogs k := by
  rw [replayTombstoneRecord]
  split
  · exact visible_congr (update_of_ne h ..) rfl
  · split
    · rw [visible_setReplicaApplied, visible_replayMarkTombstone_of_ne h]
    · exact visible_replayMarkTombstone_of_ne h t

/-- Replay in key-value separation keeps no value in memory. -/
def ShardedIndex.NoDirty (idx : ShardedIndex) : Prop :=
  ∀ k, idx.dirtyValues k = none

theorem ShardedIndex.NoDirty.replayPut (h : idx.NoDirty) (key : Key) (e : IndexEntry) :
    (idx.replayPut inOrder key e none).NoDirty := by
  intro k
  rw [ShardedIndex.replayPut]
  split
  · exact h k
  · split <;> exact h k

theorem ShardedIndex.NoDirty.setDirty_none (h : idx.NoDirty) (key : Key) :
    (idx.setDirty key none).NoDirty := by
  intro k
  by_cases hk : k = key
  · subst hk; exact update_self ..
  · exact (update_of_ne hk ..).trans (h k)

theorem ShardedIndex.NoDirty.replayMarkTombstone (h : idx.NoDirty) (key : Key) (t : Int) :
    (idx.replayMarkTombstone inOrder key t).NoDirty := by
  rw [ShardedIndex.replayMarkTombstone]
  split
  · exact h
  · split
    · exact h
    · have hupd : (idx.update key (·.markTombstone t)).NoDirty := h
      exact hupd.setDirty_none key

theorem ShardedIndex.NoDirty.replayTombstoneRecord (h : idx.NoDirty) (key : Key) (t : Int)
    (origin : Bool) : (idx.replayTombstoneRecord inOrder key t origin).NoDirty := by
  rw [ShardedIndex.replayTombstoneRecord]
  split
  · exact h
  · split
    · exact h.replayMarkTombstone key t
    · exact h.replayMarkTombstone key t

theorem visible_installPending (hd : idx.NoDirty) {pending : List (Key × IndexEntry)}
    (hp : ∀ p ∈ pending, p.2.flags.tombstone = false) :
    (installPending inOrder idx pending).visible codec (fun _ => vlF) k =
      run inOrder (idx.visible codec (fun _ => vlF) k)
        ((pending.filter (fun p => p.1 = k)).map fun p => entryUpdate codec vlF p.2) := by
  induction pending generalizing idx with
  | nil => rfl
  | cons p pending ih =>
    have hp' := fun q hq => hp q (mem_cons_of_mem _ hq)
    have hd' : (idx.replayPut inOrder p.1 p.2 none).NoDirty := hd.replayPut p.1 p.2
    have hrest := ih hd' hp'
    rw [installPending] at hrest ⊢
    rw [foldl_cons, hrest, filter_cons]
    by_cases hk : p.1 = k
    · subst hk
      simp only [decide_true, if_true, map_cons, run_cons]
      congr 1
      apply visible_replayPut p.2 none (fun _ => hd p.1)
      · exact entryUpdate_isExpire ..
      · exact entryUpdate_stamp ..
      · rw [entryUpdate_value, hp p (mem_cons_self ..)]
        rfl
    · simp only [hk]
      congr 1
      exact visible_replayPut_of_ne (Ne.symm hk) p.2 none

/-- A record that replay applies at once. -/
def direct (c : ReplayConfig) (r : WalReplayEntry) : Bool :=
  !deferred c r && !skipped c r

theorem recordUpdate_of_put (ht : r.isTombstone = false) (hx : r.expired c.nowUs = false)
    {v : List UInt8} (hv : recordValue c vlF r = some v) :
    recordUpdate c vlF r = .write r.stampUs (v, (replayEntry r).expiryUs) := by
  simp only [recordUpdate, ht, hx, hv]
  rfl

theorem recordUpdate_value_of_put (ht : r.isTombstone = false) (hx : r.expired c.nowUs = false) :
    (recordUpdate c vlF r).stamp = r.stampUs ∧ (recordUpdate c vlF r).isExpire = false ∧
      (recordUpdate c vlF r).value =
        (recordValue c vlF r).map fun v => (v, (replayEntry r).expiryUs) := by
  simp only [recordUpdate, ht, hx]
  cases recordValue c vlF r with
  | none | some => exact ⟨rfl, rfl, rfl⟩

/-- One record, as seen through a value log that holds everything the replay
writes. -/
theorem replayStep_visible {st : ReplayState} (hk : diskFor c.numDisks k = c.diskIdx)
    (hd : c.kvSep = true → st.idx.NoDirty) :
    (replayStep c st r).idx.visible c.codec (fun _ => vlF) k =
      if r.key = k ∧ direct c r then
        apply c.inOrder (st.idx.visible c.codec (fun _ => vlF) k) (recordUpdate c vlF r)
      else st.idx.visible c.codec (fun _ => vlF) k := by
  by_cases hkey : r.key = k
  swap
  · -- a record of another key
    have hne : k ≠ r.key := Ne.symm hkey
    rw [if_neg fun h => hkey h.1, replayStep]
    split
    · rfl
    · split
      · exact visible_replayTombstoneRecord_of_ne hne _ _
      · split
        · exact visible_replayMarkTombstone_of_ne hne _
        · split
          · exact visible_replayPut_of_ne hne _ _
          · split
            · rfl
            · split
              · exact visible_replayPut_of_ne hne _ _
              · rfl
  · subst hkey
    rw [replayStep, if_neg (by simpa using hk)]
    cases ht : r.isTombstone with
    | true =>
      have hdir : direct c r = true := by simp [direct, deferred, skipped, ht]
      rw [if_pos rfl, if_pos ⟨rfl, hdir⟩, recordUpdate, if_pos ht]
      exact visible_replayTombstoneRecord _ _
    | false =>
      rw [if_neg Bool.false_ne_true]
      cases hx : r.expired c.nowUs with
      | true =>
        have hdir : direct c r = true := by simp [direct, deferred, skipped, ht, hx]
        rw [if_pos rfl, if_pos ⟨rfl, hdir⟩, recordUpdate, ht, hx]
        exact visible_replayMarkTombstone _
      | false =>
        obtain ⟨hstamp, hexp, hval⟩ : (recordUpdate c vlF r).stamp = r.stampUs ∧ _ ∧ _ :=
          recordUpdate_value_of_put ht hx
        rw [if_neg Bool.false_ne_true]
        by_cases hvl : c.kvSep ∧ 0 < r.vlogOffset
        · have hdir : direct c r = true := by simp [direct, deferred, skipped, hvl.1, hvl.2]
          rw [if_pos hvl, if_pos ⟨rfl, hdir⟩]
          refine visible_replayPut _ none (fun _ => hd hvl.1 _) _ hexp hstamp ?_
          rw [hval, recordValue, if_pos hvl]
          rfl
        · rw [if_neg hvl]
          by_cases hv : r.value = []
          · have hdir : direct c r = false := by
              simp only [direct, skipped, ht, hx, hv]
              simpa [not_and] using fun _ h => hvl h
            rw [if_neg (by simp [hv]), if_neg (by simp [hv]), if_neg (by simp [hdir])]
          · cases hkv : c.kvSep with
            | true =>
              have hoff : r.vlogOffset ≤ 0 := Int.not_lt.mp fun h => hvl ⟨hkv, h⟩
              have hdir : direct c r = false := by
                simp [direct, deferred, ht, hx, hkv, hv, hoff]
              rw [if_pos ⟨rfl, hv⟩, if_neg (by simp [hdir])]
            | false =>
              have hdir : direct c r = true := by
                simp [direct, deferred, skipped, hkv, hv]
              rw [if_neg (by simp), if_pos ⟨by simp, hv⟩, if_pos ⟨rfl, hdir⟩]
              refine visible_replayPut _ (some r.value) (fun h => by cases h) _ hexp hstamp ?_
              rw [hval, recordValue, hkv]
              rfl

theorem replayStep_noDirty {st : ReplayState} (hkv : c.kvSep = true) (hd : st.idx.NoDirty) :
    (replayStep c st r).idx.NoDirty := by
  rw [replayStep]
  split
  · exact hd
  · split
    · exact hd.replayTombstoneRecord _ _ _
    · split
      · exact hd.replayMarkTombstone _ _
      · split
        · exact hd.replayPut _ _
        · split
          · exact hd
          · rw [if_neg (by simp [hkv])]
            exact hd

theorem replayStep_pending (c : ReplayConfig) (st : ReplayState) (r : WalReplayEntry) :
    (diskFor c.numDisks r.key = c.diskIdx ∧ deferred c r = true ∧
      (replayStep c st r).vl = (st.vl.beginAppend (c.codec.transform r.value).1).1 ∧
      (replayStep c st r).pending = st.pending ++
        [(r.key, pendingEntry c r (st.vl.beginAppend (c.codec.transform r.value).1).2)]) ∨
    ((diskFor c.numDisks r.key = c.diskIdx → deferred c r = false) ∧
      (replayStep c st r).vl = st.vl ∧ (replayStep c st r).pending = st.pending) := by
  rw [replayStep]
  split
  next h => exact .inr ⟨fun h' => absurd h' h, rfl, rfl⟩
  next h =>
    split
    next ht => exact .inr ⟨fun _ => by simp [deferred, ht], rfl, rfl⟩
    next ht =>
      split
      next hx => exact .inr ⟨fun _ => by simp [deferred, hx], rfl, rfl⟩
      next hx =>
        split
        next hvl =>
          exact .inr ⟨fun _ => by simp [deferred, Int.not_le.mpr hvl.2], rfl, rfl⟩
        next hvl =>
          split
          next hv =>
            have hoff : r.vlogOffset ≤ 0 := Int.not_lt.mp fun h => hvl ⟨hv.1, h⟩
            exact .inl ⟨not_not.mp h, by simp [deferred, ht, hx, hv.1, hv.2, hoff], rfl, rfl⟩
          next hv =>
            have hdef : deferred c r = false := by
              by_cases hval : r.value = []
              · simp [deferred, hval]
              · have hkv : c.kvSep = false := by
                  cases hc : c.kvSep with
                  | true => exact absurd ⟨hc, hval⟩ hv
                  | false => rfl
                simp [deferred, hkv]
            split
            · exact .inr ⟨fun _ => hdef, rfl, rfl⟩
            · exact .inr ⟨fun _ => hdef, rfl, rfl⟩

theorem entryUpdate_pendingEntry {vl : VLog} (hdef : deferred c r = true) (hplain : r.Plain)
    (hoff : 0 < vl.tail)
    (hext : (vl.beginAppend (c.codec.transform r.value).1).1.Extends vlF) :
    entryUpdate c.codec vlF (pendingEntry c r (vl.beginAppend (c.codec.transform r.value).1).2) =
      recordUpdate c vlF r := by
  simp only [deferred, Bool.and_eq_true, Bool.not_eq_true', decide_eq_true_eq] at hdef
  obtain ⟨⟨⟨⟨ht, hx⟩, hkv⟩, hle⟩, hne⟩ := hdef
  have hvalue : recordValue c vlF r = some r.value := by
    rw [recordValue, if_neg fun h => absurd h.2 (Int.not_lt.mpr hle)]
  have hblob := hext.blobs (vl.beginAppend_blobs_self (c.codec.transform r.value).1)
  have hread := VLog.readValue_of_blobs hblob
  obtain ⟨hc, he⟩ := hplain hne
  have hentry : entryValue c.codec (fun _ => vlF)
      (pendingEntry c r (vl.beginAppend (c.codec.transform r.value).1).2) none = some r.value := by
    have hpos : 0 < (vl.beginAppend (c.codec.transform r.value).1).2 := hoff
    simp only [entryValue, pendingEntry, hread, replayEntry, hc, he, Bool.false_or]
    rw [if_pos hpos]
    exact c.codec.untransform_transform r.value
  rw [recordUpdate_of_put ht hx hvalue, entryUpdate, hentry]
  rfl

/-- Applying records, as seen through a value log that holds everything the
replay writes. -/
theorem foldl_replayStep (hk : diskFor c.numDisks k = c.diskIdx) :
    ∀ (rs : List WalReplayEntry) (st : ReplayState),
      (c.kvSep = true → st.idx.NoDirty) → (∀ r ∈ rs, r.Plain) → 0 < st.vl.tail →
      (∀ p ∈ st.pending, p.2.flags.tombstone = false) →
      (rs.foldl (replayStep c) st).vl.Extends vlF →
      (rs.foldl (replayStep c) st).idx.visible c.codec (fun _ => vlF) k =
          run c.inOrder (st.idx.visible c.codec (fun _ => vlF) k)
            ((rs.filter fun r => r.key = k ∧ direct c r).map (recordUpdate c vlF)) ∧
        (((rs.foldl (replayStep c) st).pending.filter (fun p => p.1 = k)).map
            fun p => entryUpdate c.codec vlF p.2) =
          ((st.pending.filter (fun p => p.1 = k)).map fun p => entryUpdate c.codec vlF p.2) ++
            (rs.filter fun r => r.key = k ∧ deferred c r).map (recordUpdate c vlF) ∧
        (c.kvSep = true → (rs.foldl (replayStep c) st).idx.NoDirty) ∧
        (∀ p ∈ (rs.foldl (replayStep c) st).pending, p.2.flags.tombstone = false) ∧
        st.vl.Extends (rs.foldl (replayStep c) st).vl := by
  intro rs
  induction rs with
  | nil => intro st hd _ _ hp _; exact ⟨rfl, by simp, hd, hp, VLog.Extends.refl _⟩
  | cons r rs ih =>
    intro st hd hplain hoff hp hext
    rw [foldl_cons] at hext ⊢
    have hd' : c.kvSep = true → (replayStep c st r).idx.NoDirty := fun h =>
      replayStep_noDirty h (hd h)
    have hplain' := fun r' hr' => hplain r' (mem_cons_of_mem _ hr')
    have hvis : (replayStep c st r).idx.visible c.codec (fun _ => vlF) k = _ :=
      replayStep_visible hk hd
    -- the pending entries and the value log after this record
    have hstep : st.vl.Extends (replayStep c st r).vl ∧ 0 < (replayStep c st r).vl.tail ∧
        (∀ p ∈ (replayStep c st r).pending, p.2.flags.tombstone = false) := by
      rcases replayStep_pending c st r with ⟨-, -, hvl, hpend⟩ | ⟨-, hvl, hpend⟩
      · have hle := st.vl.le_beginAppend_tail (c.codec.transform r.value).1
        rw [hvl, hpend]
        exact ⟨st.vl.extends_beginAppend _, by omega,
          forall_mem_append.mpr ⟨hp, forall_mem_singleton.mpr rfl⟩⟩
      · rw [hvl, hpend]
        exact ⟨VLog.Extends.refl _, hoff, hp⟩
    obtain ⟨hext', hoff', hp'⟩ := hstep
    obtain ⟨ih₁, ih₂, ih₃, ih₄, ih₅⟩ := ih (replayStep c st r) hd' hplain' hoff' hp' hext
    refine ⟨?_, ?_, ih₃, ih₄, hext'.trans ih₅⟩
    · rw [ih₁, hvis, filter_cons]
      by_cases hr : r.key = k ∧ direct c r = true
      · rw [if_pos hr, if_pos (by simpa using hr), map_cons, run_cons]
      · rw [if_neg hr, if_neg (by simpa using hr)]
    · rw [ih₂, filter_cons]
      rcases replayStep_pending c st r with ⟨hdisk, hdef, hvl, hpend⟩ | ⟨hdef, hvl, hpend⟩
      · rw [hpend, filter_append]
        by_cases hr : r.key = k
        · have hfin : (st.vl.beginAppend (c.codec.transform r.value).1).1.Extends vlF := by
            rw [← hvl]
            exact ih₅.trans hext
          have hupd := entryUpdate_pendingEntry hdef (hplain r (mem_cons_self ..)) hoff hfin
          rw [if_pos (by simp [hr, hdef])]
          simp [hr, hupd]
        · rw [if_neg (by simp [hr])]
          simp [hr]
      · have hr : ¬(r.key = k ∧ deferred c r = true) := by
          rintro ⟨rfl, hdef'⟩
          rw [hdef hk] at hdef'
          cases hdef'
        rw [hpend, if_neg (by simpa using hr)]

/-- Nothing is pending without key-value separation. -/
theorem foldl_replayStep_pending (hkv : c.kvSep = false) (rs : List WalReplayEntry)
    (st : ReplayState) : (rs.foldl (replayStep c) st).pending = st.pending := by
  induction rs generalizing st with
  | nil => rfl
  | cons r rs ih =>
    rw [foldl_cons, ih]
    rcases replayStep_pending c st r with ⟨-, hdef, -, -⟩ | ⟨-, -, hpend⟩
    · simp [deferred, hkv] at hdef
    · exact hpend

/-- What replay makes visible of a key is a register updated by the key's
records, in the order in which replay installs them. -/
theorem visible_applyWALReplay (hk : diskFor c.numDisks k = c.diskIdx) {rs : List WalReplayEntry}
    {vl : VLog} (hd : c.kvSep = true → idx.NoDirty) (hplain : ∀ r ∈ rs, r.Plain)
    (hoff : 0 < vl.tail) :
    (applyWALReplay c rs idx vl).1.visible c.codec (fun _ => (applyWALReplay c rs idx vl).2) k =
      run c.inOrder (idx.visible c.codec (fun _ => (applyWALReplay c rs idx vl).2) k)
        ((replayOrder c (rs.filter fun r => r.key = k)).map
          (recordUpdate c (applyWALReplay c rs idx vl).2)) := by
  have horder : replayOrder c (rs.filter fun r => r.key = k) =
      (rs.filter fun r => r.key = k ∧ direct c r) ++ rs.filter fun r => r.key = k ∧ deferred c r := by
    rw [replayOrder, filter_filter, filter_filter]
    congr 1
    · simp [direct, Bool.and_comm]
    · simp [Bool.and_comm]
  obtain ⟨hvis, hpend, hdirty, htomb, -⟩ := foldl_replayStep hk rs
    { idx := idx, vl := vl, pending := [] } hd hplain hoff (by simp)
    (VLog.Extends.refl (rs.foldl (replayStep c) { idx := idx, vl := vl, pending := [] }).vl)
  simp only [filter_nil, map_nil, nil_append] at hpend
  simp only [applyWALReplay]
  rw [horder, map_append, run_append, ← hvis, ← hpend]
  cases hkv : c.kvSep with
  | true => exact visible_installPending (hdirty hkv) htomb
  | false => rw [foldl_replayStep_pending hkv]; rfl

end Whole

end VeltrixDB.Storage
