import VeltrixDB.Storage.Compaction
import VeltrixDB.Storage.Defrag
import VeltrixDB.Storage.Recover
import VeltrixDB.Storage.Transaction

/-!
# Clean restarts

`Close` writes one record for each live key (`writeCheckpointRecords`) in
place of each disk's log, and the next open rebuilds the index from them
(`applyWALReplay`).  A record is written only where the value can be named: by
its offset in the value log, or, without key-value separation, by the bytes in
memory.  Values that were moved to a segment file are in neither place.

Main results:

- Theorem `Store.slot_restart`: what a restart leaves of a key, by its checkpoint
  record alone.
- Theorem `Store.restart_eq_iff`: a restart preserves the store just when every
  live key has a value that the checkpoint can name.
-/

namespace VeltrixDB.Storage

open Function List

/-! ## The store -/

/-- An engine with the segment file of each disk. -/
structure Store where
  se : Engine
  segments : Nat → Segment

def Store.create (kvSep : Bool) (numDisks : Nat) : Store where
  se := .create kvSep numDisks
  segments := fun _ => .create

def ReadResult.value? : ReadResult → Option (List UInt8)
  | .value v => some v
  | _ => none

variable (codec : ValueCodec) (s : Store)

def Store.read (key : Key) (e : IndexEntry) : Option (List UInt8) :=
  if s.se.kvSep then entryValue codec s.se.vlogs e (s.se.index.dirtyValues key)
  else ((s.segments e.segmentID).readEntry key e (s.se.index.dirtyValues key)).value?

/-- What a read of a key at `nowUs` returns: the value and its deadline. -/
def Store.view (key : Key) (nowUs : Int) : Option (List UInt8 × Int) :=
  match s.se.index.entries key with
  | none => none
  | some e =>
    if e.flags.tombstone ∨ e.isExpired nowUs then none
    else (s.read codec key e).map fun v => (v, e.expiryUs)

def Store.keyVersion (s : Store) (key : Key) (nowUs floorUs : Int) : Nat :=
  s.se.index.keyVersion key nowUs floorUs

/-! ## Restart -/

/-- How a store is closed and opened again: which tombstones are kept, the clocks
of the two, and whether replay goes by log order. -/
structure Restart where
  keepTombstone : Int → Int → Bool
  closeNs : Int
  openUs : Int
  inOrder : Bool

variable (r : Restart)

/-- The time at which the checkpoint judges expiry. -/
def Restart.closeUs : Int := r.closeNs.tdiv 1000

/-- The log of a disk that `Close` leaves. -/
def Store.checkpointFile (d : Nat) : List WALEntry :=
  s.se.index.checkpointShards s.se.kvSep r.keepTombstone (s.se.version + 1) r.closeNs
    (diskShards d s.se.numDisks)

def Restart.config (se : Engine) (d : Nat) : ReplayConfig :=
  { se.replayConfig codec d r.openUs with inOrder := r.inOrder }

def Engine.openDisk (files : Nat → List WALEntry) (se : Engine) (d : Nat) : Engine :=
  let a := applyWALReplay (r.config codec se d) ((files d).map WALEntry.replayed) se.index
    (se.vlogs d)
  { se with index := a.1, vlogs := update se.vlogs d a.2 }

def Store.opened (s : Store) : Engine :=
  { s.se with
    index := .empty
    vlogs := fun d => (s.se.vlogs d).reopen
    wals := s.checkpointFile r
    version := s.se.version + 1 }

/-- Close the store and open it again.  The segment files stay and nothing is
read from them. -/
def Store.restart (s : Store) : Store where
  se := (List.range s.se.numDisks).foldl (Engine.openDisk codec r (s.checkpointFile r)) (s.opened r)
  segments := s.segments

/-! ## What may happen to a store -/

def ShardedIndex.step (idx : ShardedIndex) (op : IndexOp) : ShardedIndex :=
  ((⟨idx, 0, 0, idx.isLive⟩ : CountedIndex).step op).idx

/-- Move the value of a key from memory to the segment file of its disk, as
`compactDiskShards` does for each key that it collected. -/
def Store.flush (key : Key) : Store :=
  match s.se.index.dirtyValues key with
  | none => s
  | some value =>
    if s.se.index.isLive key then
      let a := (s.segments (s.se.disk key)).writeRecord key value
      { se := { s.se with
          index := ((⟨s.se.index, 0, 0, s.se.index.isLive⟩ : CountedIndex).flushed key
            (s.se.disk key) a.2).idx }
        segments := update s.segments (s.se.disk key) a.1 }
    else s

inductive StoreOp where
  | exec (op : EngineOp)
  | expire (key : Key) (cutoffUs tombUs : Int)
  | reap (key : Key)
  | relocate (d : Nat) (keys : List Key)
  | punch (d minLiveOffset : Nat)
  /-- The compaction moves the value of a key to the segment file, in an engine
  without key-value separation. -/
  | flush (key : Key)
  | restart (r : Restart)

def Store.apply : StoreOp → Store
  | .exec op => { s with se := s.se.exec codec op }
  | .expire key cutoffUs tombUs =>
    { s with se := { s.se with index := s.se.index.step (.markExpired key cutoffUs tombUs) } }
  | .reap key => { s with se := { s.se with index := s.se.index.step (.removeTombstone key) } }
  | .relocate d keys => if s.se.kvSep then { s with se := s.se.relocate d keys } else s
  | .punch d minLiveOffset =>
    { s with se := s.se.setVLog d ((s.se.vlogs d).punchDeadHead minLiveOffset) }
  | .flush key => if s.se.kvSep then s else s.flush key
  | .restart r => s.restart codec r

def Store.run (ops : List StoreOp) : Store :=
  ops.foldl (Store.apply codec) s

open ShardedIndex IndexEntry WALEntry

/-! ## Replay of single records -/

variable {idx : ShardedIndex}

def ShardedIndex.slot (idx : ShardedIndex) (key : Key) : Option IndexEntry × Option (List UInt8) :=
  (idx.entries key, idx.dirtyValues key)

theorem ShardedIndex.entries_of_slot {key : Key} {e : Option IndexEntry} {v : Option (List UInt8)}
    (h : idx.slot key = (e, v)) : idx.entries key = e :=
  congrArg Prod.fst h

theorem ShardedIndex.dirtyValues_of_slot {key : Key} {e : Option IndexEntry}
    {v : Option (List UInt8)} (h : idx.slot key = (e, v)) : idx.dirtyValues key = v :=
  congrArg Prod.snd h

/-- What replay makes of the only record of a key. -/
def freshSlot (c : ReplayConfig) (r : WalReplayEntry) : Option IndexEntry × Option (List UInt8) :=
  if r.isTombstone then
    (some (bareTombstone r.stampUs (hasFlag r.xflags flagReplicaApplied)), none)
  else if r.expired c.nowUs then (none, none)
  else if c.kvSep ∧ 0 < r.vlogOffset then
    (some { replayEntry r with diskOffset := r.vlogOffset.toNat, segmentID := c.diskIdx }, none)
  else if ¬c.kvSep ∧ r.value ≠ [] then (some (replayEntry r), some r.value)
  else (none, none)

section Slots

variable {idx : ShardedIndex} {c : ReplayConfig} {st : ReplayState} {r : WalReplayEntry}
  {key k : Key} {rs : List WalReplayEntry}

namespace ShardedIndex

theorem slot_put_of_ne (h : k ≠ key) (idx : ShardedIndex) (e : IndexEntry)
    (v : Option (List UInt8)) : (idx.put key e v).slot k = idx.slot k := by
  apply Prod.ext
  · show (idx.put key e v).entries k = _
    rw [entries_put, update_of_ne h]
    rfl
  · cases v with
    | none => rfl
    | some => exact update_of_ne h ..

theorem slot_replayPut_of_ne (h : k ≠ key) (inOrder : Bool) (e : IndexEntry)
    (v : Option (List UInt8)) : (idx.replayPut inOrder key e v).slot k = idx.slot k := by
  unfold replayPut
  split
  · exact slot_put_of_ne h idx e v
  · split
    · rfl
    · exact slot_put_of_ne h idx e v

theorem slot_replayMarkTombstone_of_ne (h : k ≠ key) (inOrder : Bool) (t : Int) :
    (idx.replayMarkTombstone inOrder key t).slot k = idx.slot k := by
  unfold replayMarkTombstone
  split
  · rfl
  · split
    · rfl
    · exact Prod.ext (update_of_ne h ..) (update_of_ne h ..)

theorem slot_replayTombstoneRecord_of_ne (h : k ≠ key) (inOrder : Bool) (t : Int)
    (origin : Bool) : (idx.replayTombstoneRecord inOrder key t origin).slot k = idx.slot k := by
  unfold replayTombstoneRecord
  split
  · exact Prod.ext (update_of_ne h ..) rfl
  · have hmark : (idx.replayMarkTombstone inOrder key t).slot k = idx.slot k :=
      slot_replayMarkTombstone_of_ne h inOrder t
    cases origin with
    | false => exact hmark
    | true =>
      refine Eq.trans ?_ hmark
      exact Prod.ext (update_of_ne h ..) rfl

end ShardedIndex

/-- A record leaves other keys alone. -/
theorem slot_replayStep_of_ne (h : k ≠ r.key) : (replayStep c st r).idx.slot k = st.idx.slot k := by
  unfold replayStep
  split
  · rfl
  · split
    · exact slot_replayTombstoneRecord_of_ne h ..
    · split
      · exact slot_replayMarkTombstone_of_ne h ..
      · split
        · exact slot_replayPut_of_ne h ..
        · split
          · rfl
          · split
            · exact slot_replayPut_of_ne h ..
            · rfl

theorem ShardedIndex.slot_put_self (idx : ShardedIndex) (e : IndexEntry)
    (v : Option (List UInt8)) (hv : v = none → idx.dirtyValues k = none) :
    (idx.put k e v).slot k = (some e, v) := by
  apply Prod.ext
  · show (idx.put k e v).entries k = _
    rw [entries_put, update_self]
  · cases v with
    | none => exact hv rfl
    | some => exact update_self ..

theorem slot_replayStep_fresh (hk : diskFor c.numDisks r.key = c.diskIdx)
    (hdirect : deferred c r = false) (hnone : st.idx.slot r.key = (none, none)) :
    (replayStep c st r).idx.slot r.key = freshSlot c r := by
  have he : st.idx.entries r.key = none := entries_of_slot hnone
  have hd : st.idx.dirtyValues r.key = none := dirtyValues_of_slot hnone
  unfold replayStep freshSlot
  rw [if_neg (not_not.mpr hk)]
  split
  · -- a tombstone record leaves a bare tombstone
    unfold replayTombstoneRecord
    rw [he]
    exact Prod.ext (update_self ..) hd
  next ht =>
    split
    · -- there is nothing to expire
      unfold replayMarkTombstone
      rw [he]
      exact hnone
    next hx =>
      split
      next hvl =>
        unfold replayPut
        rw [he]
        exact slot_put_self st.idx _ none fun _ => hd
      next hvl =>
        split
        next hv =>
          have hoff : r.vlogOffset ≤ 0 := Int.not_lt.mp fun h => hvl ⟨hv.1, h⟩
          simp [deferred, ht, hx, hv.1, hv.2, hoff] at hdirect
        · split
          · unfold replayPut
            rw [he]
            exact slot_put_self st.idx _ (some r.value) fun h => (by cases h)
          · exact hnone

theorem foldl_replayStep_direct (h : ∀ r ∈ rs, deferred c r = false) (st : ReplayState) :
    (rs.foldl (replayStep c) st).vl = st.vl ∧
      (rs.foldl (replayStep c) st).pending = st.pending := by
  induction rs generalizing st with
  | nil => exact ⟨rfl, rfl⟩
  | cons r rs ih =>
    have hrest := ih (fun x hx => h x (mem_cons_of_mem _ hx)) (replayStep c st r)
    rcases replayStep_pending c st r with ⟨-, hdef, -⟩ | ⟨-, hvl, hpending⟩
    · rw [h r (mem_cons_self ..)] at hdef
      cases hdef
    · exact ⟨hrest.1.trans hvl, hrest.2.trans hpending⟩

theorem slot_foldl_of_not_mem (h : ∀ r ∈ rs, r.key ≠ k) (st : ReplayState) :
    (rs.foldl (replayStep c) st).idx.slot k = st.idx.slot k := by
  induction rs generalizing st with
  | nil => rfl
  | cons r rs ih =>
    rw [foldl_cons, ih fun x hx => h x (mem_cons_of_mem _ hx)]
    exact slot_replayStep_of_ne (h r (mem_cons_self ..)).symm

theorem slot_foldl_of_single {o : Option WalReplayEntry}
    (hone : (rs.filter fun r => r.key = k) = o.toList) (hk : diskFor c.numDisks k = c.diskIdx)
    (hdirect : ∀ r ∈ rs, deferred c r = false) (hnone : st.idx.slot k = (none, none)) :
    (rs.foldl (replayStep c) st).idx.slot k = (o.map (freshSlot c)).getD (none, none) := by
  induction rs generalizing st with
  | nil =>
    cases o with
    | none => exact hnone
    | some => cases hone
  | cons r rs ih =>
    have hrest : ∀ x ∈ rs, deferred c x = false := fun x hx => hdirect x (mem_cons_of_mem _ hx)
    rw [foldl_cons]
    by_cases hr : r.key = k
    · subst hr
      rw [filter_cons_of_pos (by simp)] at hone
      cases o with
      | none => cases hone
      | some x =>
        injection hone with hx hnil
        subst hx
        have hothers : ∀ x ∈ rs, x.key ≠ r.key := by
          intro x hx
          have hne := filter_eq_nil_iff.mp hnil x hx
          simpa using hne
        rw [slot_foldl_of_not_mem hothers]
        exact slot_replayStep_fresh hk (hdirect r (mem_cons_self ..)) hnone
    · rw [filter_cons_of_neg (by simpa using hr)] at hone
      apply ih hone hrest
      rw [slot_replayStep_of_ne (Ne.symm hr)]
      exact hnone

end Slots

/-! ## Opening all disks -/

section Open

variable {codec : ValueCodec} {r : Restart} {files : Nat → List WALEntry} {se : Engine} {k : Key}

/-- The records of a disk's log belong to its keys, and none needs a copy of its
value in the value log. -/
structure Engine.Opens (codec : ValueCodec) (r : Restart) (se : Engine)
    (files : Nat → List WALEntry) : Prop where
  routed : ∀ d, ∀ x ∈ files d, se.disk x.key = d
  direct : ∀ d, ∀ x ∈ files d, deferred (r.config codec se d) x.replayed = false

section

variable (h : se.Opens codec r files)
include h

theorem Engine.Opens.openDisk (d : Nat) :
    se.openDisk codec r files d =
      se.withIndex (((files d).map replayed).foldl (replayStep (r.config codec se d))
        { idx := se.index, vl := se.vlogs d, pending := [] }).idx := by
  have hdirect : ∀ x ∈ (files d).map replayed, deferred (r.config codec se d) x = false := by
    intro x hx
    obtain ⟨y, hy, rfl⟩ := mem_map.mp hx
    exact h.direct d y hy
  obtain ⟨hvl, hpending⟩ := foldl_replayStep_direct hdirect
    { idx := se.index, vl := se.vlogs d, pending := [] }
  unfold Engine.openDisk applyWALReplay
  simp only [hvl, hpending, update_eq_self]
  rfl

theorem Engine.Opens.withIndex (idx : ShardedIndex) :
    (se.withIndex idx).Opens codec r files := { h with }

theorem Engine.Opens.openDisks (ds : List Nat) :
    ∃ idx, ds.foldl (Engine.openDisk codec r files) se = se.withIndex idx := by
  induction ds generalizing se with
  | nil => exact ⟨se.index, rfl⟩
  | cons d ds ih =>
    rw [foldl_cons, h.openDisk d]
    obtain ⟨idx, hidx⟩ := ih (h.withIndex _)
    exact ⟨idx, hidx⟩

/-- What opening the disks leaves of a key. -/
theorem Engine.Opens.slot_openDisks {o : Option WALEntry}
    (hone : recordsIn (files (se.disk k)) k = o.toList) {ds : List Nat} (hnd : ds.Nodup)
    (hnone : se.disk k ∈ ds → se.index.slot k = (none, none)) :
    (ds.foldl (Engine.openDisk codec r files) se).index.slot k =
      if se.disk k ∈ ds then
        (o.map fun x => freshSlot (r.config codec se (se.disk k)) x.replayed).getD (none, none)
      else se.index.slot k := by
  induction ds generalizing se with
  | nil => rfl
  | cons d ds ih =>
    rw [nodup_cons] at hnd
    rw [foldl_cons, h.openDisk d]
    have hrest : ∀ idx : ShardedIndex, (se.disk k ∈ ds → idx.slot k = (none, none)) →
        (ds.foldl (Engine.openDisk codec r files) (se.withIndex idx)).index.slot k =
          if se.disk k ∈ ds then
            (o.map fun x => freshSlot (r.config codec se (se.disk k)) x.replayed).getD (none, none)
          else idx.slot k := fun idx hnone => ih (h.withIndex idx) hone hnd.2 hnone
    by_cases hd : se.disk k = d
    · subst hd
      rw [hrest _ fun hmem => absurd hmem hnd.1]
      rw [if_neg hnd.1, if_pos (mem_cons_self ..)]
      have hfilter : (((files (se.disk k)).map replayed).filter fun x => x.key = k) =
          (o.map replayed).toList := by
        rw [filter_map]
        show (recordsIn (files (se.disk k)) k).map replayed = _
        rw [hone]
        cases o <;> rfl
      refine (slot_foldl_of_single hfilter rfl ?_ (hnone (mem_cons_self ..))).trans ?_
      · intro x hx
        obtain ⟨y, hy, rfl⟩ := mem_map.mp hx
        exact h.direct _ y hy
      · rw [Option.map_map]
        rfl
    · have hkeep : (((files d).map replayed).foldl (replayStep (r.config codec se d))
          { idx := se.index, vl := se.vlogs d, pending := [] }).idx.slot k = se.index.slot k := by
        apply slot_foldl_of_not_mem
        intro x hx heq
        obtain ⟨y, hy, rfl⟩ := mem_map.mp hx
        have hdisk := h.routed d y hy
        rw [show y.key = k from heq] at hdisk
        exact hd hdisk
      have hmem : se.disk k ∈ d :: ds ↔ se.disk k ∈ ds := by
        rw [mem_cons]
        exact or_iff_right hd
      rw [hrest _ fun hin => hkeep.trans (hnone (hmem.mpr hin)), hkeep]
      simp only [hmem]

end

end Open

/-! ## Entries that a checkpoint can name -/

variable {value : List UInt8}

/-- A live entry of an engine with key-value separation. -/
structure IndexEntry.Separate (d : Nat) (e : IndexEntry) : Prop where
  offset_pos : 0 < e.diskOffset
  segmentID : e.segmentID = d
  plain : e.uncompressedSize = 0 → e.flags.compressed = false
  blob : e.valueSize = 0 → e.uncompressedSize = 0

/-- The value logs are as `newVLog` leaves them or longer, and with key-value
separation live entries have an offset there and nothing is in memory. -/
structure Engine.Fits (se : Engine) : Prop where
  disks_pos : 0 < se.numDisks
  tail_pos : ∀ d, 0 < (se.vlogs d).tail
  noDirty : se.kvSep = true → se.index.NoDirty
  separate : se.kvSep = true → ∀ k e, se.index.entries k = some e → e.flags.tombstone = false →
    e.Separate (se.disk k)

section Fits

variable {codec : ValueCodec} {se se' : Engine} {k : Key} {e : IndexEntry}

namespace Engine

theorem PointsTo.separate (h : se.PointsTo codec k e value) : e.Separate (se.disk k) :=
  { h with
    plain := by
      intro h0
      rw [h.compressed, h.eq_nil h0]
      exact codec.transform_nil
    blob := by
      intro h0
      have hnil : value = [] :=
        codec.eq_nil_of_transform value (length_eq_zero_iff.mp (h.valueSize ▸ h0))
      rcases h.uncompressedSize with hlen | ⟨-, hlen⟩
      · rw [hlen, hnil]
        rfl
      · rw [hlen, h0] }

theorem fits_create (kvSep : Bool) (numDisks : Nat) :
    (create kvSep (numDisks + 1)).Fits where
  disks_pos := Nat.succ_pos numDisks
  tail_pos := by
    intro d
    show 0 < vlogBlockSize
    decide
  noDirty := fun _ _ => rfl
  separate := fun _ k e he => (by cases he)

/-- A change of the index that leaves no live entry but old ones. -/
theorem Fits.withIndex (h : se.Fits) (hdirty : se.index.NoDirty → idx.NoDirty)
    (hlive : ∀ k e, idx.entries k = some e → e.flags.tombstone = false →
      se.index.entries k = some e) : (se.withIndex idx).Fits :=
  { h with
    noDirty := fun hkv => hdirty (h.noDirty hkv)
    separate := fun hkv k e he ht => h.separate hkv k e (hlive k e he ht) ht }

theorem Fits.install (h : se.Fits) {w : Write} (hw : se.Ready codec w) :
    (se.install w.install).Fits where
  disks_pos := by
    rw [(se.grows_install _).numDisks]
    exact h.disks_pos
  tail_pos := by rw [install_vlogs]; exact h.tail_pos
  noDirty := by
    intro hkv
    rw [(se.grows_install _).kvSep] at hkv
    exact noDirty_install (h.noDirty hkv) hw.agrees hkv
  separate := by
    intro hkv k e he ht
    rw [(se.grows_install _).kvSep] at hkv
    rw [(se.grows_install _).disk]
    by_cases hk : k = w.record.key
    · subst hk
      rcases install_self hw.agrees he with ⟨v, hp, -⟩ | ⟨ht', -⟩
      · obtain ⟨value, hl⟩ := hp.located hkv
        exact hl.separate
      · rw [ht] at ht'
        cases ht'
    · rw [(install_of_ne hw.agrees hk).1] at he
      exact h.separate hkv k e he ht

theorem kept_fits (codec : ValueCodec) : Kept codec Fits where
  tail_pos := fun _ h => h.tail_pos
  grow := by
    intro se se' h hg hindex _ htail
    constructor
    · rw [hg.numDisks]
      exact h.disks_pos
    · exact htail
    · rw [hg.kvSep, hindex]
      exact h.noDirty
    · intro hkv k e he ht
      rw [hg.kvSep] at hkv
      rw [hindex] at he
      rw [hg.disk]
      exact h.separate hkv k e he ht
  write := by
    intro se w h hw
    have happend : (se.appendWAL w.record).Fits :=
      { h with }
    exact happend.install (hw.grow (se.grows_appendWAL _))

end Engine

/-! ### Housekeeping -/

theorem ShardedIndex.NoDirty.markTombstone (h : idx.NoDirty) (key : Key) (t : Int) :
    (idx.markTombstone key t).NoDirty := by
  unfold ShardedIndex.markTombstone
  split
  · exact h
  · have hupd : (idx.update key (·.markTombstone t)).NoDirty := h
    exact hupd.setDirty_none key

theorem ShardedIndex.entries_markTombstone {key : Key} {t : Int}
    (he : (idx.markTombstone key t).entries k = some e) (ht : e.flags.tombstone = false) :
    idx.entries k = some e := by
  unfold markTombstone at he
  split at he
  · exact he
  next e₀ he₀ =>
    by_cases hk : k = key
    · subst hk
      change Function.update idx.entries k _ k = some e at he
      rw [Function.update_self, he₀] at he
      cases he
      cases ht
    · change Function.update idx.entries key _ k = some e at he
      rw [Function.update_of_ne hk] at he
      exact he

theorem Engine.Fits.expire (h : se.Fits) (key : Key) (cutoffUs tombUs : Int) :
    (se.withIndex (se.index.step (.markExpired key cutoffUs tombUs))).Fits := by
  unfold step CountedIndex.step
  rcases CountedIndex.idx_markExpired ⟨se.index, 0, 0, se.index.isLive⟩ key cutoffUs tombUs
    with heq | heq
  · simp only [heq]
    exact h
  · simp only [heq]
    exact h.withIndex (fun hd => hd.markTombstone key tombUs) fun k e he ht =>
      entries_markTombstone he ht

theorem Engine.Fits.reap (h : se.Fits) (key : Key) :
    (se.withIndex (se.index.step (.removeTombstone key))).Fits := by
  unfold step CountedIndex.step
  rcases CountedIndex.idx_removeTombstone ⟨se.index, 0, 0, se.index.isLive⟩ key with heq | heq
  · simp only [heq]
    exact h
  · simp only [heq]
    apply h.withIndex
    · intro hd k
      show update se.index.dirtyValues key none k = none
      rw [update_apply]
      split
      · rfl
      · exact hd k
    · intro k e he _
      change update se.index.entries key none k = some e at he
      by_cases hk : k = key
      · subst hk
        rw [update_self] at he
        cases he
      · rw [update_of_ne hk] at he
        exact he

theorem Engine.Fits.relocate (h : se.Fits) (d : Nat) (keys : List Key) :
    (se.relocate d keys).Fits := by
  constructor
  · exact h.disks_pos
  · intro d'
    have hd := h.tail_pos d'
    show 0 < (update se.vlogs d _ d').tail
    rw [update_apply]
    split
    next heq =>
      subst heq
      rw [(se.vlogs d').commit_tail]
      omega
    · exact hd
  · intro hkv k
    show (se.index.relocated _ _).dirtyValues k = none
    rw [dirtyValues_relocated]
    exact h.noDirty hkv k
  · intro hkv k e he ht
    obtain ⟨e₀, he₀, hmoved, hoff⟩ := se.relocate_spec d keys he
    have hold := h.separate hkv k e₀ he₀ (hmoved.tombstone ▸ ht)
    have htail := h.tail_pos d
    have hpos := hold.offset_pos
    constructor
    · omega
    · rw [hmoved.segmentID]
      exact hold.segmentID
    · rw [hmoved.uncompressedSize, hmoved.compressed]
      exact hold.plain
    · rw [hmoved.valueSize, hmoved.uncompressedSize]
      exact hold.blob

/-- A change of a value log that does not move its end. -/
theorem Engine.Fits.setVLogs (h : se.Fits) {vlogs : Nat → VLog}
    (htail : ∀ d, (vlogs d).tail = (se.vlogs d).tail) :
    ({ se with vlogs := vlogs } : Engine).Fits :=
  { h with
    tail_pos := by
      intro d
      rw [htail]
      exact h.tail_pos d }

theorem VLog.punchDeadHead_tail (vl : VLog) (p : Nat) :
    (vl.punchDeadHead p).tail = vl.tail := by
  unfold VLog.punchDeadHead
  split <;> rfl

theorem VLog.reopen_tail (vl : VLog) : vl.reopen.tail = vl.tail := by
  unfold VLog.reopen
  split <;> rfl

theorem Engine.Fits.punch (h : se.Fits) (d p : Nat) :
    (se.setVLog d ((se.vlogs d).punchDeadHead p)).Fits := by
  refine h.setVLogs fun d' => ?_
  rw [update_apply]
  split
  next heq => rw [VLog.punchDeadHead_tail, heq]
  · rfl

theorem Engine.Fits.of_not_kvSep (h : se.Fits) (hkv : se.kvSep = false) (idx : ShardedIndex) :
    (se.withIndex idx).Fits :=
  { h with
    noDirty := fun hkv' => absurd hkv (by rw [show se.kvSep = true from hkv']; exact Bool.true_eq_false.mp)
    separate := fun hkv' => absurd hkv (by rw [show se.kvSep = true from hkv']; exact Bool.true_eq_false.mp) }

end Fits

/-! ## What a restart leaves -/

variable {e' : IndexEntry}

section Rebuilt

variable {e : IndexEntry} {c : ReplayConfig} {version : Nat} {nowNs : Int} {k : Key}
  {keepTombstone : Int → Int → Bool}

/-- The stamp of an entry in its checkpoint record: an entry without one gets the
time of the checkpoint. -/
def Restart.stampUs (r : Restart) (e : IndexEntry) : Int :=
  if e.writeTimestampUs = 0 then r.closeUs else e.writeTimestampUs

namespace IndexEntry

/-- The entry that replay builds from the checkpoint record of an entry in the
value log. -/
def rebuilt (e : IndexEntry) (stampUs : Int) : IndexEntry :=
  { e with
    uncompressedSize := if e.uncompressedSize = 0 then e.valueSize else e.uncompressedSize
    writeTimestampUs := stampUs
    ttlExpiryUs := e.expiryUs
    flags := { e.flags with tombstone := false, hasTTL := decide (0 < e.expiryUs) } }

/-- The entry of a live key with the same deadline. -/
structure Continues (e' e : IndexEntry) (stampUs : Int) : Prop where
  live : e'.flags.tombstone = false
  stamp : e'.writeTimestampUs = stampUs
  expiry : e'.expiryUs = e.expiryUs

/-- The deadline of an entry with one. -/
theorem expiryUs_of_ttl (hflag : e'.flags.hasTTL = decide (0 < e.expiryUs))
    (hexp : e'.ttlExpiryUs = e.expiryUs) : e'.expiryUs = e.expiryUs := by
  have hnn := e.expiryUs_nonneg
  rw [expiryUs, hflag, hexp]
  by_cases hpos : 0 < e.expiryUs
  · simp [hpos]
  · simp [hpos]
    omega

theorem continues_rebuilt (e : IndexEntry) (stampUs : Int) :
    (e.rebuilt stampUs).Continues e stampUs where
  live := rfl
  stamp := rfl
  expiry := expiryUs_of_ttl rfl rfl

theorem Separate.rebuilt {d : Nat} (h : e.Separate d) (stampUs : Int) :
    (e.rebuilt stampUs).Separate d :=
  { h with
    plain := by
      show (if e.uncompressedSize = 0 then e.valueSize else e.uncompressedSize) = 0 → _
      split
      next h0 => exact fun _ => h.plain h0
      · exact h.plain
    blob := by
      intro h0
      show (if e.uncompressedSize = 0 then e.valueSize else e.uncompressedSize) = 0
      rw [if_pos (h.blob h0)]
      exact h0 }

end IndexEntry

theorem stampUs_checkpointInline (version : Nat) (nowNs : Int) (k : Key) (e : IndexEntry)
    (value : List UInt8) :
    (checkpointInline version nowNs k e value).replayed.stampUs =
      if e.writeTimestampUs = 0 then nowNs.tdiv 1000 else e.writeTimestampUs := by
  show (if e.writeTimestampUs * 1000 = 0 then nowNs else e.writeTimestampUs * 1000).tdiv 1000 = _
  by_cases h : e.writeTimestampUs = 0
  · simp [h]
  · rw [if_neg h, if_neg (by omega)]
    simp

theorem expiryUs_checkpoint (e : IndexEntry) :
    (if 0 < e.expiryUs then e.expiryUs else 0) = e.expiryUs := by
  have hnn := e.expiryUs_nonneg
  split <;> omega

theorem expired_checkpointInline (version : Nat) (nowNs : Int) (k : Key) (e : IndexEntry)
    (value : List UInt8) (nowUs : Int) :
    (checkpointInline version nowNs k e value).replayed.expired nowUs = e.isExpired nowUs := by
  rw [Bool.eq_iff_iff, isExpired_iff]
  show (decide (0 < if 0 < e.expiryUs then e.expiryUs else 0) &&
    decide ((if 0 < e.expiryUs then e.expiryUs else 0) ≤ nowUs)) = true ↔ _
  rw [expiryUs_checkpoint]
  simp

theorem IndexEntry.Separate.freshSlot (h : e.Separate c.diskIdx) (hkv : c.kvSep = true)
    (hexp : e.isExpired c.nowUs = false) :
    freshSlot c (checkpointAt version nowNs k e).replayed =
      (some (e.rebuilt (if e.writeTimestampUs = 0 then nowNs.tdiv 1000 else e.writeTimestampUs)),
        none) := by
  obtain ⟨hc, he, ho⟩ :=
    hasFlag_xformByte e.flags.compressed e.flags.encrypted e.flags.replicaApplied
  have hexpired : (checkpointAt version nowNs k e).replayed.expired c.nowUs = false :=
    (expired_checkpointInline version nowNs k e [] c.nowUs).trans hexp
  have hstamp : (checkpointAt version nowNs k e).replayed.stampUs = _ :=
    stampUs_checkpointInline version nowNs k e []
  have hlen : (checkpointAt version nowNs k e).diskLen = e.valueSize := by
    show (if e.valueSize = 0 then
      (if e.uncompressedSize = 0 then e.valueSize else e.uncompressedSize) else e.valueSize) = _
    split
    next h0 => rw [if_pos (h.blob h0)]
    · rfl
  have httl : (checkpointAt version nowNs k e).replayed.ttlExpiryUs = e.expiryUs :=
    expiryUs_checkpoint e
  have hpos : 0 < (e.diskOffset : Int) := Int.natCast_pos.mpr h.offset_pos
  have htomb : (checkpointAt version nowNs k e).replayed.isTombstone = false := rfl
  have hoff : (checkpointAt version nowNs k e).replayed.vlogOffset = e.diskOffset := rfl
  rw [Storage.freshSlot, htomb, if_neg Bool.false_ne_true, hexpired, if_neg Bool.false_ne_true,
    if_pos ⟨hkv, hpos⟩]
  unfold replayEntry IndexEntry.rebuilt
  rw [hstamp, httl, expiryUs_checkpoint]
  simp only [replayed, hlen]
  simp only [checkpointAt, hc, he, ho, Int.toNat_natCast, ← h.segmentID]

theorem freshSlot_checkpointInline (hkv : c.kvSep = false) (hexp : e.isExpired c.nowUs = false)
    (hv : value ≠ []) :
    ∃ e', freshSlot c (checkpointInline version nowNs k e value).replayed = (some e', some value) ∧
      e'.Continues e (if e.writeTimestampUs = 0 then nowNs.tdiv 1000 else e.writeTimestampUs) := by
  have hexpired : (checkpointInline version nowNs k e value).replayed.expired c.nowUs = false :=
    (expired_checkpointInline version nowNs k e value c.nowUs).trans hexp
  have hvalue : (checkpointInline version nowNs k e value).replayed.value = value := by
    simp [WALEntry.replayed, WALEntry.inline, checkpointInline]
  refine ⟨replayEntry (checkpointInline version nowNs k e value).replayed, ?_, ?_⟩
  · rw [freshSlot, show (checkpointInline version nowNs k e value).replayed.isTombstone = false from rfl,
      if_neg Bool.false_ne_true, hexpired, if_neg Bool.false_ne_true,
      if_neg (fun h => Bool.false_ne_true (hkv ▸ h.1)), hvalue,
      if_pos ⟨by rw [hkv]; exact Bool.false_ne_true, hv⟩]
  · constructor
    · rfl
    · exact stampUs_checkpointInline version nowNs k e value
    · apply expiryUs_of_ttl
      · show decide (0 < if 0 < e.expiryUs then e.expiryUs else 0) = _
        rw [expiryUs_checkpoint]
      · show (if 0 < (if 0 < e.expiryUs then e.expiryUs else 0) then
          (if 0 < e.expiryUs then e.expiryUs else 0) else 0) = _
        simp only [expiryUs_checkpoint]

theorem checkpointRecord_isTombstone {kvSep : Bool} {dirty : Option (List UInt8)} {x : WALEntry}
    (h : checkpointRecord kvSep keepTombstone version nowNs k e dirty = some x)
    (hdead : e.flags.tombstone = true ∨ e.isExpired (nowNs.tdiv 1000) = true) :
    x.isTombstone = true := by
  unfold checkpointRecord at h
  simp only at h
  split at h
  · cases h
    rfl
  · cases h

theorem expired_of_checkpointRecord {kvSep : Bool} {dirty : Option (List UInt8)} {x : WALEntry}
    (h : checkpointRecord kvSep keepTombstone version nowNs k e dirty = some x)
    (ht : x.replayed.isTombstone = false) (nowUs : Int) :
    x.replayed.expired nowUs = e.isExpired nowUs := by
  unfold checkpointRecord at h
  simp only at h
  split at h
  · cases h
    cases ht
  · split at h
    · cases h
    · split at h
      · cases h
        exact expired_checkpointInline version nowNs k e [] nowUs
      · split at h
        · cases h
        · split at h
          · cases h
          · cases h
            exact expired_checkpointInline ..

end Rebuilt

open Store

section Restart

variable {codec : ValueCodec} {s : Store} {r : Restart} {k : Key} {e : IndexEntry}

namespace Store

def record (s : Store) (r : Restart) (k : Key) : Option WALEntry :=
  s.se.index.checkpointKey s.se.kvSep r.keepTombstone (s.se.version + 1) r.closeNs k

theorem recordsIn_checkpointFile (s : Store) (r : Restart) (d : Nat) (k : Key) :
    recordsIn (s.checkpointFile r d) k =
      if s.se.disk k = d then (s.record r k).toList else [] := by
  rw [checkpointFile, recordsIn_checkpointShards _ _ _ _ _ (nodup_diskShards ..)]
  simp only [Engine.mem_diskShards]
  rfl

theorem mem_checkpointFile {d : Nat} {x : WALEntry} (h : x ∈ s.checkpointFile r d) :
    s.se.disk x.key = d ∧ s.record r x.key = some x := by
  have hmem : x ∈ recordsIn (s.checkpointFile r d) x.key :=
    mem_filter.mpr ⟨h, decide_eq_true rfl⟩
  rw [s.recordsIn_checkpointFile] at hmem
  by_cases hd : s.se.disk x.key = d
  · rw [if_pos hd, Option.mem_toList] at hmem
    exact ⟨hd, hmem⟩
  · rw [if_neg hd] at hmem
    cases hmem

theorem opens (h : s.se.Fits) : (s.opened r).Opens codec r (s.checkpointFile r) where
  routed := fun d x hx => (mem_checkpointFile hx).1
  direct := by
    intro d x hx
    obtain ⟨-, hrec⟩ := mem_checkpointFile hx
    obtain ⟨e, he, hx'⟩ := Option.bind_eq_some_iff.mp hrec
    obtain ⟨-, -, hput⟩ := checkpointRecord_eq_some hx'
    apply Bool.eq_false_iff.mpr
    intro hdef
    simp only [deferred, Bool.and_eq_true, Bool.not_eq_true', decide_eq_true_eq] at hdef
    obtain ⟨⟨⟨⟨ht, -⟩, hkv⟩, hoff⟩, -⟩ := hdef
    -- with key-value separation a live entry has an offset
    obtain ⟨hlive, hat⟩ := hput ht
    have hsep := h.separate hkv x.key e he hlive
    have hpos := hsep.offset_pos
    have hvl : x.replayed.vlogOffset = e.diskOffset := by
      rw [hat hkv hpos]
      rfl
    omega

/-- Replay changes the index only. -/
theorem restart_se (codec : ValueCodec) (r : Restart) (h : s.se.Fits) :
    ∃ idx, (s.restart codec r).se = (s.opened r).withIndex idx :=
  (opens h).openDisks _

theorem slot_restart (h : s.se.Fits) (k : Key) :
    (s.restart codec r).se.index.slot k =
      ((s.record r k).map fun x =>
        freshSlot (r.config codec s.se (s.se.disk k)) x.replayed).getD (none, none) := by
  have hone : recordsIn (s.checkpointFile r ((s.opened r).disk k)) k = (s.record r k).toList := by
    rw [s.recordsIn_checkpointFile]
    exact if_pos rfl
  have hopens : (s.opened r).Opens codec r (s.checkpointFile r) := opens h
  have hslot := hopens.slot_openDisks hone (nodup_range (n := s.se.numDisks)) fun _ => rfl
  have hmem : (s.opened r).disk k ∈ List.range s.se.numDisks :=
    mem_range.mpr (diskFor_lt h.disks_pos k)
  rw [if_pos hmem] at hslot
  exact hslot

end Store

structure Restart.Carries (r : Restart) (e : IndexEntry) : Prop where
  live : e.flags.tombstone = false
  unexpired : e.isExpired (max r.closeUs r.openUs) = false

theorem Restart.Carries.isExpired (h : r.Carries e) {t : Int} (ht : t ≤ max r.closeUs r.openUs) :
    e.isExpired t = false := by
  apply Bool.eq_false_iff.mpr
  intro hx
  exact Bool.false_ne_true (h.unexpired.symm.trans (e.isExpired_mono hx ht))

namespace Store

theorem record_of_carries (he : s.se.index.entries k = some e) (h : r.Carries e) :
    s.record r k =
      if s.se.kvSep ∧ 0 < e.diskOffset then
        some (checkpointAt (s.se.version + 1) r.closeNs k e)
      else
        (s.se.index.dirtyValues k).bind fun value =>
          if value = [] then none
          else some (checkpointInline (s.se.version + 1) r.closeNs k e value) := by
  have hx : e.isExpired (r.closeNs.tdiv 1000) = false := h.isExpired (le_max_left ..)
  unfold record checkpointKey
  rw [he, Option.bind_some]
  simp only [checkpointRecord, h.live, hx]
  cases s.se.index.dirtyValues k <;> rfl

theorem slot_restart_of_not (codec : ValueCodec) (h : s.se.Fits)
    (hnot : ∀ e, s.se.index.entries k = some e → ¬r.Carries e) :
    ((s.restart codec r).se.index.slot k).2 = none ∧
      ∀ e', ((s.restart codec r).se.index.slot k).1 = some e' → e'.flags.tombstone = true := by
  rw [slot_restart h]
  cases hrec : s.record r k with
  | none => exact ⟨rfl, fun _ he' => (by cases he')⟩
  | some x =>
    show (freshSlot _ x.replayed).2 = none ∧ ∀ e', (freshSlot _ x.replayed).1 = some e' → _
    unfold freshSlot
    split
    · refine ⟨rfl, fun e' he' => ?_⟩
      cases he'
      rfl
    next ht =>
      -- the record of a live entry that expired before the open
      obtain ⟨e, he, hx⟩ := Option.bind_eq_some_iff.mp hrec
      obtain ⟨hlive, hclose⟩ := not_or.mp fun hdead =>
        ht (checkpointRecord_isTombstone hx hdead)
      have hopen : x.replayed.expired (r.config codec s.se (s.se.disk k)).nowUs = true := by
        rw [expired_of_checkpointRecord hx (Bool.eq_false_iff.mpr ht)]
        by_contra hopen
        refine hnot e he ⟨Bool.eq_false_iff.mpr hlive, ?_⟩
        rcases le_total r.closeUs r.openUs with hle | hle
        · rw [max_eq_right hle]
          exact Bool.eq_false_iff.mpr hopen
        · rw [max_eq_left hle]
          exact Bool.eq_false_iff.mpr hclose
      rw [if_pos hopen]
      exact ⟨rfl, fun _ he' => (by cases he')⟩

theorem slot_restart_kvSep (codec : ValueCodec) (h : s.se.Fits) (hkv : s.se.kvSep = true)
    (he : s.se.index.entries k = some e) (hc : r.Carries e) :
    (s.restart codec r).se.index.slot k = (some (e.rebuilt (r.stampUs e)), none) := by
  have hsep := h.separate hkv k e he hc.live
  rw [slot_restart h, record_of_carries he hc, if_pos ⟨hkv, hsep.offset_pos⟩]
  exact IndexEntry.Separate.freshSlot (c := r.config codec s.se (s.se.disk k)) hsep hkv
    (hc.isExpired (le_max_right ..))

theorem slot_restart_inline (codec : ValueCodec) (h : s.se.Fits) (hkv : s.se.kvSep = false)
    (he : s.se.index.entries k = some e) (hc : r.Carries e)
    (hd : s.se.index.dirtyValues k = some value) (hv : value ≠ []) :
    ∃ e', (s.restart codec r).se.index.slot k = (some e', some value) ∧
      e'.Continues e (r.stampUs e) := by
  rw [slot_restart h, record_of_carries he hc, if_neg fun hp => Bool.false_ne_true (hkv ▸ hp.1), hd,
    Option.bind_some, if_neg hv]
  exact freshSlot_checkpointInline (c := r.config codec s.se (s.se.disk k)) hkv
    (hc.isExpired (le_max_right ..)) hv

/-- Without key-value separation, a key whose value is not in memory is lost. -/
theorem slot_restart_lost (codec : ValueCodec) (h : s.se.Fits) (hkv : s.se.kvSep = false)
    (he : s.se.index.entries k = some e) (hc : r.Carries e)
    (hd : ∀ value, s.se.index.dirtyValues k = some value → value = []) :
    (s.restart codec r).se.index.slot k = (none, none) := by
  rw [slot_restart h, record_of_carries he hc, if_neg fun hp => Bool.false_ne_true (hkv ▸ hp.1)]
  cases hdv : s.se.index.dirtyValues k with
  | none => rfl
  | some value =>
    rw [Option.bind_some, if_pos (hd value hdv)]
    rfl

end Store

theorem Engine.Fits.restart (h : s.se.Fits) : (s.restart codec r).se.Fits := by
  obtain ⟨idx, hse⟩ := restart_se codec r h
  have hvlogs : ∀ d, (s.restart codec r).se.vlogs d = (s.se.vlogs d).reopen := by
    rw [hse]
    exact fun _ => rfl
  have hkvSep : (s.restart codec r).se.kvSep = s.se.kvSep := by rw [hse]; rfl
  have hnum : (s.restart codec r).se.numDisks = s.se.numDisks := by rw [hse]; rfl
  -- with key-value separation, what a key is left with
  have hslot : s.se.kvSep = true → ∀ k, ((s.restart codec r).se.index.slot k).2 = none ∧
      ∀ e', ((s.restart codec r).se.index.slot k).1 = some e' → e'.flags.tombstone = false →
        e'.Separate (s.se.disk k) := by
    intro hkv k
    by_cases hc : ∃ e, s.se.index.entries k = some e ∧ r.Carries e
    · obtain ⟨e, he, hc⟩ := hc
      rw [slot_restart_kvSep codec h hkv he hc]
      refine ⟨rfl, fun e' he' _ => ?_⟩
      cases he'
      exact (h.separate hkv k e he hc.live).rebuilt _
    · obtain ⟨hd, ht⟩ := slot_restart_of_not codec h fun e he hcar => hc ⟨e, he, hcar⟩
      refine ⟨hd, fun e' he' hlive => ?_⟩
      rw [ht e' he'] at hlive
      cases hlive
  constructor
  · rw [hnum]
    exact h.disks_pos
  · intro d
    rw [hvlogs, (s.se.vlogs d).reopen_tail]
    exact h.tail_pos d
  · intro hkv k
    exact (hslot (hkvSep ▸ hkv) k).1
  · intro hkv k e he ht
    have hdisk : (s.restart codec r).se.disk k = s.se.disk k := by
      unfold Engine.disk
      rw [hnum]
    rw [hdisk]
    exact (hslot (hkvSep ▸ hkv) k).2 e he ht

/-- Everything that happens to a store keeps its live entries nameable. -/
theorem Engine.Fits.apply (h : s.se.Fits) (op : StoreOp) : (s.apply codec op).se.Fits := by
  cases op with
  | exec op => exact (Engine.kept_fits codec).exec h op
  | expire key cutoffUs tombUs => exact h.expire key cutoffUs tombUs
  | reap key => exact h.reap key
  | relocate d keys =>
    show (if s.se.kvSep then { s with se := s.se.relocate d keys } else s).se.Fits
    split
    · exact h.relocate d keys
    · exact h
  | punch d minLiveOffset => exact h.punch d minLiveOffset
  | flush key =>
    show (if s.se.kvSep then s else s.flush key).se.Fits
    split
    · exact h
    next hkv =>
      unfold flush
      split
      · exact h
      · split
        · exact h.of_not_kvSep (Bool.eq_false_iff.mpr hkv) _
        · exact h
  | restart => exact h.restart

theorem Store.fits_run (codec : ValueCodec) (kvSep : Bool) (numDisks : Nat) (ops : List StoreOp) :
    ((create kvSep (numDisks + 1)).run codec ops).se.Fits := by
  have hrun : ∀ s : Store, s.se.Fits → (s.run codec ops).se.Fits := by
    induction ops with
    | nil => exact fun _ h => h
    | cons op ops ih => exact fun s h => ih _ (h.apply op)
  exact hrun _ (Engine.fits_create kvSep numDisks)

/-! ## What a read sees after a restart -/

theorem VLog.readValue_reopen (vl : VLog) (offset valueLen : Nat) :
    vl.reopen.readValue offset valueLen =
      if valueLen ≠ 0 ∧ offset < vl.savedWatermark then none
      else vl.readValue offset valueLen := by
  unfold VLog.reopen
  by_cases h0 : vl.savedWatermark = 0
  · rw [if_pos h0, if_neg]
    omega
  · rw [if_neg h0]
    unfold VLog.readValue VLog.punchHole
    simp only
    by_cases hlen : valueLen = 0
    · simp [hlen]
    · by_cases hoff : offset < vl.savedWatermark
      · simp [hlen, hoff]
      · simp [hoff]

namespace Store

theorem read_restart_kvSep (h : s.se.Fits) (hkv : s.se.kvSep = true)
    (he : s.se.index.entries k = some e) (hc : r.Carries e) :
    (s.restart codec r).read codec k (e.rebuilt (r.stampUs e)) =
      if e.valueSize ≠ 0 ∧ e.diskOffset < (s.se.vlogs (s.se.disk k)).savedWatermark then none
      else s.read codec k e := by
  obtain ⟨idx, hse⟩ := restart_se codec r h
  have hsep := h.separate hkv k e he hc.live
  have hnone : (s.restart codec r).se.index.dirtyValues k = none := by
    have hslot := slot_restart_kvSep codec h hkv he hc
    exact dirtyValues_of_slot hslot
  have hold : s.se.index.dirtyValues k = none := h.noDirty hkv k
  have huntransform : ∀ b, codec.untransform e.flags.compressed e.flags.encrypted
      (e.rebuilt (r.stampUs e)).uncompressedSize b =
      codec.untransform e.flags.compressed e.flags.encrypted e.uncompressedSize b := by
    intro b
    show codec.untransform _ _ (if e.uncompressedSize = 0 then e.valueSize else _) b = _
    split
    next h0 =>
      rw [hsep.plain h0]
      exact codec.untransform_uncompressed ..
    · rfl
  have hkv' : (s.restart codec r).se.kvSep = true := by
    rw [hse]
    exact hkv
  have hvlogs : (s.restart codec r).se.vlogs = fun d => (s.se.vlogs d).reopen := by
    rw [hse]
    rfl
  unfold read
  rw [if_pos hkv, if_pos hkv', hnone, hold, hvlogs]
  unfold entryValue
  simp only [rebuilt, hsep.offset_pos, if_true, VLog.readValue_reopen, hsep.segmentID]
  simp only [rebuilt] at huntransform
  simp only [huntransform]
  by_cases hfreed : e.valueSize ≠ 0 ∧ e.diskOffset < (s.se.vlogs (s.se.disk k)).savedWatermark
  · simp only [if_pos hfreed]
  · simp only [if_neg hfreed]

/-- The checkpoint can name the value of a live entry, and its stamp. -/
structure Named (codec : ValueCodec) (r : Restart) (s : Store) (key : Key) (e : IndexEntry) :
    Prop where
  stamped : e.writeTimestampUs = 0 → r.closeUs ≤ 1
  inMemory : s.se.kvSep = false → ∃ v, s.se.index.dirtyValues key = some v ∧ v ≠ []
  unfreed : s.se.kvSep = true → s.read codec key e ≠ none → e.valueSize ≠ 0 →
    (s.se.vlogs (s.se.disk key)).savedWatermark ≤ e.diskOffset

/-- From then on, a restart changes neither the value and the deadline of a key
nor its version token. -/
def Keeps (codec : ValueCodec) (r : Restart) (s : Store) (key : Key) : Prop :=
  ∀ nowUs, r.closeUs ≤ nowUs → r.openUs ≤ nowUs →
    (s.restart codec r).view codec key nowUs = s.view codec key nowUs ∧
      ∀ floorUs, (s.restart codec r).keyVersion key nowUs floorUs = s.keyVersion key nowUs floorUs

theorem view_of_live {nowUs : Int} (he : s.se.index.entries k = some e)
    (ht : e.flags.tombstone = false) (hx : e.isExpired nowUs = false) (codec : ValueCodec) :
    s.view codec k nowUs = (s.read codec k e).map (fun v => (v, e.expiryUs)) ∧
      ∀ floorUs, s.keyVersion k nowUs floorUs = e.liveToken floorUs := by
  unfold view keyVersion ShardedIndex.keyVersion
  simp only [he, ht, hx, versionToken, Bool.false_eq_true, or_self, if_false,
    implies_true, and_self]

theorem view_of_gone {nowUs : Int}
    (h : ∀ e, s.se.index.entries k = some e → e.flags.tombstone = true ∨ e.isExpired nowUs = true)
    (codec : ValueCodec) :
    s.view codec k nowUs = none ∧ ∀ floorUs, s.keyVersion k nowUs floorUs = 0 := by
  unfold view keyVersion ShardedIndex.keyVersion
  cases he : s.se.index.entries k with
  | none => exact ⟨rfl, fun _ => rfl⟩
  | some e =>
    simp only [versionToken, if_pos (h e he), implies_true, and_self]

/-- Live entries after a restart continue live ones. -/
theorem entries_restart (h : s.se.Fits) (he' : (s.restart codec r).se.index.entries k = some e') :
    e'.flags.tombstone = true ∨
      ∃ e, s.se.index.entries k = some e ∧ r.Carries e ∧ e'.Continues e (r.stampUs e) := by
  by_cases hc : ∃ e, s.se.index.entries k = some e ∧ r.Carries e
  · obtain ⟨e, he, hc⟩ := hc
    refine .inr ⟨e, he, hc, ?_⟩
    cases hkv : s.se.kvSep with
    | true =>
      have hslot := entries_of_slot (slot_restart_kvSep codec h hkv he hc)
      cases he'.symm.trans hslot
      exact e.continues_rebuilt _
    | false =>
      by_cases hd : ∃ v, s.se.index.dirtyValues k = some v ∧ v ≠ []
      · obtain ⟨v, hd, hv⟩ := hd
        obtain ⟨e'', hslot, hcont⟩ := slot_restart_inline codec h hkv he hc hd hv
        cases he'.symm.trans (entries_of_slot hslot)
        exact hcont
      · have hslot := slot_restart_lost codec h hkv he hc fun v hv =>
          not_not.mp fun hne => hd ⟨v, hv, hne⟩
        cases he'.symm.trans (entries_of_slot hslot)
  · exact .inl ((slot_restart_of_not codec h fun e he hcar => hc ⟨e, he, hcar⟩).2 e' he')

end Store

theorem IndexEntry.Continues.isExpired {stampUs : Int} (h : e'.Continues e stampUs) (nowUs : Int) :
    e'.isExpired nowUs = e.isExpired nowUs := by
  rw [Bool.eq_iff_iff, isExpired_iff, isExpired_iff, h.expiry]

theorem IndexEntry.Continues.liveToken (h : e'.Continues e (r.stampUs e))
    (hstamp : e.writeTimestampUs = 0 → r.closeUs ≤ 1) (floorUs : Int) :
    e'.liveToken floorUs = e.liveToken floorUs := by
  unfold IndexEntry.liveToken
  rw [h.stamp]
  unfold Restart.stampUs legacyVersion
  by_cases h0 : e.writeTimestampUs = 0
  · rw [if_pos h0, h0]
    refine Eq.trans ?_ (if_pos (.inl le_rfl)).symm
    split
    · rfl
    next hnot =>
      omega
  · rw [if_neg h0]

namespace Store

theorem keeps_of_named (h : s.se.Fits)
    (hnamed : ∀ e, s.se.index.entries k = some e → r.Carries e → s.Named codec r k e) :
    s.Keeps codec r k := by
  intro nowUs hclose hopen
  by_cases hgone : ∀ e, s.se.index.entries k = some e →
      e.flags.tombstone = true ∨ e.isExpired nowUs = true
  · -- a key that is not live stays so
    have hgone' : ∀ e', (s.restart codec r).se.index.entries k = some e' →
        e'.flags.tombstone = true ∨ e'.isExpired nowUs = true := by
      intro e' he'
      rcases entries_restart h he' with ht | ⟨e, he, hc, hcont⟩
      · exact .inl ht
      · rw [hcont.isExpired]
        exact .inr ((hgone e he).resolve_left (Bool.eq_false_iff.mp hc.live))
    obtain ⟨hview, hver⟩ := view_of_gone hgone codec
    obtain ⟨hview', hver'⟩ := view_of_gone hgone' codec
    exact ⟨hview'.trans hview.symm, fun f => (hver' f).trans (hver f).symm⟩
  · push Not at hgone
    obtain ⟨e, he, ht, hx⟩ := hgone
    have ht := Bool.eq_false_iff.mpr ht
    have hx := Bool.eq_false_iff.mpr hx
    have hc : r.Carries e := by
      refine ⟨ht, Bool.eq_false_iff.mpr fun hmax => ?_⟩
      exact Bool.false_ne_true (hx.symm.trans (e.isExpired_mono hmax (max_le hclose hopen)))
    have hn := hnamed e he hc
    obtain ⟨hview, hver⟩ := view_of_live he ht hx codec
    -- the entry after the restart, and what is read of it
    have hafter : ∃ e', (s.restart codec r).se.index.entries k = some e' ∧
        e'.Continues e (r.stampUs e) ∧ (s.restart codec r).read codec k e' = s.read codec k e := by
      cases hkv : s.se.kvSep with
      | true =>
        have hslot := slot_restart_kvSep codec h hkv he hc
        refine ⟨_, entries_of_slot hslot, e.continues_rebuilt _, ?_⟩
        rw [read_restart_kvSep h hkv he hc]
        split
        next hfreed =>
          by_contra hread
          exact absurd (hn.unfreed hkv (Ne.symm hread) hfreed.1) (Nat.not_le.mpr hfreed.2)
        · rfl
      | false =>
        obtain ⟨v, hd, hv⟩ := hn.inMemory hkv
        obtain ⟨e', hslot, hcont⟩ := slot_restart_inline codec h hkv he hc hd hv
        refine ⟨e', entries_of_slot hslot, hcont, ?_⟩
        have hd' : (s.restart codec r).se.index.dirtyValues k = some v := dirtyValues_of_slot hslot
        have hkv' : (s.restart codec r).se.kvSep = false := by
          obtain ⟨idx, hse⟩ := restart_se codec r h
          rw [hse]
          exact hkv
        unfold read Segment.readEntry
        rw [if_neg (Bool.eq_false_iff.mp hkv), if_neg (Bool.eq_false_iff.mp hkv'), hd, hd']
    obtain ⟨e', he', hcont, hread⟩ := hafter
    obtain ⟨hview', hver'⟩ :=
      view_of_live he' hcont.live ((hcont.isExpired nowUs).trans hx) codec
    constructor
    · rw [hview', hview, hread, hcont.expiry]
    · intro floorUs
      rw [hver', hver]
      exact hcont.liveToken hn.stamped floorUs

theorem named_of_keeps (h : s.se.Fits) (hkeeps : s.Keeps codec r k)
    (he : s.se.index.entries k = some e) (hc : r.Carries e) : s.Named codec r k e := by
  obtain ⟨hview, hver⟩ := hkeeps _ (le_max_left r.closeUs r.openUs) (le_max_right ..)
  obtain ⟨hview₀, hver₀⟩ := view_of_live he hc.live hc.unexpired codec
  -- the token before is not zero, so the key is live after
  have hpos : (s.restart codec r).keyVersion k (max r.closeUs r.openUs) 0 ≠ 0 := by
    rw [hver, hver₀]
    exact e.liveToken_pos 0
  obtain ⟨e', he', -, htoken⟩ := keyVersion_ne_zero hpos
  constructor
  · intro h0
    have hcont : e'.Continues e (r.stampUs e) := by
      rcases entries_restart h he' with ht | ⟨e₀, he₀, -, hcont⟩
      · refine absurd ?_ hpos
        exact (view_of_gone (fun x hx => .inl (by cases he'.symm.trans hx; exact ht)) codec).2 0
      · cases he.symm.trans he₀
        exact hcont
    have heq : e'.liveToken 0 = e.liveToken 0 := by
      rw [← htoken, ← hver₀ 0]
      exact hver 0
    unfold liveToken at heq
    rw [hcont.stamp] at heq
    unfold Restart.stampUs legacyVersion at heq
    rw [h0] at heq
    simp at heq
    omega
  · intro hkv
    by_contra hd
    have hslot := slot_restart_lost codec h hkv he hc fun v hv =>
      not_not.mp fun hne => hd ⟨v, hv, hne⟩
    cases he'.symm.trans (entries_of_slot hslot)
  · intro hkv hread hsize
    by_contra hlt
    have hslot := slot_restart_kvSep codec h hkv he hc
    have hcont := e.continues_rebuilt (r.stampUs e)
    have hview' := (view_of_live (entries_of_slot hslot) hcont.live
      ((hcont.isExpired _).trans hc.unexpired) codec).1
    rw [read_restart_kvSep h hkv he hc, if_pos ⟨hsize, Nat.not_le.mp hlt⟩] at hview'
    rw [hview', hview₀] at hview
    cases hv : s.read codec k e with
    | none => exact hread hv
    | some =>
      rw [hv] at hview
      cases hview

/-- A restart preserves a store that was reached by any operations just when the
checkpoint can name every live entry. -/
theorem restart_eq_iff (codec : ValueCodec) (kvSep : Bool) (numDisks : Nat)
    (ops : List StoreOp) (r : Restart) :
    (∀ key, ((create kvSep (numDisks + 1)).run codec ops).Keeps codec r key) ↔
      ∀ key e,
        ((create kvSep (numDisks + 1)).run codec ops).se.index.entries key = some e →
        r.Carries e →
        ((create kvSep (numDisks + 1)).run codec ops).Named codec r key e := by
  have hfits := fits_run codec kvSep numDisks ops
  constructor
  · intro hkeeps key e he hc
    exact named_of_keeps hfits (hkeeps key) he hc
  · intro hnamed key
    exact keeps_of_named hfits (hnamed key)

end Store

/-- A store without key-value separation in which two values were moved to the
segment file. -/
def flushedStore : Store :=
  (Store.create false 1).run .plain
    [.exec (.put ⟨10, 10⟩ [107] [97] 0 0 false), .flush [107],
      .exec (.put ⟨20, 20⟩ [108] [98] 0 0 false), .flush [108]]

/-- A store in which the collector found no live entry and a key was written
after that. -/
def punchedStore : Store :=
  (Store.create true 1).run .plain
    [.exec (.put ⟨10, 10⟩ [107] [97] 0 0 false),
      .exec (.delete ⟨15, 15⟩ (putRecord 0 0 [] [] 0 false) [107] false),
      .punch 0 (2 ^ 63 - 1), .exec (.put ⟨20, 20⟩ [108] [98] 0 0 false)]

def promptRestart : Restart := ⟨fun _ _ => true, 30000, 30, false⟩

/-- A value that was moved to the segment file is lost by a restart, and so is a
value that was written below the watermark of its log. -/
theorem restart_ne_flushed :
    (flushedStore.view .plain [108] 30 = some ([98], 0) ∧
      (flushedStore.restart .plain promptRestart).view .plain [108] 30 = none) ∧
    (punchedStore.view .plain [108] 30 = some ([98], 0) ∧
      (punchedStore.restart .plain promptRestart).view .plain [108] 30 = none) := by
  have hflushed : flushedStore.se.Fits := fits_run .plain false 0 _
  have hpunched : punchedStore.se.Fits := fits_run .plain true 0 _
  refine ⟨⟨by decide, ?_⟩, by decide, ?_⟩
  · obtain ⟨e, he, hc, hd⟩ : ∃ e, flushedStore.se.index.entries [108] = some e ∧
        promptRestart.Carries e ∧ flushedStore.se.index.dirtyValues [108] = none :=
      ⟨_, rfl, ⟨rfl, by decide⟩, rfl⟩
    have hslot : (flushedStore.restart .plain promptRestart).se.index.slot [108] = (none, none) := by
      apply slot_restart_lost .plain hflushed rfl he hc
      rw [hd]
      exact fun _ hv => (by cases hv)
    have hnone : (flushedStore.restart .plain promptRestart).se.index.entries [108] = none :=
      entries_of_slot hslot
    apply And.left
    apply view_of_gone
    rw [hnone]
    exact fun _ h => (by cases h)
  · obtain ⟨e, he, hc, hfreed⟩ : ∃ e, punchedStore.se.index.entries [108] = some e ∧
        promptRestart.Carries e ∧ e.valueSize ≠ 0 ∧
        e.diskOffset < (punchedStore.se.vlogs (punchedStore.se.disk [108])).savedWatermark :=
      ⟨_, rfl, ⟨rfl, by decide⟩, by decide, by decide⟩
    have hafter : (punchedStore.restart .plain promptRestart).se.index.entries [108] =
        some (e.rebuilt (promptRestart.stampUs e)) :=
      entries_of_slot (slot_restart_kvSep .plain hpunched rfl he hc)
    have hcont := e.continues_rebuilt (promptRestart.stampUs e)
    have hview := (view_of_live hafter hcont.live
      ((hcont.isExpired 30).trans (hc.isExpired (by decide))) .plain).1
    rw [read_restart_kvSep hpunched rfl he hc, if_pos hfreed] at hview
    exact hview

end Restart

end VeltrixDB.Storage
