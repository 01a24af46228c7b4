import Mathlib.Logic.Relation
import VeltrixDB.Storage.IndexCount
import VeltrixDB.Storage.Writers

/-!
# Segment compaction

Without key-value separation values stay in memory until the compaction of
their disk moves them to the segment file.  `compactDiskShards` in
`storage/engine.go` goes through the shards of a disk: it collects the keys
with a value in memory, writes a record for each and points the entry of the
key to it.  Puts and deletes may come between any two of these.  The segment
file follows `storage/segment.go`; a record is kept as the key and the value
it was written for, and a read with other lengths covers other bytes than the
checksum of the record and fails.

Main results:

- Theorem `CompactSys.Counted.step`: the counter of values in memory stays
  right through any interleaving.
- Theorem `CompactSys.Run.get_eq`: as long as no key is overwritten between its
  collection and the update of its entry, and no record starts the file, every
  key reads as its last write.
-/

namespace VeltrixDB.Storage

open Function List ShardedIndex CountedIndex

/-! ## The segment file -/

def recordHeaderBytes : Nat := 64

/-- Records start at sector boundaries. -/
def sectorSize : Nat := 512

/-- A segment file: the record that starts at an offset, and the next free
offset. -/
structure Segment where
  records : Nat → Option (Key × List UInt8)
  tail : Nat

def Segment.create : Segment where
  records := fun _ => none
  tail := 0

/-- `WriteRecord`: append a record and return its offset. -/
def Segment.writeRecord (sw : Segment) (key : Key) (value : List UInt8) : Segment × Nat :=
  let rawLen := recordHeaderBytes + key.length + value.length
  let alignedLen := (rawLen + sectorSize - 1) / sectorSize * sectorSize
  ({ records := update sw.records sw.tail (some (key, value))
     tail := sw.tail + alignedLen }, sw.tail)

/-- `ReadValue`: the value of the record at an offset. -/
def Segment.readValue (sw : Segment) (diskOffset keyLen valueLen : Nat) : Option (List UInt8) :=
  if valueLen = 0 then some []
  else
    match sw.records diskOffset with
    | none => none
    | some r => if r.1.length = keyLen ∧ r.2.length = valueLen then some r.2 else none

/-! ## Reads -/

inductive ReadResult where
  | value (v : List UInt8)
  | notFound
  | expired
  | failed
deriving DecidableEq, Repr

/-- The value of an entry that is neither deleted nor expired: from memory, or
from the segment file. -/
def Segment.readEntry (sw : Segment) (key : Key) (e : IndexEntry) (dirty : Option (List UInt8)) :
    ReadResult :=
  match dirty with
  | some v => .value v
  | none =>
    if 0 < e.diskOffset then
      match sw.readValue e.diskOffset key.length e.valueSize with
      | none => .failed
      | some v => if computeCRC32C v = e.crc32c then .value v else .failed
    else .notFound

/-! ## The system -/

/-- A key that was collected, with its value and its deadline. -/
structure Pending where
  key : Key
  value : List UInt8
  ttlUs : Int

inductive CompactStage where
  | idle
  | collected (snap : List Pending)
  | written (p : Pending) (offset : Nat) (rest : List Pending)

/-- The index of an engine without key-value separation, the segment file of a
disk and the worker that compacts it. -/
structure CompactSys where
  c : CountedIndex
  segment : Segment
  stage : CompactStage
  last : Key → Option (IndexEntry × List UInt8)

def CompactSys.create : CompactSys where
  c := .empty
  segment := .create
  stage := .idle
  last := fun _ => none

/-- `get` past the cache. -/
def CompactSys.get (s : CompactSys) (key : Key) (nowUs : Int) : ReadResult :=
  match s.c.idx.entries key with
  | none => .notFound
  | some e =>
    if e.flags.tombstone then .notFound
    else if e.isExpired nowUs then .expired
    else s.segment.readEntry key e (s.c.idx.dirtyValues key)

def installedRead (w : Option (IndexEntry × List UInt8)) (nowUs : Int) : ReadResult :=
  match w with
  | none => .notFound
  | some (e, v) => if e.isExpired nowUs then .expired else .value v

def putLive (stampUs : Int) (value : List UInt8) (ttlExpiryUs : Int) (origin : Bool) : LiveEntry :=
  ⟨putEntry stampUs value ttlExpiryUs origin, rfl⟩

def CompactSys.put (s : CompactSys) (key : Key) (value : List UInt8) (stampUs ttlExpiryUs : Int)
    (origin : Bool) : CompactSys :=
  { s with
    c := s.c.put key (putLive stampUs value ttlExpiryUs origin) (some value)
    last := update s.last key (some (putEntry stampUs value ttlExpiryUs origin, value)) }

def CompactSys.delete (s : CompactSys) (key : Key) (stampUs : Int) : CompactSys :=
  { s with
    c := s.c.markTombstone key stampUs
    last := update s.last key none }

def CountedIndex.dirtyKeys (c : CountedIndex) (shard : Nat) (live : Bool) : List Key :=
  c.idx.keys.filter fun k => decide (shardOf k = shard) && c.idx.isDirty k && (c.idx.isLive k == live)

def CountedIndex.pending (c : CountedIndex) (key : Key) : Pending where
  key := key
  value := (c.idx.dirtyValues key).getD []
  ttlUs := match c.idx.entries key with
    | some e => e.ttlExpiryUs
    | none => 0

def CountedIndex.dropDead (c : CountedIndex) (shard : Nat) : CountedIndex :=
  (c.dirtyKeys shard false).foldl CountedIndex.clearDirty c

def CountedIndex.flushed (c : CountedIndex) (key : Key) (d offset : Nat) : CountedIndex :=
  match c.idx.entries key with
  | none => c
  | some e =>
    if e.flags.tombstone then c
    else
      { c with
        idx := (c.idx.update key fun e =>
          { e with diskOffset := offset, segmentID := d }).setDirty key none
        dirtyCount := c.dirtyCount - 1 }

/-- One step of the compaction of the segment of disk `d`, or of a writer.
`P` is asked of the update of an entry. -/
inductive CompactSys.Step (P : CompactSys → Pending → Nat → Prop) (d : Nat) :
    CompactSys → CompactSys → Prop
  | put (s : CompactSys) (key : Key) (value : List UInt8) (stampUs ttlExpiryUs : Int)
      (origin : Bool) : Step P d s (s.put key value stampUs ttlExpiryUs origin)
  | delete (s : CompactSys) (key : Key) (stampUs : Int) : Step P d s (s.delete key stampUs)
  | collect (s : CompactSys) (shard : Nat) (snap : List Pending) (hidle : s.stage = .idle)
      (hsnap : snap.Perm ((s.c.dirtyKeys shard true).map s.c.pending)) :
      Step P d s { s with c := s.c.dropDead shard, stage := .collected snap }
  | write (s : CompactSys) (p : Pending) (rest : List Pending)
      (hstage : s.stage = .collected (p :: rest)) :
      Step P d s
        { s with
          segment := (s.segment.writeRecord p.key p.value).1
          stage := .written p (s.segment.writeRecord p.key p.value).2 rest }
  | writeFail (s : CompactSys) (p : Pending) (rest : List Pending)
      (hstage : s.stage = .collected (p :: rest)) :
      Step P d s { s with stage := .collected rest }
  | update (s : CompactSys) (p : Pending) (offset : Nat) (rest : List Pending)
      (hstage : s.stage = .written p offset rest) (hP : P s p offset) :
      Step P d s { s with c := s.c.flushed p.key d offset, stage := .collected rest }
  | finish (s : CompactSys) (hstage : s.stage = .collected []) :
      Step P d s { s with stage := .idle }

def CompactSys.Run (P : CompactSys → Pending → Nat → Prop) (d : Nat) (s : CompactSys) : Prop :=
  Relation.ReflTransGen (CompactSys.Step P d) .create s

/-- The record does not start the file, and a key that is live still has the
collected value in memory. -/
def Unchanged (s : CompactSys) (p : Pending) (offset : Nat) : Prop :=
  s.c.idx.isLive p.key = true → 0 < offset ∧ s.c.idx.dirtyValues p.key = some p.value

/-! ## The counter -/

variable {rest : List Pending}

def CompactStage.keys : CompactStage → List Key
  | .idle => []
  | .collected snap => snap.map Pending.key
  | .written p _ rest => p.key :: rest.map Pending.key

/-- The counters are right, values in memory belong to live keys, and a live key
that the worker still has to update has its value in memory. -/
structure CompactSys.Counted (s : CompactSys) : Prop where
  counts : s.c.Counts
  dirty_live : ∀ k, s.c.idx.isDirty k = true → s.c.idx.isLive k = true
  nodup : s.stage.keys.Nodup
  pending : ∀ k ∈ s.stage.keys, s.c.idx.isLive k = true → s.c.idx.isDirty k = true

section Counter

variable {s : CompactSys} {c : CountedIndex} {key : Key}

theorem ShardedIndex.isDirty_markTombstone (idx : ShardedIndex) (key : Key) (nowUs : Int) :
    (idx.markTombstone key nowUs).isDirty =
      match idx.entries key with
      | none => idx.isDirty
      | some _ => Function.update idx.isDirty key false := by
  unfold markTombstone
  cases idx.entries key with
  | none => rfl
  | some => exact isDirty_setDirty _ key none

/-- Nothing is dropped when values in memory belong to live keys. -/
theorem CountedIndex.dropDead_eq (h : ∀ k, c.idx.isDirty k = true → c.idx.isLive k = true)
    (shard : Nat) : c.dropDead shard = c := by
  have hnil : c.dirtyKeys shard false = [] := by
    unfold dirtyKeys
    apply filter_eq_nil_iff.mpr
    intro k _ hk
    simp only [Bool.and_eq_true, beq_iff_eq] at hk
    have hlive := h k hk.1.2
    rw [hk.2] at hlive
    cases hlive
  unfold dropDead
  rw [hnil]
  rfl

theorem CompactSys.counted_create : CompactSys.create.Counted where
  counts := counts_empty
  dirty_live := by
    intro k h
    cases h
  nodup := nodup_nil
  pending := by
    intro k h
    cases h

theorem CompactSys.Counted.set (h : s.Counted) {s' : CompactSys} {b : Bool}
    (hcounts : s'.c.Counts) (hlive : s'.c.idx.isLive = update s.c.idx.isLive key b)
    (hdirty : s'.c.idx.isDirty = update s.c.idx.isDirty key b) (hstage : s'.stage = s.stage) :
    s'.Counted := by
  refine ⟨hcounts, fun k => ?_, hstage ▸ h.nodup, hstage ▸ fun k hmem => ?_⟩
  · rw [hlive, hdirty]
    by_cases hk : k = key
    · subst hk
      simp
    · simpa [hk] using h.dirty_live k
  · rw [hlive, hdirty]
    by_cases hk : k = key
    · subst hk
      simp
    · simpa [hk] using h.pending k hmem

theorem CompactSys.Counted.advance (h : s.Counted) {s' : CompactSys} (hc : s'.c = s.c)
    (hkeys : s'.stage.keys.Sublist s.stage.keys) : s'.Counted where
  counts := hc ▸ h.counts
  dirty_live := hc ▸ h.dirty_live
  nodup := h.nodup.sublist hkeys
  pending := fun k hmem => hc ▸ h.pending k (hkeys.subset hmem)

theorem CompactSys.Counted.put (h : s.Counted) (key : Key) (value : List UInt8)
    (stampUs ttlExpiryUs : Int) (origin : Bool) :
    (s.put key value stampUs ttlExpiryUs origin).Counted := by
  have hlive : (s.put key value stampUs ttlExpiryUs origin).c.idx.isLive =
      update s.c.idx.isLive key true := by
    show (s.c.put key _ _).idx.isLive = _
    rw [idx_put]
    exact s.c.idx.isLive_swap key _
  have hdirty : (s.put key value stampUs ttlExpiryUs origin).c.idx.isDirty =
      update s.c.idx.isDirty key true := by
    show (s.c.put key _ _).idx.isDirty = _
    rw [idx_put]
    exact (s.c.idx.swap key _).isDirty_setDirty key (some value)
  exact h.set (h.counts.put key _ _) hlive hdirty rfl

theorem CompactSys.Counted.delete (h : s.Counted) (key : Key) (stampUs : Int) :
    (s.delete key stampUs).Counted := by
  have hlive : (s.delete key stampUs).c.idx.isLive = update s.c.idx.isLive key false := by
    show (s.c.markTombstone key stampUs).idx.isLive = _
    rw [idx_markTombstone]
    exact s.c.idx.isLive_markTombstone key stampUs
  have hdirty : (s.delete key stampUs).c.idx.isDirty = update s.c.idx.isDirty key false := by
    show (s.c.markTombstone key stampUs).idx.isDirty = _
    rw [idx_markTombstone, isDirty_markTombstone]
    cases he : s.c.idx.entries key with
    | some => rfl
    | none =>
      rw [eq_comm, update_eq_self_iff]
      apply Eq.symm
      apply Bool.eq_false_iff.mpr
      intro hd
      have hl := h.dirty_live key hd
      unfold isLive at hl
      rw [he] at hl
      cases hl
  exact h.set (h.counts.markTombstone key stampUs) hlive hdirty rfl

namespace CountedIndex

/-- Pointing a live entry to a record keeps the live keys and takes the value out
of memory. -/
theorem flushed_spec (hlive : c.idx.isLive key = true) (d offset : Nat) :
    (c.flushed key d offset).idx = (c.idx.update key fun e =>
        { e with diskOffset := offset, segmentID := d }).setDirty key none ∧
      (c.flushed key d offset).keyCount = c.keyCount ∧
      (c.flushed key d offset).ordered = c.ordered ∧
      (c.flushed key d offset).dirtyCount = c.dirtyCount - 1 ∧
      (c.flushed key d offset).idx.isLive = c.idx.isLive ∧
      (c.flushed key d offset).idx.isDirty = update c.idx.isDirty key false := by
  unfold isLive at hlive
  split at hlive
  next e he =>
    rw [Bool.not_eq_true'] at hlive
    have hflushed : c.flushed key d offset =
        { c with
          idx := (c.idx.update key fun e =>
            { e with diskOffset := offset, segmentID := d }).setDirty key none
          dirtyCount := c.dirtyCount - 1 } := by
      unfold flushed
      simp only [he, hlive, Bool.false_eq_true, if_false]
    rw [hflushed]
    refine ⟨rfl, rfl, rfl, rfl, ?_, ?_⟩
    · apply isLive_update_of_same
      intro e' _
      rfl
    · exact isDirty_setDirty _ key none
  · cases hlive

theorem flushed_of_not_live (hlive : c.idx.isLive key = false) (d offset : Nat) :
    c.flushed key d offset = c := by
  unfold isLive at hlive
  unfold flushed
  split
  · rfl
  next e he =>
    simp only [he, Bool.not_eq_false'] at hlive
    simp only [hlive, if_true]

theorem Counts.flushed (h : c.Counts) (hlive : c.idx.isLive key = true)
    (hdirty : c.idx.isDirty key = true) (d offset : Nat) : (c.flushed key d offset).Counts := by
  obtain ⟨hidx, hkeyCount, hordered, hdirtyCount, hisLive, hisDirty⟩ :=
    flushed_spec hlive d offset
  apply h.change key true false
  · rw [hidx]
    exact List.Subset.refl _
  · intro _
    rw [hidx]
    show key ∈ c.idx.keys
    exact mem_keys_of_isLive hlive
  · rw [hisLive, ← hlive, update_eq_self]
  · exact hisDirty
  · rw [hkeyCount, hlive]
    simp
  · rw [hordered, h.ordered, ← hlive, update_eq_self]
  · rw [hdirtyCount, hdirty]
    simp

end CountedIndex

theorem CompactSys.Counted.update (h : s.Counted) {p : Pending} {offset : Nat}
    (hstage : s.stage = .written p offset rest) (d : Nat) :
    { s with c := s.c.flushed p.key d offset, stage := .collected rest }.Counted := by
  have hnodup := h.nodup
  have hpending := h.pending
  rw [hstage] at hnodup hpending
  rw [CompactStage.keys, nodup_cons] at hnodup
  by_cases hlive : s.c.idx.isLive p.key = true
  · have hdirty := hpending p.key (mem_cons_self ..) hlive
    obtain ⟨-, -, -, -, hisLive, hisDirty⟩ := flushed_spec hlive d offset
    constructor
    · exact h.counts.flushed hlive hdirty d offset
    · intro k
      show (s.c.flushed p.key d offset).idx.isDirty k = true → _
      rw [hisDirty, hisLive]
      by_cases hk : k = p.key
      · subst hk
        simp
      · simpa [hk] using h.dirty_live k
    · exact hnodup.2
    · intro k hmem
      have hk : k ≠ p.key := by
        intro heq
        exact hnodup.1 (heq ▸ hmem)
      show (s.c.flushed p.key d offset).idx.isLive k = true → _
      rw [hisLive, hisDirty, update_of_ne hk]
      exact hpending k (mem_cons_of_mem _ hmem)
  · rw [Bool.not_eq_true] at hlive
    rw [flushed_of_not_live hlive]
    refine h.advance rfl ?_
    rw [hstage]
    exact sublist_cons_self ..

theorem CompactSys.Counted.collect (h : s.Counted) {shard : Nat} {snap : List Pending}
    (hsnap : snap.Perm ((s.c.dirtyKeys shard true).map s.c.pending)) :
    { s with c := s.c.dropDead shard, stage := .collected snap }.Counted := by
  have hkeys : (snap.map Pending.key).Perm (s.c.dirtyKeys shard true) := by
    have hperm := hsnap.map Pending.key
    rw [map_map] at hperm
    have hid : Pending.key ∘ s.c.pending = id := rfl
    rw [hid, map_id] at hperm
    exact hperm
  rw [dropDead_eq h.dirty_live]
  constructor
  · exact h.counts
  · exact h.dirty_live
  · apply hkeys.nodup_iff.mpr
    exact s.c.idx.nodup_keys.filter _
  · intro k hmem _
    have hfilter := mem_filter.mp (hkeys.mem_iff.mp hmem)
    simp only [Bool.and_eq_true] at hfilter
    exact hfilter.2.1.2

/-- The counter of values in memory stays right through any interleaving. -/
theorem CompactSys.Counted.step {P : CompactSys → Pending → Nat → Prop} {d : Nat}
    {s' : CompactSys} (h : s.Counted) (hstep : CompactSys.Step P d s s') : s'.Counted := by
  cases hstep with
  | put key value stampUs ttlExpiryUs origin => exact h.put key value stampUs ttlExpiryUs origin
  | delete key stampUs => exact h.delete key stampUs
  | collect shard snap hidle hsnap => exact h.collect hsnap
  | write p rest hstage => exact h.advance rfl (hstage ▸ .refl _)
  | writeFail p rest hstage =>
    refine h.advance rfl ?_
    rw [hstage]
    exact sublist_cons_self ..
  | update p offset rest hstage => exact h.update hstage d
  | finish => exact h.advance rfl (nil_sublist _)

end Counter

/-! ## The values -/

/-- The key is shown by its entry as it was last written: the value is in memory,
or in the record that the entry points to. -/
structure CompactSys.Shows (s : CompactSys) (key : Key) (e₀ : IndexEntry) (v : List UInt8)
    (e : IndexEntry) : Prop where
  entry : s.c.idx.entries key = some e
  tombstone : e.flags.tombstone = false
  isExpired : ∀ nowUs, e.isExpired nowUs = e₀.isExpired nowUs
  valueSize : e.valueSize = v.length
  crc32c : e.crc32c = computeCRC32C v
  value : s.c.idx.dirtyValues key = some v ∨
    s.c.idx.dirtyValues key = none ∧ 0 < e.diskOffset ∧
      s.segment.records e.diskOffset = some (key, v)

structure CompactSys.Sound (s : CompactSys) : Prop where
  counted : s.Counted
  absent : ∀ k, s.last k = none → s.c.idx.isLive k = false
  present : ∀ k e₀ v, s.last k = some (e₀, v) → ∃ e, s.Shows k e₀ v e
  below : ∀ o r, s.segment.records o = some r → o < s.segment.tail
  written : ∀ p o rest, s.stage = .written p o rest →
    s.segment.records o = some (p.key, p.value)

section Values

variable {s s' : CompactSys} {key : Key}

namespace CompactSys

@[simp] theorem last_put (s : CompactSys) (key : Key) (value : List UInt8)
    (stampUs ttlExpiryUs : Int) (origin : Bool) :
    (s.put key value stampUs ttlExpiryUs origin).last =
      update s.last key (some (putEntry stampUs value ttlExpiryUs origin, value)) := rfl

@[simp] theorem last_delete (s : CompactSys) (key : Key) (stampUs : Int) :
    (s.delete key stampUs).last = update s.last key none := rfl

theorem sound_create : create.Sound where
  counted := counted_create
  absent := fun _ _ => rfl
  present := by
    intro k e₀ v h
    cases h
  below := by
    intro o r h
    cases h
  written := by
    intro p o rest h
    cases h

theorem Shows.congr {e₀ e : IndexEntry} {v : List UInt8} (h : s.Shows key e₀ v e)
    (hentry : s'.c.idx.entries key = s.c.idx.entries key)
    (hdirty : s'.c.idx.dirtyValues key = s.c.idx.dirtyValues key)
    (hrecords : ∀ o r, s.segment.records o = some r → s'.segment.records o = some r) :
    s'.Shows key e₀ v e :=
  { h with
    entry := hentry.trans h.entry
    value := by
      rw [hdirty]
      rcases h.value with hv | ⟨hv, hpos, hrec⟩
      · exact .inl hv
      · exact .inr ⟨hv, hpos, hrecords _ _ hrec⟩ }

theorem Sound.put (h : s.Sound) (key : Key) (value : List UInt8)
    (stampUs ttlExpiryUs : Int) (origin : Bool) :
    (s.put key value stampUs ttlExpiryUs origin).Sound := by
  have hidx : (s.put key value stampUs ttlExpiryUs origin).c.idx =
      s.c.idx.put key (putEntry stampUs value ttlExpiryUs origin) (some value) :=
    idx_put ..
  constructor
  · exact h.counted.put key value stampUs ttlExpiryUs origin
  · intro k hk
    have hne : k ≠ key := by
      intro heq
      subst heq
      rw [last_put, update_self] at hk
      cases hk
    rw [last_put, update_of_ne hne] at hk
    have hold := h.absent k hk
    rw [hidx]
    show (s.c.idx.swap key _).isLive k = false
    rw [isLive_swap, update_of_ne hne]
    exact hold
  · intro k e₀ v hk
    by_cases hkey : k = key
    · subst hkey
      rw [last_put, update_self] at hk
      cases hk
      refine ⟨putEntry stampUs value ttlExpiryUs origin, ?_, rfl, fun _ => rfl, rfl, rfl, .inl ?_⟩
      · rw [hidx, entries_put, update_self]
      · rw [hidx, dirtyValues_put_some, update_self]
    · rw [last_put, update_of_ne hkey] at hk
      obtain ⟨e, he⟩ := h.present k e₀ v hk
      refine ⟨e, he.congr ?_ ?_ fun _ _ hrec => hrec⟩
      · rw [hidx, entries_put, update_of_ne hkey]
      · rw [hidx, dirtyValues_put_some, update_of_ne hkey]
  · exact h.below
  · exact h.written

end CompactSys

theorem ShardedIndex.markTombstone_of_ne (idx : ShardedIndex) {key k : Key} (hk : k ≠ key)
    (nowUs : Int) :
    (idx.markTombstone key nowUs).entries k = idx.entries k ∧
      (idx.markTombstone key nowUs).dirtyValues k = idx.dirtyValues k := by
  unfold markTombstone
  split
  · exact ⟨rfl, rfl⟩
  · exact ⟨update_of_ne hk .., update_of_ne hk ..⟩

theorem CompactSys.Sound.delete (h : s.Sound) (key : Key) (stampUs : Int) :
    (s.delete key stampUs).Sound := by
  have hidx : (s.delete key stampUs).c.idx = s.c.idx.markTombstone key stampUs :=
    idx_markTombstone ..
  constructor
  · exact h.counted.delete key stampUs
  · intro k hk
    rw [hidx, isLive_markTombstone]
    by_cases hkey : k = key
    · subst hkey
      rw [update_self]
    · rw [CompactSys.last_delete, update_of_ne hkey] at hk
      rw [update_of_ne hkey]
      exact h.absent k hk
  · intro k e₀ v hk
    have hne : k ≠ key := by
      intro heq
      subst heq
      rw [CompactSys.last_delete, update_self] at hk
      cases hk
    rw [CompactSys.last_delete, update_of_ne hne] at hk
    obtain ⟨e, he⟩ := h.present k e₀ v hk
    have hframe := s.c.idx.markTombstone_of_ne hne stampUs
    refine ⟨e, he.congr ?_ ?_ fun _ _ hrec => hrec⟩
    · rw [hidx, hframe.1]
    · rw [hidx, hframe.2]
  · exact h.below
  · exact h.written

/-- Appending a record leaves the others where they are. -/
theorem Segment.writeRecord_spec (sw : Segment)
    (hbelow : ∀ o r, sw.records o = some r → o < sw.tail) (key : Key) (value : List UInt8) :
    (sw.writeRecord key value).1.records (sw.writeRecord key value).2 = some (key, value) ∧
      (∀ o r, sw.records o = some r → (sw.writeRecord key value).1.records o = some r) ∧
      ∀ o r, (sw.writeRecord key value).1.records o = some r →
        o < (sw.writeRecord key value).1.tail := by
  have hgrow : sw.tail < (sw.writeRecord key value).1.tail := by
    show sw.tail < sw.tail +
      (recordHeaderBytes + key.length + value.length + sectorSize - 1) / sectorSize * sectorSize
    simp only [recordHeaderBytes, sectorSize]
    omega
  refine ⟨update_self .., ?_, ?_⟩
  · intro o r ho
    have hne : o ≠ sw.tail := Nat.ne_of_lt (hbelow o r ho)
    show update sw.records sw.tail _ o = _
    rw [update_of_ne hne]
    exact ho
  · intro o r ho
    by_cases ho' : o = sw.tail
    · rw [ho']
      exact hgrow
    · have hold : sw.records o = some r := by
        rw [← ho]
        exact (update_of_ne ho' ..).symm
      exact (hbelow o r hold).trans hgrow

namespace CompactSys

theorem Sound.write (h : s.Sound) {p : Pending} (hstage : s.stage = .collected (p :: rest)) :
    { s with
      segment := (s.segment.writeRecord p.key p.value).1
      stage := .written p (s.segment.writeRecord p.key p.value).2 rest }.Sound := by
  obtain ⟨hnew, hold, hbelow⟩ := s.segment.writeRecord_spec h.below p.key p.value
  constructor
  · exact h.counted.step (P := fun _ _ _ => True) (d := 0) (.write s p rest hstage)
  · exact h.absent
  · intro k e₀ v hk
    obtain ⟨e, he⟩ := h.present k e₀ v hk
    exact ⟨e, he.congr rfl rfl hold⟩
  · exact hbelow
  · intro p' o rest' heq
    cases heq
    exact hnew

theorem Sound.setStage (h : s.Sound) {stage : CompactStage}
    (hcounted : { s with stage := stage }.Counted)
    (hstage : ∀ p o rest, stage ≠ .written p o rest) : { s with stage := stage }.Sound where
  counted := hcounted
  absent := h.absent
  present := by
    intro k e₀ v hk
    obtain ⟨e, he⟩ := h.present k e₀ v hk
    exact ⟨e, he.congr rfl rfl fun _ _ hrec => hrec⟩
  below := h.below
  written := fun p o rest heq => absurd heq (hstage p o rest)

theorem Sound.update (h : s.Sound) {p : Pending} {offset : Nat}
    (hstage : s.stage = .written p offset rest) (hP : Unchanged s p offset) (d : Nat) :
    { s with c := s.c.flushed p.key d offset, stage := .collected rest }.Sound := by
  have hcounted := h.counted.update hstage d
  by_cases hlive : s.c.idx.isLive p.key = true
  · obtain ⟨hidx, -, -, -, hisLive, -⟩ := flushed_spec hlive d offset
    obtain ⟨hpos, hvalue⟩ := hP hlive
    constructor
    · exact hcounted
    · intro k hk
      rw [hisLive]
      exact h.absent k hk
    · intro k e₀ v hk
      obtain ⟨e, he⟩ := h.present k e₀ v hk
      by_cases hkey : k = p.key
      · subst hkey
        -- the record holds the value that is shown
        have hv : v = p.value := by
          rcases he.value with hv | ⟨hv, -⟩
          · rw [hvalue] at hv
            exact (Option.some.inj hv).symm
          · rw [hvalue] at hv
            cases hv
        subst hv
        refine ⟨{ e with diskOffset := offset, segmentID := d }, ?_, he.tombstone, he.isExpired,
          he.valueSize, he.crc32c, .inr ⟨?_, hpos, h.written p offset rest hstage⟩⟩
        · rw [hidx]
          show Function.update s.c.idx.entries p.key ((s.c.idx.entries p.key).map _) p.key = _
          rw [Function.update_self, he.entry]
          rfl
        · rw [hidx]
          exact Function.update_self ..
      · refine ⟨e, he.congr ?_ ?_ fun _ _ hrec => hrec⟩
        · rw [hidx]
          exact Function.update_of_ne hkey ..
        · rw [hidx]
          exact Function.update_of_ne hkey ..
    · exact h.below
    · intro p' o rest' heq
      cases heq
  · rw [Bool.not_eq_true] at hlive
    rw [flushed_of_not_live hlive] at hcounted ⊢
    apply h.setStage hcounted
    intro p' o rest' heq
    cases heq

theorem Sound.step {d : Nat} (h : s.Sound) (hstep : Step Unchanged d s s') :
    s'.Sound := by
  have hcounted := h.counted.step hstep
  cases hstep with
  | put key value stampUs ttlExpiryUs origin => exact h.put key value stampUs ttlExpiryUs origin
  | delete key stampUs => exact h.delete key stampUs
  | collect =>
    rw [dropDead_eq h.counted.dirty_live] at hcounted ⊢
    apply h.setStage hcounted
    intro p o rest heq
    cases heq
  | write p rest hstage => exact h.write hstage
  | writeFail p rest | finish =>
    apply h.setStage hcounted
    intro p o rest heq
    cases heq
  | update p offset rest hstage hP => exact h.update hstage hP d

theorem Shows.get_shown {e₀ e : IndexEntry} {v : List UInt8} (h : s.Shows key e₀ v e)
    (nowUs : Int) : s.get key nowUs = installedRead (some (e₀, v)) nowUs := by
  have hread : s.segment.readEntry key e (s.c.idx.dirtyValues key) = .value v := by
    unfold Segment.readEntry
    rcases h.value with hv | ⟨hv, hpos, hrec⟩
    · rw [hv]
    · rw [hv]
      have hvalue : s.segment.readValue e.diskOffset key.length e.valueSize = some v := by
        unfold Segment.readValue
        rw [h.valueSize, hrec]
        by_cases hnil : v.length = 0
        · rw [if_pos hnil, length_eq_zero_iff.mp hnil]
        · simp [hnil]
      simp only [hpos, if_true, hvalue, h.crc32c]
  unfold get installedRead
  simp only [h.entry, h.tombstone, h.isExpired, hread, Bool.false_eq_true, if_false]

theorem Sound.get_last (h : s.Sound) (key : Key) (nowUs : Int) :
    s.get key nowUs = installedRead (s.last key) nowUs := by
  cases hl : s.last key with
  | none =>
    have hlive := h.absent key hl
    unfold isLive at hlive
    unfold get installedRead
    split
    · rfl
    next e he =>
      simp only [he, Bool.not_eq_false'] at hlive
      simp only [hlive, if_true]
  | some w =>
    obtain ⟨e, he⟩ := h.present key w.1 w.2 hl
    exact he.get_shown nowUs

/-- Through any interleaving of puts and deletes with the stages of the
compaction, every key reads as it was last written and the counter of values in
memory is right, as long as no key is overwritten between its collection and
the update of its entry and no record starts the file. -/
theorem Run.get_eq {d : Nat} (h : Run Unchanged d s) :
    (∀ key nowUs, s.get key nowUs = installedRead (s.last key) nowUs) ∧
      s.c.dirtyCount = s.c.idx.countDirty := by
  have hsound : s.Sound := by
    induction h with
    | refl => exact sound_create
    | tail _ hstep ih => exact ih.step hstep
  constructor
  · exact hsound.get_last
  · exact hsound.counted.counts.dirtyCount

end CompactSys

/-- A key is compacted after a record that nothing points to. -/
theorem get_eq_one_compaction :
    ∃ s, CompactSys.Run Unchanged 0 s ∧
      s.get [107] 30 = installedRead (s.last [107]) 30 ∧
      installedRead (s.last [107]) 30 = .value [98] ∧ s.c.dirtyCount = 0 := by
  have h₀ : CompactSys.Run Unchanged 0 .create := .refl
  have h₁ := h₀.tail (.put _ [107] [97] 10 0 false)
  have h₂ := h₁.tail (.collect _ (shardOf [107]) [⟨[107], [97], 0⟩] rfl (.refl _))
  have h₃ := h₂.tail (.write _ _ _ rfl)
  have h₄ := h₃.tail (.delete _ [107] 20)
  have h₅ := h₄.tail (.update _ _ _ _ rfl fun h => (by cases h))
  have h₆ := h₅.tail (.finish _ rfl)
  have h₇ := h₆.tail (.put _ [107] [98] 21 0 false)
  have h₈ := h₇.tail (.collect _ (shardOf [107]) [⟨[107], [98], 0⟩] rfl (.refl _))
  have h₉ := h₈.tail (.write _ _ _ rfl)
  have h₁₀ := h₉.tail (.update _ _ _ _ rfl fun _ => ⟨by decide, rfl⟩)
  have hget := CompactSys.Run.get_eq h₁₀
  exact ⟨_, h₁₀, hget.1 [107] 30, rfl, hget.2⟩

/-- The first record of a fresh file is at offset 0, which reads take for no
record; and a put between the collection of its key and the update of the entry
is lost: the entry of the new value points to the record of the old one. -/
theorem get_ne_first_record_overwritten :
    (∃ s, CompactSys.Run (fun _ _ _ => True) 0 s ∧ s.stage = .idle ∧
      installedRead (s.last [107]) 30 = .value [97] ∧ s.get [107] 30 = .notFound) ∧
    ∃ s, CompactSys.Run (fun _ _ _ => True) 0 s ∧ s.stage = .idle ∧ s.segment.tail = 1024 ∧
      installedRead (s.last [107]) 30 = .value [99] ∧ s.get [107] 30 = .failed := by
  have h₀ : CompactSys.Run (fun _ _ _ => True) 0 .create := .refl
  have h₁ := h₀.tail (.put _ [107] [97] 10 0 false)
  have h₂ := h₁.tail (.collect _ (shardOf [107]) [⟨[107], [97], 0⟩] rfl (.refl _))
  have h₃ := h₂.tail (.write _ _ _ rfl)
  have h₄ := h₃.tail (.update _ _ _ _ rfl trivial)
  have h₅ := h₄.tail (.finish _ rfl)
  have h₆ := h₅.tail (.put _ [107] [98] 20 0 false)
  have h₇ := h₆.tail (.collect _ (shardOf [107]) [⟨[107], [98], 0⟩] rfl (.refl _))
  have h₈ := h₇.tail (.write _ _ _ rfl)
  have h₉ := h₈.tail (.put _ [107] [99] 21 0 false)
  have h₁₀ := h₉.tail (.update _ _ _ _ rfl trivial)
  have h₁₁ := h₁₀.tail (.finish _ rfl)
  exact ⟨⟨_, h₅, rfl, rfl, rfl⟩, ⟨_, h₁₁, rfl, rfl, rfl, by decide⟩⟩

end Values

end VeltrixDB.Storage
