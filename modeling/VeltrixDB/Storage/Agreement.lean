import VeltrixDB.Storage.Engine

/-!
# Agreement of the index with the log

What the index shows of a key is what the key's last installed record says.
The invariant is stated over the parts of a write, so that it holds for
writes that run one after the other and for writes that interleave.

Main results:

- Theorem `Engine.Holds.install`: an installed write makes visible what its
  record says.
- Theorems `Engine.prepared_put` to `Engine.prepared_batch`: every way to
  prepare a write yields a record and a change of the index that agree.
-/

namespace VeltrixDB.Storage

open Function List ShardedIndex Option Engine WALEntry IndexEntry

open Register

/-! ## What the index shows of a key -/

def recordOutcome (c : ReplayConfig) (vl : VLog) (r : WalReplayEntry) :
    Option (List UInt8 × Int) :=
  if r.isTombstone then none
  else (recordValue c vl r).map fun v => (v, (replayEntry r).expiryUs)

/-- What is left of a value at `nowUs`. -/
def unexpired (nowUs : Int) (p : List UInt8 × Int) : Option (List UInt8 × Int) :=
  if 0 < p.2 ∧ p.2 ≤ nowUs then none else some p

theorem IndexEntry.isExpired_iff (e : IndexEntry) (nowUs : Int) :
    e.isExpired nowUs = true ↔ 0 < e.expiryUs ∧ e.expiryUs ≤ nowUs := by
  simp only [isExpired, expiryUs]
  by_cases h : e.flags.hasTTL = true ∧ 0 < e.ttlExpiryUs
  · simp [h.1, h.2]
  · simp only [h, Bool.and_eq_true, decide_eq_true_eq]
    simp

theorem WalReplayEntry.expired_iff (r : WalReplayEntry) (nowUs : Int) :
    r.expired nowUs = true ↔ 0 < (replayEntry r).expiryUs ∧ (replayEntry r).expiryUs ≤ nowUs := by
  simp only [expiryUs, replayEntry, WalReplayEntry.expired]
  by_cases h : 0 < r.ttlExpiryUs
  · simp [h]
  · simp [h]

theorem recordUpdate_value (c : ReplayConfig) (vl : VLog) (r : WalReplayEntry) :
    (recordUpdate c vl r).value = (recordOutcome c vl r).bind (unexpired c.nowUs) := by
  cases ht : r.isTombstone with
  | true => simp [recordUpdate, recordOutcome, ht, Update.value]
  | false =>
    cases hx : r.expired c.nowUs with
    | true =>
      have hexp := (r.expired_iff c.nowUs).mp hx
      simp only [recordUpdate, recordOutcome, ht, hx]
      cases recordValue c vl r with
      | none => rfl
      | some => simp [unexpired, hexp, Update.value]
    | false =>
      have hexp := mt (r.expired_iff c.nowUs).mpr (by simp [hx])
      rw [(recordUpdate_value_of_put ht hx).2.2, recordOutcome, ht]
      cases recordValue c vl r with
      | none => rfl
      | some => simp only [map_some, Bool.false_eq_true, if_false, bind_some, unexpired, hexp]

variable (codec : ValueCodec)

/-- A read returns what is visible and not expired. -/
theorem ShardedIndex.view_eq (vlogs : Nat → VLog) (idx : ShardedIndex) (key : Key) (nowUs : Int) :
    idx.view codec vlogs key nowUs =
      (live (idx.visible codec vlogs key)).bind (unexpired nowUs) := by
  rw [view, visible]
  cases idx.entries key with
  | none => rfl
  | some e =>
    simp only [live, map_some, bind_some]
    cases ht : e.flags.tombstone with
    | true => simp
    | false =>
      cases hv : entryValue codec vlogs e (idx.dirtyValues key) with
      | none => simp
      | some => simp [unexpired, e.isExpired_iff]

/-! ## Agreement of the index with logged records -/

variable {value : List UInt8} {e : IndexEntry}

/-- The later engine holds every value the earlier one holds. -/
structure Engine.Grows (se se' : Engine) : Prop where
  kvSep : se'.kvSep = se.kvSep
  numDisks : se'.numDisks = se.numDisks
  vlogs : ∀ d, (se.vlogs d).Extends (se'.vlogs d)

structure Engine.Stored (se : Engine) (r : WALEntry) : Prop where
  plain : r.replayed.Plain
  blob : r.isTombstone = false → 0 < r.vlogOffset →
    ∃ b, (se.vlogs (se.disk r.key)).blobs r.vlogOffset.toNat = some b

/-- What a record leaves of its key, read through the value log of its disk. -/
def Engine.outcome (se : Engine) (r : WALEntry) : Option (List UInt8 × Int) :=
  recordOutcome (se.replayConfig codec (se.disk r.key) 0) (se.vlogs (se.disk r.key)) r.replayed

structure Engine.PointsTo (codec : ValueCodec) (se : Engine) (k : Key) (e : IndexEntry)
    (value : List UInt8) : Prop where
  segmentID : e.segmentID = se.disk k
  offset_pos : 0 < e.diskOffset
  blob : (se.vlogs (se.disk k)).blobs e.diskOffset = some (codec.transform value).1
  valueSize : e.valueSize = (codec.transform value).1.length
  uncompressedSize : e.uncompressedSize = value.length ∨
    value = [] ∧ e.uncompressedSize = e.valueSize
  compressed : e.flags.compressed = (codec.transform value).2.1
  encrypted : e.flags.encrypted = (codec.transform value).2.2

/-- The entry reads as the put record says. -/
structure Engine.Presents (codec : ValueCodec) (se : Engine) (r : WALEntry) (e : IndexEntry)
    (v : Option (List UInt8)) : Prop where
  isPut : r.isTombstone = false
  notTombstone : e.flags.tombstone = false
  stamp : e.writeTimestampUs = r.replayed.stampUs
  value : (entryValue codec se.vlogs e v).map (fun v => (v, e.expiryUs)) = se.outcome codec r
  inMemory : v = none ↔ se.kvSep = true
  located : se.kvSep = true → ∃ value, se.PointsTo codec r.key e value
  blob : 0 < e.diskOffset → ∃ b, (se.vlogs e.segmentID).blobs e.diskOffset = some b

def Install.Agrees (se : Engine) (r : WALEntry) : Install → Prop
  | .put key e v => key = r.key ∧ se.Presents codec r e v
  | .atomic key e => key = r.key ∧ se.Presents codec r e none
  | .delete key t _ => key = r.key ∧ r.isTombstone = true ∧ t = r.replayed.stampUs

/-- A write that can be logged and installed. -/
structure Engine.Ready (codec : ValueCodec) (se : Engine) (w : Write) : Prop where
  stored : se.Stored w.record
  agrees : w.install.Agrees codec se w.record

/-- What the index shows of a key whose last installed record is
`last`. -/
def Engine.Shows (se : Engine) (k : Key) (last : Option WALEntry) : Prop :=
  (∃ r, last = some r ∧
    se.index.visible codec se.vlogs k = some (r.replayed.stampUs, se.outcome codec r)) ∨
  (se.index.visible codec se.vlogs k = none ∧ last.bind (se.outcome codec) = none)

/-- The index agrees with the last installed record of each key, and every
logged record can be read. -/
structure Engine.Holds (codec : ValueCodec) (se : Engine) (last : Key → Option WALEntry) :
    Prop where
  routed : ∀ d, ∀ r ∈ se.wals d, se.disk r.key = d
  stored : ∀ d, ∀ r ∈ se.wals d, se.Stored r
  tail_pos : ∀ d, 0 < (se.vlogs d).tail
  noDirty : se.kvSep = true → se.index.NoDirty
  entry_stored : ∀ k e, se.index.entries k = some e → 0 < e.diskOffset →
    ∃ b, (se.vlogs e.segmentID).blobs e.diskOffset = some b
  located : se.kvSep = true → ∀ k e, se.index.entries k = some e → e.flags.tombstone = false →
    ∃ value, se.PointsTo codec k e value
  inMemory : se.kvSep = false → ∀ k e, se.index.entries k = some e → e.flags.tombstone = false →
    ∃ v, se.index.dirtyValues k = some v
  last_stored : ∀ k r, last k = some r → r.key = k ∧ se.Stored r
  shows : ∀ k, se.Shows codec k (last k)

structure Engine.EntryOk (codec : ValueCodec) (se : Engine) (idx : ShardedIndex) (k : Key)
    (e : IndexEntry) : Prop where
  stored : 0 < e.diskOffset → ∃ b, (se.vlogs e.segmentID).blobs e.diskOffset = some b
  located : se.kvSep = true → e.flags.tombstone = false → ∃ value, se.PointsTo codec k e value
  inMemory : se.kvSep = false → e.flags.tombstone = false → ∃ v, idx.dirtyValues k = some v

section Growth

variable {codec : ValueCodec} {se se' : Engine} {r : WALEntry}

theorem VLog.Extends.readValue {vl vl' : VLog} (h : vl.Extends vl') {o : Nat} {b : List UInt8}
    (hb : vl.blobs o = some b) (n : Nat) : vl'.readValue o n = vl.readValue o n := by
  rw [VLog.readValue, VLog.readValue, h.blobs hb, hb]

/-- A value that is stored reads the same later. -/
theorem entryValue_extends {vlogs vlogs' : Nat → VLog} (h : ∀ d, (vlogs d).Extends (vlogs' d))
    {v : Option (List UInt8)}
    (hb : 0 < e.diskOffset → ∃ b, (vlogs e.segmentID).blobs e.diskOffset = some b) :
    entryValue codec vlogs' e v = entryValue codec vlogs e v := by
  cases v with
  | some => rfl
  | none =>
    by_cases ho : 0 < e.diskOffset
    · obtain ⟨b, hb⟩ := hb ho
      simp only [entryValue, (h _).readValue hb]
    · simp only [entryValue, ho, if_false]

theorem recordValue_extends {c c' : ReplayConfig} {vl vl' : VLog} {r : WalReplayEntry}
    (hcodec : c'.codec = c.codec) (hkv : c'.kvSep = c.kvSep) (h : vl.Extends vl')
    (hb : c.kvSep = true → 0 < r.vlogOffset → ∃ b, vl.blobs r.vlogOffset.toNat = some b) :
    recordValue c' vl' r = recordValue c vl r := by
  rw [recordValue, recordValue, hcodec]
  by_cases ho : c.kvSep = true ∧ 0 < r.vlogOffset
  · rw [if_pos ho, if_pos (by rw [hkv]; exact ho)]
    exact entryValue_extends (fun _ => h) fun _ => hb ho.1 ho.2
  · rw [if_neg ho, if_neg (by rw [hkv]; exact ho)]

theorem Engine.Grows.refl (se : Engine) : se.Grows se :=
  ⟨rfl, rfl, fun _ => VLog.Extends.refl _⟩

theorem Engine.Grows.trans {a b c : Engine} (h : a.Grows b) (h' : b.Grows c) : a.Grows c :=
  ⟨h'.kvSep.trans h.kvSep, h'.numDisks.trans h.numDisks, fun d => (h.vlogs d).trans (h'.vlogs d)⟩

theorem Engine.Grows.disk (h : se.Grows se') (k : Key) : se'.disk k = se.disk k := by
  rw [Engine.disk, Engine.disk, h.numDisks]

theorem Engine.grows_setVLog {d : Nat} {vl : VLog} (h : (se.vlogs d).Extends vl) :
    se.Grows (se.setVLog d vl) := by
  refine ⟨rfl, rfl, fun d' => ?_⟩
  by_cases hd : d' = d
  · subst hd
    simpa [setVLog] using h
  · simpa [setVLog, hd] using VLog.Extends.refl _

theorem Engine.Stored.grow (hr : se.Stored r) (h : se.Grows se') : se'.Stored r where
  plain := hr.plain
  blob := by
    intro ht ho
    obtain ⟨b, hb⟩ := hr.blob ht ho
    rw [h.disk]
    exact ⟨b, (h.vlogs _).blobs hb⟩

theorem Engine.Stored.outcome_grow (hr : se.Stored r) (h : se.Grows se') :
    se'.outcome codec r = se.outcome codec r := by
  rw [outcome, outcome, h.disk, recordOutcome, recordOutcome]
  cases ht : r.isTombstone with
  | true => simp [replayed, ht]
  | false =>
    have hvalue : recordValue (se'.replayConfig codec (se.disk r.key) 0)
        (se'.vlogs (se.disk r.key)) r.replayed =
        recordValue (se.replayConfig codec (se.disk r.key) 0) (se.vlogs (se.disk r.key))
          r.replayed :=
      recordValue_extends rfl h.kvSep (h.vlogs _) fun _ ho => hr.blob ht ho
    rw [hvalue]

theorem Engine.PointsTo.grow {k : Key} (hl : se.PointsTo codec k e value) (h : se.Grows se') :
    se'.PointsTo codec k e value :=
  { hl with
    segmentID := by rw [h.disk]; exact hl.segmentID
    blob := by rw [h.disk]; exact (h.vlogs _).blobs hl.blob }

theorem Engine.Presents.grow {v : Option (List UInt8)} (hp : se.Presents codec r e v)
    (hr : se.Stored r) (h : se.Grows se') : se'.Presents codec r e v :=
  { hp with
    value := by rw [entryValue_extends h.vlogs hp.blob, hr.outcome_grow h]; exact hp.value
    inMemory := by rw [h.kvSep]; exact hp.inMemory
    located := by
      intro hkv
      rw [h.kvSep] at hkv
      obtain ⟨value, hl⟩ := hp.located hkv
      exact ⟨value, hl.grow h⟩
    blob := by
      intro ho
      obtain ⟨b, hb⟩ := hp.blob ho
      exact ⟨b, (h.vlogs _).blobs hb⟩ }

theorem Engine.Ready.grow {w : Write} (hw : se.Ready codec w) (h : se.Grows se') :
    se'.Ready codec w where
  stored := hw.stored.grow h
  agrees := by
    have ha := hw.agrees
    cases hi : w.install with
    | put | atomic => rw [hi] at ha; exact ⟨ha.1, ha.2.grow hw.stored h⟩
    | delete => rw [hi] at ha; exact ha

end Growth

/-! ## Steps keep the agreement -/

variable {r : WALEntry}

section Steps

variable {codec : ValueCodec} {se se' : Engine} {last : Key → Option WALEntry} {i : Install}

namespace Engine

theorem holds_create (codec : ValueCodec) (kvSep : Bool) (numDisks : Nat) :
    (create kvSep numDisks).Holds codec fun _ => none where
  routed := by intro d r hr; cases hr
  stored := by intro d r hr; cases hr
  tail_pos := fun _ => Nat.succ_pos _
  noDirty := fun _ _ => rfl
  entry_stored := by intro k e h; cases h
  located := by intro _ k e h; cases h
  inMemory := by intro _ k e h; cases h
  last_stored := by intro k r h; cases h
  shows := fun _ => .inr ⟨rfl, rfl⟩

section

variable (h : se.Holds codec last) (hg : se.Grows se')
include h hg

theorem Holds.logged_grow (hwals : se'.wals = se.wals) {d : Nat} (hr : r ∈ se'.wals d) :
    se'.disk r.key = d ∧ se'.Stored r := by
  rw [hwals] at hr
  rw [hg.disk]
  exact ⟨h.routed d r hr, (h.stored d r hr).grow hg⟩

theorem Holds.last_stored_grow (k : Key) (r : WALEntry) (hr : last k = some r) :
    r.key = k ∧ se'.Stored r :=
  ⟨(h.last_stored k r hr).1, (h.last_stored k r hr).2.grow hg⟩

theorem Holds.located_grow (hkv : se.kvSep = true) {k : Key} (he : se.index.entries k = some e)
    (ht : e.flags.tombstone = false) : ∃ value, se'.PointsTo codec k e value := by
  obtain ⟨value, hl⟩ := h.located hkv k e he ht
  exact ⟨value, hl.grow hg⟩

theorem Holds.shows_of_visible {k : Key}
    (hvis : se'.index.visible codec se'.vlogs k = se.index.visible codec se.vlogs k) :
    se'.Shows codec k (last k) := by
  rcases h.shows k with ⟨r, hr, hs⟩ | ⟨hs, hr⟩
  · exact .inl ⟨r, hr, by rw [hvis, hs, (h.last_stored k r hr).2.outcome_grow hg]⟩
  · refine .inr ⟨hvis.trans hs, ?_⟩
    cases hl : last k with
    | none => rfl
    | some r =>
      rw [hl] at hr
      exact ((h.last_stored k r hl).2.outcome_grow hg).trans hr

theorem Holds.grow (hidx : se'.index = se.index) (hwals : se'.wals = se.wals)
    (htail : ∀ d, 0 < (se'.vlogs d).tail) : se'.Holds codec last where
  routed := fun _ _ hr => (h.logged_grow hg hwals hr).1
  stored := fun _ _ hr => (h.logged_grow hg hwals hr).2
  tail_pos := htail
  noDirty := by rw [hidx, hg.kvSep]; exact h.noDirty
  entry_stored := by
    intro k e he ho
    rw [hidx] at he
    obtain ⟨b, hb⟩ := h.entry_stored k e he ho
    exact ⟨b, (hg.vlogs _).blobs hb⟩
  located := by
    rw [hidx, hg.kvSep]
    exact fun hkv _ _ => h.located_grow hg hkv
  inMemory := by rw [hidx, hg.kvSep]; exact h.inMemory
  last_stored := h.last_stored_grow hg
  shows := by
    intro k
    apply h.shows_of_visible hg
    rw [hidx, visible, visible]
    cases he : se.index.entries k with
    | none => rfl
    | some e =>
      simp only [map_some, entryValue_extends hg.vlogs (h.entry_stored k e he)]

theorem Holds.replace (hwals : se'.wals = se.wals) (hvlogs : se'.vlogs = se.vlogs)
    (hr : se.Stored r) (hdirty : se.kvSep = true → se'.index.NoDirty)
    (hother : ∀ k, k ≠ r.key → se'.index.entries k = se.index.entries k ∧
      se'.index.dirtyValues k = se.index.dirtyValues k)
    (hself : ∀ e, se'.index.entries r.key = some e → se.EntryOk codec se'.index r.key e)
    (hshows : se'.Shows codec r.key (some r)) :
    se'.Holds codec (update last r.key (some r)) := by
  have hentry : ∀ k e, se'.index.entries k = some e → se.EntryOk codec se'.index k e := by
    intro k e he
    by_cases hk : k = r.key
    · subst hk
      exact hself e he
    · rw [(hother k hk).1] at he
      refine ⟨h.entry_stored k e he, fun hkv => h.located hkv k e he, fun hkv ht => ?_⟩
      rw [(hother k hk).2]
      exact h.inMemory hkv k e he ht
  constructor
  · exact fun _ _ hx => (h.logged_grow hg hwals hx).1
  · exact fun _ _ hx => (h.logged_grow hg hwals hx).2
  · rw [hvlogs]
    exact h.tail_pos
  · rw [hg.kvSep]
    exact hdirty
  · rw [hvlogs]
    exact fun k e he => (hentry k e he).stored
  · intro hkv k e he ht
    rw [hg.kvSep] at hkv
    obtain ⟨value, hl⟩ := (hentry k e he).located hkv ht
    exact ⟨value, hl.grow hg⟩
  · rw [hg.kvSep]
    exact fun hkv k e he => (hentry k e he).inMemory hkv
  · intro k x hx
    by_cases hk : k = r.key
    · subst hk
      rw [update_self] at hx
      cases hx
      exact ⟨rfl, hr.grow hg⟩
    · rw [update_of_ne hk] at hx
      exact h.last_stored_grow hg k x hx
  · intro k
    by_cases hk : k = r.key
    · subst hk
      rw [update_self]
      exact hshows
    · rw [update_of_ne hk]
      apply h.shows_of_visible hg
      rw [hvlogs]
      exact visible_congr (hother k hk).1 (hother k hk).2

end

theorem grows_appendWAL (se : Engine) (r : WALEntry) : se.Grows (se.appendWAL r) :=
  ⟨rfl, rfl, fun _ => VLog.Extends.refl _⟩

theorem mem_wals_appendWAL {r' : WALEntry} {d : Nat} :
    r' ∈ (se.appendWAL r).wals d ↔ r' ∈ se.wals d ∨ d = se.disk r.key ∧ r' = r := by
  by_cases hd : d = se.disk r.key
  · subst hd
    simp [appendWAL]
  · simp [appendWAL, hd]

theorem Holds.appendWAL (h : se.Holds codec last) (hr : se.Stored r) :
    (se.appendWAL r).Holds codec last :=
  { h with
    routed := by
      intro d r' hr'
      rcases mem_wals_appendWAL.mp hr' with hr' | ⟨rfl, rfl⟩
      · exact h.routed d r' hr'
      · rfl
    stored := by
      intro d r' hr'
      rcases mem_wals_appendWAL.mp hr' with hr' | ⟨rfl, rfl⟩
      · exact (h.stored d r' hr').grow (se.grows_appendWAL r)
      · exact hr.grow (se.grows_appendWAL r')
    located := fun hkv _ _ => h.located_grow (se.grows_appendWAL r) hkv
    last_stored := h.last_stored_grow (se.grows_appendWAL r) }

theorem install_vlogs (se : Engine) (i : Install) : (se.install i).vlogs = se.vlogs := by
  cases i <;> rfl

theorem install_wals (se : Engine) (i : Install) : (se.install i).wals = se.wals := by
  cases i <;> rfl

theorem grows_install (se : Engine) (i : Install) : se.Grows (se.install i) := by
  cases i <;> exact ⟨rfl, rfl, fun _ => VLog.Extends.refl _⟩

end Engine

theorem ShardedIndex.visible_markTombstone {vlogs : Nat → VLog} {idx : ShardedIndex} {k : Key}
    (t : Int) : (idx.markTombstone k t).visible codec vlogs k =
      (idx.entries k).map fun _ => (t, none) := by
  rw [markTombstone]
  cases hk : idx.entries k with
  | none => simp [visible, hk]
  | some => simp only [visible_tombstoned, hk]

namespace Engine

theorem visible_install_delete (se : Engine) (vlogs : Nat → VLog) (key k : Key) (t : Int)
    (origin : Bool) :
    (se.install (.delete key t origin)).index.visible codec vlogs k =
      (se.index.markTombstone key t).visible codec vlogs k := by
  cases origin with
  | false => rfl
  | true => exact visible_setReplicaApplied ..

theorem Holds.shows_install (h : se.Holds codec last) {w : Write} (hw : se.Ready codec w) :
    (se.install w.install).Shows codec w.record.key (some w.record) := by
  have hout : (se.install w.install).outcome codec w.record = se.outcome codec w.record :=
    hw.stored.outcome_grow (se.grows_install _)
  have ha := hw.agrees
  suffices hvis : (se.install w.install).index.visible codec se.vlogs w.record.key =
        some (w.record.replayed.stampUs, se.outcome codec w.record) ∨
      (se.install w.install).index.visible codec se.vlogs w.record.key = none ∧
        se.outcome codec w.record = none by
    rw [Shows, install_vlogs]
    rcases hvis with hvis | ⟨hvis, hnone⟩
    · exact .inl ⟨w.record, rfl, by rw [hvis, hout]⟩
    · exact .inr ⟨hvis, hout.trans hnone⟩
  cases hi : w.install with
  | put key e v =>
    rw [hi] at ha
    obtain ⟨rfl, hp⟩ := ha
    have hd : v = none → se.index.dirtyValues w.record.key = none := fun hv =>
      h.noDirty (hp.inMemory.mp hv) _
    have hvis : (se.install (.put w.record.key e v)).index.visible codec se.vlogs
        w.record.key = _ := ShardedIndex.visible_put_self e v hd
    rw [hp.notTombstone, hp.stamp] at hvis
    left
    rw [hvis, ← hp.value]
    rfl
  | atomic =>
    rw [hi] at ha
    obtain ⟨rfl, hp⟩ := ha
    left
    rw [← hp.value, ← hp.stamp]
    simp only [install, ShardedIndex.visible, ShardedIndex.setDirty, ShardedIndex.swap,
      update_self, Option.map_some, hp.notTombstone]
    rfl
  | delete =>
    rw [hi] at ha
    obtain ⟨rfl, ht, rfl⟩ := ha
    have hnone : se.outcome codec w.record = none := by
      simp [outcome, recordOutcome, WALEntry.replayed, ht]
    rw [visible_install_delete, ShardedIndex.visible_markTombstone]
    cases se.index.entries w.record.key with
    | none => exact .inr ⟨rfl, hnone⟩
    | some => exact .inl (by rw [hnone]; rfl)

/-- An installed write leaves other keys alone. -/
theorem install_of_ne (ha : i.Agrees codec se r) {k : Key} (hk : k ≠ r.key) :
    (se.install i).index.entries k = se.index.entries k ∧
      (se.install i).index.dirtyValues k = se.index.dirtyValues k := by
  cases i with
  | put key e v =>
    obtain ⟨rfl, -⟩ := ha
    refine ⟨?_, ?_⟩
    · simp only [install, ShardedIndex.entries_put, update_of_ne hk]
    · cases v with
      | none => rfl
      | some => exact update_of_ne hk ..
  | atomic =>
    obtain ⟨rfl, -⟩ := ha
    exact ⟨update_of_ne hk .., update_of_ne hk ..⟩
  | delete key t origin =>
    obtain ⟨rfl, -⟩ := ha
    have hmark : (se.index.markTombstone r.key t).entries k = se.index.entries k ∧
        (se.index.markTombstone r.key t).dirtyValues k = se.index.dirtyValues k := by
      rw [ShardedIndex.markTombstone]
      cases se.index.entries r.key with
      | none => exact ⟨rfl, rfl⟩
      | some => exact ⟨update_of_ne hk .., update_of_ne hk ..⟩
    cases origin with
    | false => exact hmark
    | true => exact ⟨(update_of_ne hk ..).trans hmark.1, hmark.2⟩

/-- The entry of the written key: the one that the write brings, or the old one
as a tombstone. -/
theorem install_self (ha : i.Agrees codec se r) (he : (se.install i).index.entries r.key = some e) :
    (∃ v, se.Presents codec r e v ∧
        (v ≠ none → (se.install i).index.dirtyValues r.key = v)) ∨
      e.flags.tombstone = true ∧ ∃ e₀, se.index.entries r.key = some e₀ ∧
        e.diskOffset = e₀.diskOffset ∧ e.segmentID = e₀.segmentID := by
  cases i with
  | put key e' v =>
    obtain ⟨rfl, hp⟩ := ha
    simp only [install, ShardedIndex.entries_put, update_self] at he
    cases he
    refine .inl ⟨v, hp, ?_⟩
    cases v with
    | none => intro h; exact absurd rfl h
    | some => intro _; exact update_self ..
  | atomic =>
    obtain ⟨rfl, hp⟩ := ha
    simp only [install, ShardedIndex.entries_setDirty, ShardedIndex.swap,
      update_self, Option.some.injEq] at he
    subst he
    exact .inl ⟨none, hp, fun h => absurd rfl h⟩
  | delete key t origin =>
    obtain ⟨rfl, -⟩ := ha
    right
    have hmark : ∀ {e : IndexEntry}, (se.index.markTombstone r.key t).entries r.key = some e →
        e.flags.tombstone = true ∧ ∃ e₀, se.index.entries r.key = some e₀ ∧
          e.diskOffset = e₀.diskOffset ∧ e.segmentID = e₀.segmentID := by
      intro e he
      rw [ShardedIndex.markTombstone] at he
      cases hkey : se.index.entries r.key with
      | none =>
        rw [hkey] at he
        exact absurd (hkey.symm.trans he) (by simp)
      | some e₀ =>
        simp only [ShardedIndex.entries_setDirty, ShardedIndex.update, update_self, hkey,
          Option.map_some, Option.some.injEq] at he
        subst he
        exact ⟨rfl, e₀, rfl, rfl, rfl⟩
    cases origin with
    | false => exact hmark he
    | true =>
      simp only [install, if_true, ShardedIndex.setReplicaApplied, ShardedIndex.update,
        update_self, Option.map_eq_some_iff] at he
      obtain ⟨e₁, he₁, rfl⟩ := he
      obtain ⟨ht, e₀, he₀, hoff, hseg⟩ := hmark he₁
      split
      · exact ⟨ht, e₀, he₀, hoff, hseg⟩
      · exact ⟨ht, e₀, he₀, hoff, hseg⟩

theorem noDirty_install (hd : se.index.NoDirty) (ha : i.Agrees codec se r) (hkv : se.kvSep = true) :
    (se.install i).index.NoDirty := by
  cases i with
  | put =>
    obtain ⟨rfl, hp⟩ := ha
    rw [hp.inMemory.mpr hkv]
    exact hd
  | atomic key e =>
    have hswap : (se.index.swap key e).NoDirty := hd
    exact hswap.setDirty_none key
  | delete key t origin =>
    have hmark : (se.index.markTombstone key t).NoDirty := by
      rw [ShardedIndex.markTombstone]
      cases se.index.entries key with
      | none => exact hd
      | some =>
        have hupd : (se.index.update key (·.markTombstone t)).NoDirty := hd
        exact hupd.setDirty_none key
    cases origin with
    | false | true => exact hmark

theorem Holds.install (h : se.Holds codec last) {w : Write} (hw : se.Ready codec w) :
    (se.install w.install).Holds codec (update last w.record.key (some w.record)) := by
  refine h.replace (se.grows_install _) (se.install_wals _) (se.install_vlogs _) hw.stored
    (fun hkv => noDirty_install (h.noDirty hkv) hw.agrees hkv)
    (fun k hk => install_of_ne hw.agrees hk) (fun e he => ?_) (h.shows_install hw)
  rcases install_self hw.agrees he with ⟨v, hp, hd⟩ | ⟨ht', e₀, he₀, hoff, hseg⟩
  · refine ⟨hp.blob, fun hkv _ => hp.located hkv, fun hkv _ => ?_⟩
    cases hv : v with
    | none =>
      rw [hp.inMemory.mp hv] at hkv
      cases hkv
    | some x => exact ⟨x, by rw [hd (by simp [hv]), hv]⟩
  · have hput : ¬e.flags.tombstone = false := by simp [ht']
    refine ⟨fun ho => ?_, fun _ ht => absurd ht hput, fun _ ht => absurd ht hput⟩
    rw [hoff] at ho ⊢
    rw [hseg]
    exact h.entry_stored _ e₀ he₀ ho

end Engine

end Steps

/-! ## Prepared writes are ready -/

section Prepare

variable {codec : ValueCodec} {se se' : Engine} {last : Key → Option WALEntry}

theorem hasFlag_xformByte (c e o : Bool) :
    hasFlag (xformByte c e o) flagCompressed = c ∧ hasFlag (xformByte c e o) flagEncrypted = e ∧
      hasFlag (xformByte c e o) flagReplicaApplied = o := by
  revert c e o
  decide

theorem stampUs_of_timestamp {t : Int} (h : r.timestamp = t * 1000) : r.replayed.stampUs = t := by
  simp [WalReplayEntry.stampUs, replayed, h]

theorem putRecord_value (stampUs : Int) (version : Nat) (key : Key) (value : List UInt8)
    (exp : Int) (origin : Bool) :
    (putRecord stampUs version key value exp origin).replayed.value = value := by
  cases value with
  | nil => rfl
  | cons => simp [putRecord, WALEntry.replayed, WALEntry.inline]

theorem putRecord_plain (stampUs : Int) (version : Nat) (key : Key) (value : List UInt8)
    (exp : Int) (origin : Bool) :
    (putRecord stampUs version key value exp origin).replayed.Plain := by
  intro _
  exact ⟨(hasFlag_xformByte false false origin).1, (hasFlag_xformByte false false origin).2.1⟩

theorem putRecord_expiry (stampUs : Int) (version : Nat) (key : Key) (value : List UInt8)
    (exp : Int) (origin : Bool) :
    (replayEntry (putRecord stampUs version key value exp origin).replayed).expiryUs =
      (putEntry stampUs value exp origin).expiryUs := by
  by_cases h : 0 < exp <;> simp [expiryUs, replayEntry, replayed, putRecord, putEntry, h]

theorem Engine.outcome_putRecord (stampUs : Int) (version : Nat) (key : Key) (value : List UInt8)
    (exp : Int) (origin : Bool) :
    se.outcome codec (putRecord stampUs version key value exp origin) =
      some (value, (putEntry stampUs value exp origin).expiryUs) := by
  have hvalue : ∀ c vl, recordValue c vl (putRecord stampUs version key value exp origin).replayed =
      some value := by
    intro c vl
    rw [recordValue, if_neg fun h => absurd h.2 (lt_irrefl 0), putRecord_value]
  rw [outcome, recordOutcome, hvalue, putRecord_expiry]
  rfl

theorem replayEntry_putRecordAt {stampUs : Int} {version : Nat} {key : Key} {exp : Int}
    {origin : Bool} {l : Located} (hlen : l.blobLen = 0 → value = []) :
    { replayEntry (putRecordAt stampUs version key value exp origin l).replayed with
      diskOffset := l.offset
      segmentID := l.disk } = putEntryAt stampUs value exp origin l := by
  obtain ⟨hc, he, ho⟩ := hasFlag_xformByte l.compressed l.encrypted origin
  have hsize : (putRecordAt stampUs version key value exp origin l).diskLen = l.blobLen := by
    show (if l.blobLen = 0 then value.length else l.blobLen) = l.blobLen
    split
    next h0 => rw [hlen h0, h0]; rfl
    · rfl
  have hstamp : (putRecordAt stampUs version key value exp origin l).replayed.stampUs = stampUs :=
    stampUs_of_timestamp rfl
  simp only [replayEntry, hstamp, putEntryAt, putEntry]
  simp only [replayed, hsize]
  simp only [putRecordAt, putRecord, hc, he, ho]
  by_cases h : 0 < exp <;> simp [h]

namespace Engine

theorem storeValue_spec (se : Engine) (codec : ValueCodec)
    (h : ∀ d, 0 < (se.vlogs d).tail) (d : Nat) (value : List UInt8) :
    se.Grows (se.storeValue codec d value).1 ∧
      (∀ d', 0 < ((se.storeValue codec d value).1.vlogs d').tail) ∧
      0 < (se.storeValue codec d value).2.offset ∧
      ((se.storeValue codec d value).1.vlogs d).blobs (se.storeValue codec d value).2.offset =
        some (codec.transform value).1 := by
  refine ⟨grows_setVLog ((se.vlogs d).extends_beginAppend _), ?_, h d, ?_⟩
  · intro d'
    have hle := (se.vlogs d).le_beginAppend_tail (codec.transform value).1
    have hd := h d
    have hd' := h d'
    simp only [storeValue, setVLog, update_apply]
    split <;> omega
  · simp only [storeValue, setVLog, update_self]
    exact (se.vlogs d).beginAppend_blobs_self _

theorem PointsTo.entryValue_eq {k : Key} (h : se.PointsTo codec k e value) :
    entryValue codec se.vlogs e none = some value := by
  have hread := VLog.readValue_of_blobs h.blob
  have huntransform := codec.untransform_transform value
  rw [← h.compressed, ← h.encrypted] at huntransform
  simp only [entryValue, h.offset_pos, h.segmentID, h.valueSize, hread]
  rcases h.uncompressedSize with hlen | ⟨hnil, -⟩
  · rw [hlen]
    exact huntransform
  · have hplain : e.flags.compressed = false := by
      rw [h.compressed, hnil]
      exact codec.transform_nil
    rw [hplain] at huntransform ⊢
    rw [codec.untransform_uncompressed _ _ value.length]
    exact huntransform

theorem pointsTo_located {key : Key} {offset : Nat} (hoff : 0 < offset)
    (hblob : (se.vlogs (se.disk key)).blobs offset = some (codec.transform value).1)
    (stampUs exp : Int) (origin packed : Bool) :
    se.PointsTo codec key (putEntryAt stampUs value exp origin
      (located codec (se.disk key) offset value packed)) value :=
  ⟨rfl, hoff, hblob, rfl, .inl rfl, rfl, rfl⟩

theorem presents_located (se : Engine) (hkv : se.kvSep = true) (stampUs : Int) (version : Nat)
    (exp : Int) (origin packed : Bool) {key : Key} {offset : Nat} (hoff : 0 < offset)
    (hblob : (se.vlogs (se.disk key)).blobs offset = some (codec.transform value).1)
    {l : Located} (hl : l = located codec (se.disk key) offset value packed) :
    se.Stored (putRecordAt stampUs version key value exp origin l) ∧
      se.Presents codec (putRecordAt stampUs version key value exp origin l)
        (putEntryAt stampUs value exp origin l) none := by
  subst hl
  have hlen : (located codec (se.disk key) offset value packed).blobLen = 0 → value = [] :=
    fun h0 => codec.eq_nil_of_transform value (length_eq_zero_iff.mp h0)
  refine ⟨⟨?_, ?_⟩, ⟨rfl, rfl, ?_, ?_, ?_, ?_, ?_⟩⟩
  · intro hv
    exact absurd rfl hv
  · intro _ _
    exact ⟨_, hblob⟩
  · exact (stampUs_of_timestamp rfl).symm
  · have hvalue : recordValue (se.replayConfig codec (se.disk key) 0) (se.vlogs (se.disk key))
        (putRecordAt stampUs version key value exp origin
          (located codec (se.disk key) offset value packed)).replayed =
        entryValue codec se.vlogs
          (putEntryAt stampUs value exp origin (located codec (se.disk key) offset value packed))
          none := by
      rw [recordValue, if_pos ⟨hkv, Int.natCast_pos.mpr hoff⟩, ← replayEntry_putRecordAt hlen]
      rfl
    rw [← hvalue, ← replayEntry_putRecordAt hlen]
    rfl
  · simp [hkv]
  · intro _
    exact ⟨value, pointsTo_located hoff hblob ..⟩
  · intro _
    exact ⟨_, hblob⟩

theorem presents_inMemory (codec : ValueCodec) (se : Engine) (hkv : se.kvSep = false)
    (stampUs : Int) (version : Nat) (key : Key) (value : List UInt8) (exp : Int) (origin : Bool) :
    se.Stored (putRecord stampUs version key value exp origin) ∧
      se.Presents codec (putRecord stampUs version key value exp origin)
        (putEntry stampUs value exp origin) (some value) := by
  refine ⟨⟨putRecord_plain _ _ _ _ _ _, ?_⟩, ⟨rfl, rfl, ?_, ?_, ?_, ?_, ?_⟩⟩
  · intro _ h
    exact absurd h (lt_irrefl 0)
  · exact (stampUs_of_timestamp rfl).symm
  · rw [outcome_putRecord]
    rfl
  · simp [hkv]
  · intro h
    rw [hkv] at h
    cases h
  · intro h
    exact absurd h (lt_irrefl 0)

theorem presents_copied (se : Engine) (hkv : se.kvSep = true)
    (stampUs : Int) (version : Nat) (exp : Int)
    (origin : Bool) {key : Key} {offset : Nat} (hoff : 0 < offset)
    (hblob : (se.vlogs (se.disk key)).blobs offset = some (codec.transform value).1) :
    se.Stored (putRecord stampUs version key value exp origin) ∧
      se.Presents codec (putRecord stampUs version key value exp origin)
        (putEntryAt stampUs value exp origin (located codec (se.disk key) offset value false))
        none := by
  refine ⟨⟨putRecord_plain _ _ _ _ _ _, ?_⟩, ⟨rfl, rfl, ?_, ?_, ?_, ?_, ?_⟩⟩
  · intro _ h
    exact absurd h (lt_irrefl 0)
  · exact (stampUs_of_timestamp rfl).symm
  · rw [(pointsTo_located hoff hblob ..).entryValue_eq, outcome_putRecord]
    rfl
  · simp [hkv]
  · intro _
    exact ⟨value, pointsTo_located hoff hblob ..⟩
  · intro _
    exact ⟨_, hblob⟩

/-- What a preparation leaves: the old state with more values stored, and a
write that is ready. -/
structure Prepared (codec : ValueCodec) (se : Engine) (p : Engine × Write) : Prop where
  grows : se.Grows p.1
  index : p.1.index = se.index
  wals : p.1.wals = se.wals
  tail_pos : ∀ d, 0 < (p.1.vlogs d).tail
  ready : p.1.Ready codec p.2

theorem Holds.prepared (h : se.Holds codec last) {p : Engine × Write}
    (hp : se.Prepared codec p) : p.1.Holds codec last :=
  h.grow hp.grows hp.index hp.wals hp.tail_pos

theorem grows_nextVersion (se : Engine) : se.Grows se.nextVersion :=
  ⟨rfl, rfl, fun _ => VLog.Extends.refl _⟩

theorem prepared_put (codec : ValueCodec) (h : ∀ d, 0 < (se.vlogs d).tail)
    (clk : WriteClock) (key : Key) (value : List UInt8) (ttl expiryUs : Int) (origin : Bool) :
    se.Prepared codec (se.preparePut codec clk key value ttl expiryUs origin) := by
  simp only [preparePut]
  split
  next hkv =>
    obtain ⟨hg, htail, hoff, hblob⟩ := se.nextVersion.storeValue_spec codec h (se.disk key) value
    have hready := (se.nextVersion.storeValue codec (se.disk key) value).1.presents_located hkv
      clk.stampUs se.nextVersion.version
      (if 0 < expiryUs then expiryUs else walTTLExpiryUs clk.nowUs ttl) origin false hoff hblob rfl
    exact
      { grows := se.grows_nextVersion.trans hg
        index := rfl
        wals := rfl
        tail_pos := htail
        ready := ⟨hready.1, rfl, hready.2⟩ }
  next hkv =>
    have hready := se.nextVersion.presents_inMemory codec (by simpa using hkv)
      clk.stampUs se.nextVersion.version key value
      (if 0 < expiryUs then expiryUs else walTTLExpiryUs clk.nowUs ttl) origin
    exact
      { grows := se.grows_nextVersion
        index := rfl
        wals := rfl
        tail_pos := h
        ready := ⟨hready.1, rfl, hready.2⟩ }

theorem prepared_inline (codec : ValueCodec) (h : ∀ d, 0 < (se.vlogs d).tail)
    (hkv : se.kvSep = true) (clk : WriteClock)
    (key : Key) (value : List UInt8) (ttl : Int) :
    se.Prepared codec (se.prepareInline codec clk key value ttl) := by
  obtain ⟨hg, htail, hoff, hblob⟩ := se.nextVersion.storeValue_spec codec h (se.disk key) value
  have hready := (se.nextVersion.storeValue codec (se.disk key) value).1.presents_copied hkv
    clk.stampUs se.nextVersion.version (walTTLExpiryUs clk.nowUs ttl) false hoff hblob
  exact
    { grows := se.grows_nextVersion.trans hg
      index := rfl
      wals := rfl
      tail_pos := htail
      ready := ⟨hready.1, rfl, hready.2⟩ }

theorem prepared_delete (codec : ValueCodec) (h : ∀ d, 0 < (se.vlogs d).tail)
    (clk : WriteClock) (pooled : WALEntry) (key : Key) (origin : Bool) :
    se.Prepared codec (se.prepareDelete clk pooled key origin) where
  grows := se.grows_nextVersion
  index := rfl
  wals := rfl
  tail_pos := h
  ready :=
    { stored :=
        { plain := by
            intro hv
            exact absurd rfl hv
          blob := by
            intro ht
            cases ht }
      agrees := ⟨rfl, rfl, (stampUs_of_timestamp rfl).symm⟩ }

theorem prepared_atomic (codec : ValueCodec) (h : ∀ d, 0 < (se.vlogs d).tail)
    (hkv : se.kvSep = true) (clk : WriteClock) (key : Key) (value : List UInt8) (ttl : Int) :
    se.Prepared codec (se.prepareAtomic codec clk key value ttl) := by
  obtain ⟨hg, htail, hoff, hblob⟩ := se.nextVersion.storeValue_spec codec h (se.disk key) value
  have hready := (se.nextVersion.storeValue codec (se.disk key) value).1.presents_located hkv
    clk.stampUs se.nextVersion.version (walTTLExpiryUs clk.nowUs ttl) false false hoff hblob rfl
  exact
    { grows := se.grows_nextVersion.trans hg
      index := rfl
      wals := rfl
      tail_pos := htail
      ready := ⟨hready.1, rfl, hready.2⟩ }

end Engine

theorem stageAll_spec (codec : ValueCodec) (reqs : List MultiPutRequest) :
    (stageAll codec reqs).1.Packed ∧
      (∀ s ∈ (stageAll codec reqs).2,
        (s.relOffset, (codec.transform s.req.value).1) ∈ (stageAll codec reqs).1.staged) ∧
      (stageAll codec reqs).2.map StagedEntry.req = reqs := by
  have key : ∀ (reqs : List MultiPutRequest) (acc : VLogBatcher × List StagedEntry),
      acc.1.Packed → (∀ s ∈ acc.2, (s.relOffset, (codec.transform s.req.value).1) ∈ acc.1.staged) →
      (reqs.foldl (stageRequest codec) acc).1.Packed ∧
        (∀ s ∈ (reqs.foldl (stageRequest codec) acc).2,
          (s.relOffset, (codec.transform s.req.value).1) ∈
            (reqs.foldl (stageRequest codec) acc).1.staged) ∧
        (reqs.foldl (stageRequest codec) acc).2.map StagedEntry.req =
          acc.2.map StagedEntry.req ++ reqs := by
    intro reqs
    induction reqs with
    | nil => intro acc hp hs; exact ⟨hp, hs, by simp⟩
    | cons q reqs ih =>
      intro acc hp hs
      have hstep := ih (stageRequest codec acc q) (hp.stage _) (by
        intro s hm
        rw [stageRequest] at hm ⊢
        simp only [VLogBatcher.staged_stage, mem_append, mem_singleton] at hm ⊢
        rcases hm with hm | rfl
        · exact .inl (hs s hm)
        · exact .inr rfl)
      refine ⟨hstep.1, hstep.2.1, hstep.2.2.trans ?_⟩
      simp [stageRequest]
  have h := key reqs (.new, []) VLogBatcher.packed_new (by simp)
  exact ⟨h.1, h.2.1, h.2.2.trans (nil_append _)⟩

structure Engine.PreparedBatch (codec : ValueCodec) (se : Engine) (p : Engine × List Write) :
    Prop where
  grows : se.Grows p.1
  index : p.1.index = se.index
  wals : p.1.wals = se.wals
  tail_pos : ∀ d, 0 < (p.1.vlogs d).tail
  ready : ∀ w ∈ p.2, p.1.Ready codec w

theorem VLog.extends_commit (vl : VLog) (b : VLogBatcher) : vl.Extends (vl.commit b).1 :=
  ⟨fun h => vl.commit_blobs_of_some h b⟩

/-- The write of a staged request whose extent is written. -/
theorem StagedEntry.ready (se : Engine) {s : StagedEntry} {d base : Nat} (hkv : se.kvSep = true)
    (hd : se.disk s.req.key = d) (hoff : 0 < base + s.relOffset)
    (hblob : (se.vlogs d).blobs (base + s.relOffset) = some (codec.transform s.req.value).1)
    (version : Nat) : se.Ready codec (s.write codec d base version) := by
  subst hd
  have hready := se.presents_located hkv s.req.clk.stampUs version
    (walTTLExpiryUs s.req.clk.nowUs s.req.ttl) false s.packed hoff hblob rfl
  exact ⟨hready.1, rfl, hready.2⟩

theorem Engine.staged_stored (codec : ValueCodec) (h : ∀ d, 0 < (se.vlogs d).tail)
    (reqs : List MultiPutRequest) (d : Nat) {s : StagedEntry}
    (hs : s ∈ (stageAll codec (reqs.filter fun q => se.disk q.key = d)).2) :
    se.disk s.req.key = d ∧
      0 < ((se.vlogs d).commit (stageAll codec (reqs.filter fun q => se.disk q.key = d)).1).2 +
        s.relOffset ∧
      ((se.prepareBatch codec reqs d).1.vlogs d).blobs
        (((se.vlogs d).commit (stageAll codec (reqs.filter fun q => se.disk q.key = d)).1).2 +
          s.relOffset) = some (codec.transform s.req.value).1 := by
  obtain ⟨hpacked, hstaged, hreqs⟩ := stageAll_spec codec (reqs.filter fun q => se.disk q.key = d)
  have hreq : s.req ∈ reqs.filter fun q => se.disk q.key = d := hreqs ▸ mem_map_of_mem hs
  refine ⟨by simpa using (mem_filter.mp hreq).2,
    Nat.lt_of_lt_of_le (h d) (Nat.le_add_right _ _), ?_⟩
  simp only [prepareBatch, setVLog, update_self]
  exact (se.vlogs d).commit_blobs_of_staged hpacked (hstaged s hs)

theorem Engine.prepared_batch (codec : ValueCodec) (h : ∀ d, 0 < (se.vlogs d).tail)
    (hkv : se.kvSep = true) (reqs : List MultiPutRequest) (d : Nat) :
    se.PreparedBatch codec (se.prepareBatch codec reqs d) := by
  have htail := (se.vlogs d).commit_tail
    (stageAll codec (reqs.filter fun q => se.disk q.key = d)).1
  have hd := h d
  refine ⟨⟨rfl, rfl, (grows_setVLog ((se.vlogs d).extends_commit _)).vlogs⟩, rfl, rfl, ?_, ?_⟩
  · intro d'
    have hd' := h d'
    simp only [prepareBatch, setVLog, update_apply]
    split <;> omega
  · intro w hw
    obtain ⟨i, hi, rfl⟩ := mem_mapIdx.mp hw
    obtain ⟨hdisk, hoff, hblob⟩ := staged_stored codec h reqs d (getElem_mem hi)
    exact StagedEntry.ready (se.prepareBatch codec reqs d).1 hkv hdisk hoff hblob
      (se.version + 1 + i)

end Prepare

end VeltrixDB.Storage
