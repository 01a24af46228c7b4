import VeltrixDB.Storage.Writers

/-!
# The runtime checkpoint of a log

`checkpointLive` of `storage/wal_checkpoint_live.go` replaces the front of
a disk's log, while writers run, by records built from the index
(`writeCheckpointRecords` in `storage/wal_replay.go`) and carries the rest
over.  The engine's `wals` here is the log as it would be without
checkpoints; the file is what the disk holds.

Main results:

- Theorem `Ckpt.Sound.step`: every step keeps each file that a crash may
  leave equivalent to the original log.
- Theorem `Ckpt.Run.crash_replay_eq`: after a crash at any step, replay of the
  file shows what replay of the original log shows.
-/

namespace VeltrixDB.Storage

open List Option Engine WALEntry IndexEntry

open Register

/-! ## Checkpoint records -/

def checkpointTombstone (version : Nat) (key : Key) (e : IndexEntry) : WALEntry where
  timestamp := e.writeTimestampUs * 1000
  key := key
  valueLen := 0
  value := []
  checksum := 0
  version := version
  isTombstone := true
  vlogOffset := 0
  packed := false
  diskValueLen := 0
  xformFlags := xformByte false false e.flags.replicaApplied
  ttlExpiryUs := 0

/-- The record of a live entry whose value is in memory.  The clock is in
nanoseconds. -/
def checkpointInline (version : Nat) (nowNs : Int) (key : Key) (e : IndexEntry)
    (value : List UInt8) : WALEntry where
  timestamp := if e.writeTimestampUs * 1000 = 0 then nowNs else e.writeTimestampUs * 1000
  key := key
  valueLen := value.length
  value := value
  checksum := computeCRC32C value
  version := version
  isTombstone := false
  vlogOffset := 0
  packed := false
  diskValueLen := 0
  xformFlags := xformByte false false e.flags.replicaApplied
  ttlExpiryUs := e.expiryUs

def checkpointAt (version : Nat) (nowNs : Int) (key : Key) (e : IndexEntry) : WALEntry :=
  { checkpointInline version nowNs key e [] with
    valueLen := if e.uncompressedSize = 0 then e.valueSize else e.uncompressedSize
    checksum := e.crc32c
    vlogOffset := e.diskOffset
    packed := e.flags.packed
    diskValueLen := e.valueSize
    xformFlags := xformByte e.flags.compressed e.flags.encrypted e.flags.replicaApplied }

def checkpointRecord (kvSep : Bool) (keepTombstone : Int → Int → Bool) (version : Nat)
    (nowNs : Int) (key : Key) (e : IndexEntry) (dirty : Option (List UInt8)) : Option WALEntry :=
  let nowUs := nowNs.tdiv 1000
  if e.flags.tombstone ∧ 0 < e.writeTimestampUs ∧ keepTombstone e.writeTimestampUs nowUs then
    some (checkpointTombstone version key e)
  else if e.flags.tombstone ∨ e.isExpired nowUs then none
  else if kvSep ∧ 0 < e.diskOffset then some (checkpointAt version nowNs key e)
  else
    match dirty with
    | none => none
    -- a value of length zero is taken for one that is not in memory
    | some value => if value = [] then none else some (checkpointInline version nowNs key e value)

def ShardedIndex.checkpointKey (idx : ShardedIndex) (kvSep : Bool)
    (keepTombstone : Int → Int → Bool) (version : Nat) (nowNs : Int) (key : Key) :
    Option WALEntry :=
  (idx.entries key).bind fun e =>
    checkpointRecord kvSep keepTombstone version nowNs key e (idx.dirtyValues key)

def ShardedIndex.checkpointShards (idx : ShardedIndex) (kvSep : Bool)
    (keepTombstone : Int → Int → Bool) (version : Nat) (nowNs : Int) (shards : List Nat) :
    List WALEntry :=
  shards.flatMap fun i =>
    (idx.keys.filter fun k => shardOf k = i).filterMap
      (idx.checkpointKey kvSep keepTombstone version nowNs)

def diskShards (d numDisks : Nat) : List Nat :=
  (List.range numShards).filter fun i => diskForShard i numDisks = d

/-! ## The checkpoint as steps -/

inductive CkptPhase where
  | idle
  | started (version : Nat)
  /-- The epoch is flipped; records from `fenceOff` on will be carried. -/
  | fenced (fenceOff oldEpoch version : Nat)
  /-- Records of some shards are written, `todo` is left. -/
  | building (fenceOff version : Nat) (nowNs : Int) (todo : List Nat) (image : List WALEntry)
  /-- The log is carried up to `copied`. -/
  | tailCopied (copied : Nat) (image tail : List WALEntry)
  /-- The new file has the name of the log; the flusher is paused and the
  directory not synced. -/
  | renamed

/-- A disk's log with its checkpoint and the engine's writers. -/
structure Ckpt where
  sys : Sys
  file : List WALEntry
  reverts : List (List WALEntry)
  phase : CkptPhase
  clocks : List Int

def Ckpt.create (kvSep : Bool) (numDisks : Nat) : Ckpt where
  sys := .create kvSep numDisks
  file := []
  reverts := []
  phase := .idle
  clocks := []

/-- What is asked of a run: of the writers, of an append to the file and of a
fence. -/
structure CkptDiscipline where
  writers : Discipline
  append : Ckpt → WALEntry → Prop
  fence : Nat → Ckpt → Prop

def CkptDiscipline.none : CkptDiscipline := ⟨.none, fun _ _ => True, fun _ _ => True⟩

/-- One step of the writers or of the checkpoint of disk `d`. -/
inductive Ckpt.Step (codec : ValueCodec) (P : CkptDiscipline) (keepTombstone : Int → Int → Bool)
    (d : Nat) : Ckpt → Ckpt → Prop
  | writer (s : Ckpt) (sys' : Sys) (h : s.sys.Step codec P.writers none sys') :
      Step codec P keepTombstone d s { s with sys := sys' }
  | appendElsewhere (s : Ckpt) (sys' : Sys) (r : WALEntry)
      (h : s.sys.Step codec P.writers (some r) sys') (hd : s.sys.se.disk r.key ≠ d) :
      Step codec P keepTombstone d s { s with sys := sys' }
  | append (s : Ckpt) (sys' : Sys) (r : WALEntry)
      (h : s.sys.Step codec P.writers (some r) sys') (hd : s.sys.se.disk r.key = d)
      (hrun : s.phase ≠ .renamed) (hP : P.append s r) :
      Step codec P keepTombstone d s { s with sys := sys', file := s.file ++ [r] }
  | start (s : Ckpt) (hphase : s.phase = .idle) :
      Step codec P keepTombstone d s
        { s with
          sys := { s.sys with se := s.sys.se.nextVersion }
          phase := .started (s.sys.se.version + 1) }
  /-- Between two batches of the flusher the epoch is flipped and the length of
  the file noted. -/
  | fence (s : Ckpt) (version : Nat) (hphase : s.phase = .started version) (hP : P.fence d s) :
      Step codec P keepTombstone d s
        { s with
          sys := { s.sys with epoch := s.sys.epoch + 1 }
          phase := .fenced s.file.length s.sys.epoch version }
  /-- No write of the old epoch's slot is in flight any more; the build reads
  the clock. -/
  | drained (s : Ckpt) (fenceOff oldEpoch version : Nat) (nowNs : Int)
      (hphase : s.phase = .fenced fenceOff oldEpoch version)
      (hdrained : ∀ w ∈ s.sys.writers, w.disk = d → w.inFlight = true →
        w.token % 2 ≠ oldEpoch % 2) :
      Step codec P keepTombstone d s
        { s with
          phase := .building fenceOff version nowNs (diskShards d s.sys.se.numDisks) []
          clocks := nowNs.tdiv 1000 :: s.clocks }
  | build (s : Ckpt) (fenceOff version : Nat) (nowNs : Int) (now later : List Nat)
      (image : List WALEntry)
      (hphase : s.phase = .building fenceOff version nowNs (now ++ later) image) :
      Step codec P keepTombstone d s
        { s with
          phase := .building fenceOff version nowNs later
            (image ++ s.sys.se.index.checkpointShards s.sys.se.kvSep keepTombstone version nowNs
              now) }
  | copyTail (s : Ckpt) (fenceOff version : Nat) (nowNs : Int) (image : List WALEntry) (n : Nat)
      (hphase : s.phase = .building fenceOff version nowNs [] image)
      (hn : fenceOff + n ≤ s.file.length) :
      Step codec P keepTombstone d s
        { s with
          phase := .tailCopied (fenceOff + n) image ((s.file.drop fenceOff).take n) }
  | abort (s : Ckpt) (hphase : s.phase ≠ .renamed) :
      Step codec P keepTombstone d s { s with phase := .idle }
  /-- The flusher pauses, the rest of the tail is copied and the new file is
  renamed over the log. -/
  | rename (s : Ckpt) (copied : Nat) (image tail : List WALEntry)
      (hphase : s.phase = .tailCopied copied image tail) :
      Step codec P keepTombstone d s
        { s with
          file := image ++ (tail ++ s.file.drop copied)
          reverts := s.file :: s.reverts
          phase := .renamed }
  | swapped (s : Ckpt) (hphase : s.phase = .renamed) :
      Step codec P keepTombstone d s { s with reverts := [], phase := .idle }
  | swappedUnsynced (s : Ckpt) (hphase : s.phase = .renamed) :
      Step codec P keepTombstone d s { s with phase := .idle }

/-- The states that writers and checkpoints of one disk reach. -/
inductive Ckpt.Run (codec : ValueCodec) (P : CkptDiscipline) (keepTombstone : Int → Int → Bool)
    (d : Nat) : Ckpt → Prop
  | create (kvSep : Bool) (numDisks : Nat) : Run codec P keepTombstone d (.create kvSep numDisks)
  | step {s s' : Ckpt} (h : Run codec P keepTombstone d s)
      (hs : s.Step codec P keepTombstone d s') : Run codec P keepTombstone d s'

/-- The files that a crash may leave. -/
def Ckpt.crashImages (s : Ckpt) : List (List WALEntry) := s.file :: s.reverts

/-- Stamps are in order and not zero, changes are installed in log order, no
record is appended while the name of the log is not durable, and a fence finds
no writer in the slot of the other epoch. -/
def CkptDiscipline.ordered : CkptDiscipline where
  writers := .ordered
  append := fun s r => s.reverts = [] ∧ r.replayed.stampUs ≠ 0
  fence := fun d s => ∀ w ∈ s.sys.writers, w.disk = d → w.inFlight = true →
    w.token % 2 = s.sys.epoch % 2

/-! ## What a checkpoint record says -/

variable {clocks : List Int} {r c : WALEntry}

/-- The record, if there is one, says of a key what its record `last` says;
if there is none, nothing is left of the key at any time that is not before the
given ones. -/
structure Engine.Imaged (codec : ValueCodec) (se : Engine) (clocks : List Int) (k : Key)
    (last image : Option WALEntry) : Prop where
  last_stored : ∀ r, last = some r → se.Stored r
  gone : image = none → ∀ nowUs, (∀ t ∈ clocks, t ≤ nowUs) →
    (last.bind (se.outcome codec)).bind (unexpired nowUs) = none
  same : ∀ c, image = some c → c.key = k ∧ se.Stored c ∧ se.Direct c ∧
    ∃ r, last = some r ∧ c.replayed.stampUs = r.replayed.stampUs ∧
      se.outcome codec c = se.outcome codec r

section Records

variable {codec : ValueCodec} {se se' : Engine} {k : Key} {e : IndexEntry} {value : List UInt8}

theorem checkpointInline_eq (h : e.writeTimestampUs ≠ 0) (version : Nat) (nowNs : Int) (k : Key)
    (value : List UInt8) :
    checkpointInline version nowNs k e value =
      putRecord e.writeTimestampUs version k value e.expiryUs e.flags.replicaApplied := by
  rw [checkpointInline, if_neg (by omega)]
  rfl

theorem IndexEntry.expiryUs_nonneg (e : IndexEntry) : 0 ≤ e.expiryUs := by
  rw [expiryUs]
  split
  next h => omega
  · exact Int.le_refl 0

theorem putEntry_expiryUs (stampUs : Int) (value : List UInt8) {exp : Int} (h : 0 ≤ exp)
    (origin : Bool) : (putEntry stampUs value exp origin).expiryUs = exp := by
  by_cases hpos : 0 < exp
  · simp [expiryUs, putEntry, hpos]
  · simp [expiryUs, putEntry]
    omega

/-- The plaintext length of an empty value says nothing. -/
theorem Engine.PointsTo.eq_nil (hl : se.PointsTo codec k e value) (h0 : e.uncompressedSize = 0) :
    value = [] := by
  rcases hl.uncompressedSize with hlen | ⟨hnil, -⟩
  · exact length_eq_zero_iff.mp (hlen ▸ h0)
  · exact hnil

theorem Engine.PointsTo.diskLen_checkpointAt (hl : se.PointsTo codec k e value) (version : Nat)
    (nowNs : Int) : (checkpointAt version nowNs k e).diskLen = e.valueSize := by
  show (if e.valueSize = 0 then
    (if e.uncompressedSize = 0 then e.valueSize else e.uncompressedSize) else e.valueSize) = _
  split
  next h0 =>
    have hnil : value = [] :=
      codec.eq_nil_of_transform value (length_eq_zero_iff.mp (hl.valueSize ▸ h0))
    have hzero : e.uncompressedSize = 0 := by
      rcases hl.uncompressedSize with hlen | ⟨-, hlen⟩
      · rw [hlen, hnil]
        rfl
      · rw [hlen, h0]
    rw [if_pos hzero]
  · rfl

theorem Engine.outcome_checkpointAt (hkv : se.kvSep = true) (hl : se.PointsTo codec k e value)
    (version : Nat) (nowNs : Int) :
    se.outcome codec (checkpointAt version nowNs k e) =
      (entryValue codec se.vlogs e none).map fun v => (v, e.expiryUs) := by
  obtain ⟨hc, he, -⟩ :=
    hasFlag_xformByte e.flags.compressed e.flags.encrypted e.flags.replicaApplied
  have huntransform : ∀ b, codec.untransform e.flags.compressed e.flags.encrypted
      (if e.uncompressedSize = 0 then e.valueSize else e.uncompressedSize) b =
      codec.untransform e.flags.compressed e.flags.encrypted e.uncompressedSize b := by
    intro b
    split
    next h0 =>
      -- an empty value is not compressed
      have hplain : e.flags.compressed = false := by
        rw [hl.compressed, hl.eq_nil h0]
        exact codec.transform_nil
      rw [hplain]
      exact codec.untransform_uncompressed ..
    · rfl
  have hexp : (replayEntry (checkpointAt version nowNs k e).replayed).expiryUs = e.expiryUs := by
    have hnn := e.expiryUs_nonneg
    rw [expiryUs]
    by_cases hpos : 0 < e.expiryUs
    · simp [replayEntry, replayed, checkpointAt, checkpointInline, hpos]
    · simp [replayEntry, replayed, checkpointAt, checkpointInline, hpos]
      omega
  have hvalue : recordValue (se.replayConfig codec (se.disk k) 0) (se.vlogs (se.disk k))
      (checkpointAt version nowNs k e).replayed = entryValue codec se.vlogs e none := by
    have hpos : 0 < (e.diskOffset : Int) := Int.natCast_pos.mpr hl.offset_pos
    rw [recordValue, if_pos ⟨hkv, hpos⟩]
    simp only [entryValue, replayEntry, replayed, hl.diskLen_checkpointAt, hl.segmentID]
    simp only [checkpointAt, checkpointInline, Int.toNat_natCast, hc, he, replayConfig,
      huntransform]
  rw [← hvalue, ← hexp]
  rfl

theorem Engine.stored_checkpointAt (hl : se.PointsTo codec k e value) (version : Nat)
    (nowNs : Int) : se.Stored (checkpointAt version nowNs k e) where
  plain := fun hv => absurd rfl hv
  blob := fun _ _ => ⟨_, hl.blob⟩

theorem stampUs_checkpointAt (h : e.writeTimestampUs ≠ 0) (version : Nat) (nowNs : Int) (k : Key) :
    (checkpointAt version nowNs k e).replayed.stampUs = e.writeTimestampUs :=
  stampUs_of_timestamp (if_neg (by omega))

/-- An inline record of an engine without key-value separation carries the value that is left of
its key. -/
theorem Engine.Direct.outcome_eq (h : se.Direct r) (codec : ValueCodec) (hkv : se.kvSep = false)
    (ht : r.isTombstone = false) :
    r.value ≠ [] ∧ ∃ exp, se.outcome codec r = some (r.value, exp) := by
  have hval := h.value ht hkv
  have hinl : r.inline = true := by
    simp [WALEntry.inline, ht, h.inline ht hkv, length_pos_iff, hval]
  refine ⟨hval, (replayEntry r.replayed).expiryUs, ?_⟩
  simp [Engine.outcome, recordOutcome, recordValue, Engine.replayConfig, hkv, WALEntry.replayed, ht,
    hinl]

theorem Engine.Imaged.of_record (hr : se.Stored r) (hkey : c.key = k) (hc : se.Stored c)
    (hdir : se.Direct c) (hstamp : c.replayed.stampUs = r.replayed.stampUs)
    (hout : se.outcome codec c = se.outcome codec r) :
    se.Imaged codec clocks k (some r) (some c) where
  last_stored := by
    intro r' hr'
    cases hr'
    exact hr
  gone := fun h => (by cases h)
  same := by
    intro c' hc'
    cases hc'
    exact ⟨hkey, hc, hdir, r, rfl, hstamp, hout⟩

/-- Nothing is written for an entry of which nothing is left. -/
theorem Engine.Imaged.of_gone {last : Option WALEntry} (hlast : ∀ r, last = some r → se.Stored r)
    (h : ∀ nowUs, (∀ t ∈ clocks, t ≤ nowUs) →
      (last.bind (se.outcome codec)).bind (unexpired nowUs) = none) :
    se.Imaged codec clocks k last none where
  last_stored := hlast
  gone := fun _ => h
  same := fun _ h => (by cases h)

theorem IndexEntry.isExpired_mono (e : IndexEntry) {t t' : Int} (h : e.isExpired t = true)
    (ht : t ≤ t') : e.isExpired t' = true := by
  rw [isExpired_iff] at h ⊢
  exact ⟨h.1, h.2.trans ht⟩

namespace Engine

theorem outcome_of_isTombstone (h : r.isTombstone = true) : se.outcome codec r = none := by
  simp [outcome, recordOutcome, replayed, h]

theorem Holds.imaged_checkpointRecord {last : Key → Option WALEntry} (h : se.Holds codec last)
    (hr : last k = some r) (hdir : se.Direct r) (hstamp : r.replayed.stampUs ≠ 0)
    (he : se.index.entries k = some e) (hts : e.writeTimestampUs = r.replayed.stampUs)
    (hout : (if e.flags.tombstone then none
      else (entryValue codec se.vlogs e (se.index.dirtyValues k)).map fun v => (v, e.expiryUs)) =
        se.outcome codec r) (keepTombstone : Int → Int → Bool) (version : Nat) (nowNs : Int)
    (hclocks : e.isExpired (nowNs.tdiv 1000) = true →
      ∀ nowUs, (∀ t ∈ clocks, t ≤ nowUs) → e.isExpired nowUs = true) :
    se.Imaged codec clocks k (some r)
      (checkpointRecord se.kvSep keepTombstone version nowNs k e (se.index.dirtyValues k)) := by
  have hst := (h.last_stored k r hr).2
  have hne : e.writeTimestampUs ≠ 0 := hts ▸ hstamp
  have hlast : ∀ r', some r = some r' → se.Stored r' := by
    intro r' hr'
    cases hr'
    exact hst
  simp only [checkpointRecord]
  split
  next hkeep =>
    rw [if_pos hkeep.1] at hout
    refine .of_record hst rfl ⟨fun hv => absurd rfl hv, fun ht => (by cases ht)⟩
      ⟨⟨fun ht => (by cases ht), fun ht => (by cases ht)⟩, fun ht => (by cases ht)⟩
      ((stampUs_of_timestamp rfl).trans hts) ?_
    rw [outcome_of_isTombstone rfl, hout]
  · split
    next hdead =>
      refine .of_gone hlast fun nowUs hnow => ?_
      rw [bind_some, ← hout]
      by_cases ht : e.flags.tombstone = true
      · rw [if_pos ht]
        rfl
      · -- expired at the build, so expired at any later replay
        rw [if_neg ht]
        have hexp := (e.isExpired_iff _).mp (hclocks (hdead.resolve_left ht) nowUs hnow)
        cases entryValue codec se.vlogs e (se.index.dirtyValues k) with
        | none => rfl
        | some => simp [unexpired, hexp]
    next hlive =>
      have ht : e.flags.tombstone = false := by
        simpa using fun ht => hlive (.inl ht)
      rw [ht] at hout
      split
      next hsep =>
        obtain ⟨value, hl⟩ := h.located hsep.1 k e he ht
        rw [h.noDirty hsep.1 k] at hout
        refine .of_record hst rfl (stored_checkpointAt hl version nowNs)
          ⟨⟨fun _ _ => Int.natCast_pos.mpr hl.offset_pos, fun _ hkv => ?_⟩, fun _ hkv => ?_⟩
          ((stampUs_checkpointAt hne ..).trans hts)
          ((outcome_checkpointAt hsep.1 hl version nowNs).trans hout)
        · exact absurd (hsep.1.symm.trans hkv) (by decide)
        · exact absurd (hsep.1.symm.trans hkv) (by decide)
      next hmem =>
        have hkv : se.kvSep = false := by
          by_contra hkv
          have hkv : se.kvSep = true := by simpa using hkv
          obtain ⟨value, hl⟩ := h.located hkv k e he ht
          exact hmem ⟨hkv, hl.offset_pos⟩
        obtain ⟨v, hv⟩ := h.inMemory hkv k e he ht
        rw [hv] at hout ⊢
        have hput : r.isTombstone = false := by
          by_contra htomb
          rw [outcome_of_isTombstone (by simpa using htomb)] at hout
          cases hout
        obtain ⟨hval, exp, hexp⟩ := hdir.outcome_eq codec hkv hput
        have hvr : v = r.value := by
          rw [hexp] at hout
          exact congrArg Prod.fst (some.inj hout)
        simp only
        rw [if_neg (hvr ▸ hval), checkpointInline_eq hne]
        have hpres := se.presents_inMemory codec hkv e.writeTimestampUs version k v e.expiryUs
          e.flags.replicaApplied
        refine .of_record hst rfl hpres.1 ⟨⟨fun _ hkv' => ?_, fun _ _ => rfl⟩, fun _ _ => hvr ▸ hval⟩
          ((stampUs_of_timestamp rfl).trans hts) ?_
        · exact absurd (hkv.symm.trans hkv') (by decide)
        · rw [outcome_putRecord, putEntry_expiryUs _ _ e.expiryUs_nonneg, ← hout]
          rfl

/-- What a checkpoint writes of a key says what the key's last installed record
says. -/
theorem Holds.imaged_checkpointKey {last : Key → Option WALEntry} (h : se.Holds codec last)
    (hlast : ∀ r, last k = some r → se.Direct r ∧ r.replayed.stampUs ≠ 0)
    (keepTombstone : Int → Int → Bool) (version : Nat) (nowNs : Int)
    (hclocks : ∀ e, se.index.entries k = some e → e.isExpired (nowNs.tdiv 1000) = true →
      ∀ nowUs, (∀ t ∈ clocks, t ≤ nowUs) → e.isExpired nowUs = true) :
    se.Imaged codec clocks k (last k)
      (se.index.checkpointKey se.kvSep keepTombstone version nowNs k) := by
  rcases h.shows k with ⟨r, hr, hvis⟩ | ⟨hvis, hnone⟩
  · obtain ⟨e, he, hpair⟩ := map_eq_some_iff.mp hvis
    obtain ⟨hdir, hstamp⟩ := hlast r hr
    rw [ShardedIndex.checkpointKey, he, hr]
    exact h.imaged_checkpointRecord hr hdir hstamp he (congrArg Prod.fst hpair)
      (congrArg Prod.snd hpair) keepTombstone version nowNs (hclocks e he)
  · have he : se.index.entries k = none := map_eq_none_iff.mp hvis
    rw [ShardedIndex.checkpointKey, he]
    refine .of_gone (fun r hr => (h.last_stored k r hr).2) fun nowUs _ => ?_
    rw [hnone]
    rfl

end Engine

end Records

/-! ## Files that stand for a log -/

variable {rs : List WALEntry}

/-- The file holds of every key a record for a front part of the log of
`d` and then the log from a place within that part on. -/
structure Engine.StandsFor (codec : ValueCodec) (se : Engine) (d : Nat) (clocks : List Int)
    (file : List WALEntry) : Prop where
  routed : ∀ r ∈ file, se.disk r.key = d
  stored : ∀ r ∈ file, se.Stored r
  keys : ∀ k, se.disk k = d → ∃ image p q, p ≤ q ∧ q ≤ (se.recordsOf k).length ∧
    recordsIn file k = image.toList ++ (se.recordsOf k).drop p ∧
    se.Imaged codec clocks k ((se.recordsOf k).take q).getLast? image

section Files

variable {codec : ValueCodec} {se se' : Engine} {d : Nat} {clocks clocks' : List Int}
  {file : List WALEntry} {k : Key}

theorem Engine.Imaged.grow {last image : Option WALEntry}
    (h : se.Imaged codec clocks k last image) (hg : se.Grows se') (hc : clocks ⊆ clocks') :
    se'.Imaged codec clocks' k last image where
  last_stored := fun r hr => (h.last_stored r hr).grow hg
  gone := by
    intro him nowUs hnow
    have hgone := h.gone him nowUs fun t ht => hnow t (hc ht)
    cases hl : last with
    | none => rfl
    | some r =>
      rw [hl] at hgone
      rw [bind_some, (h.last_stored r hl).outcome_grow hg]
      exact hgone
  same := by
    intro c him
    obtain ⟨hk, hst, hdir, r, hr, hstamp, hout⟩ := h.same c him
    refine ⟨hk, hst.grow hg, hdir.grow hg, r, hr, hstamp, ?_⟩
    rw [hst.outcome_grow hg, (h.last_stored r hr).outcome_grow hg, hout]

/-- Records that go to the log and to the file. -/
theorem Engine.StandsFor.append (h : se.StandsFor codec d clocks file) (hg : se.Grows se')
    (hc : clocks ⊆ clocks')
    (hrec : ∀ k, se.disk k = d → se'.recordsOf k = se.recordsOf k ++ recordsIn rs k)
    (hrs : ∀ r ∈ rs, se.disk r.key = d ∧ se'.Stored r) :
    se'.StandsFor codec d clocks' (file ++ rs) where
  routed := by
    simp only [hg.disk]
    exact forall_mem_append.mpr ⟨h.routed, fun r hr => (hrs r hr).1⟩
  stored := forall_mem_append.mpr
    ⟨fun r hr => (h.stored r hr).grow hg, fun r hr => (hrs r hr).2⟩
  keys := by
    intro k hk
    rw [hg.disk] at hk
    obtain ⟨image, p, q, hpq, hq, hfile, him⟩ := h.keys k hk
    refine ⟨image, p, q, hpq, ?_, ?_, ?_⟩
    · rw [hrec k hk, length_append]
      exact Nat.le_add_right_of_le hq
    · rw [hrec k hk, drop_append_of_le_length (hpq.trans hq), recordsIn_append, hfile, append_assoc]
    · rw [hrec k hk, take_append_of_le_length hq]
      exact him.grow hg hc

theorem pairwise_le_getLast (h : rs.Pairwise fun a b => a.replayed.stampUs ≤ b.replayed.stampUs)
    (hr : rs.getLast? = some r) : ∀ x ∈ rs, x.replayed.stampUs ≤ r.replayed.stampUs := by
  obtain ⟨ys, rfl⟩ := List.getLast?_eq_some_iff.mp hr
  rw [pairwise_append] at h
  intro x hx
  rcases mem_append.mp hx with hx | hx
  · exact h.2.2 x hx r (mem_singleton_self r)
  · rw [mem_singleton.mp hx]

theorem Engine.StandsFor.replayFile_eq {s : Sys} (hord : s.Ordered codec)
    (h : s.se.StandsFor codec d clocks file) (hk : s.se.disk k = d) {nowUs : Int}
    (hnow : ∀ t ∈ clocks, t ≤ nowUs) :
    s.se.replayFile codec file k nowUs = s.se.replayedView codec k nowUs := by
  subst hk
  rw [hord.replayedView_eq, replayFile_eq h.routed h.stored (hord.holds.tail_pos _)]
  obtain ⟨image, p, q, hpq, hq, hfile, him⟩ := h.keys k rfl
  rw [hfile, lastRecord]
  have hdirImage : ∀ c ∈ image.toList, s.se.Direct c := fun c hc =>
    (him.same c (mem_toList.mp hc)).2.2.1
  rcases Nat.lt_or_ge p (s.se.recordsOf k).length with hlt | hge
  · -- the last record of the log is carried over
    obtain ⟨r, hr⟩ : ∃ r, (s.se.recordsOf k).getLast? = some r := by
      refine isSome_iff_exists.mp (List.getLast?_isSome.mpr ?_)
      exact ne_nil_of_length_pos (Nat.zero_lt_of_lt hlt)
    have hrk : r.key = k := key_of_mem_recordsOf (mem_of_getLast? hr)
    have hle := pairwise_le_getLast (hord.sorted k) hr
    have hdrop : ((s.se.recordsOf k).drop p).getLast? = some r := by
      rw [List.getLast?_drop, if_neg (Nat.not_le_of_lt hlt), hr]
    obtain ⟨rs, hrs⟩ := List.getLast?_eq_some_iff.mp hdrop
    rw [hrs, ← append_assoc, live_records_concat hrk, hr]
    · rfl
    · rw [append_assoc, ← hrs]
      exact forall_mem_append.mpr ⟨hdirImage, fun x hx => hord.direct k x (mem_of_mem_drop hx)⟩
    · intro x hx
      rcases mem_append.mp hx with hx | hx
      · obtain ⟨-, -, -, r', hr', hstamp, -⟩ := him.same x (mem_toList.mp hx)
        rw [hstamp]
        exact hle r' (mem_of_mem_take (mem_of_getLast? hr'))
      · refine hle x (mem_of_mem_drop (i := p) ?_)
        rw [hrs]
        exact mem_append_left _ hx
  · -- the image stands for the whole log of the key
    have hq' : q = (s.se.recordsOf k).length := by omega
    rw [hq', take_length] at him
    rw [drop_of_length_le hge, append_nil]
    cases himage : image with
    | none =>
      rw [him.gone himage nowUs hnow]
      rfl
    | some c =>
      obtain ⟨hck, -, hdir, r, hr, -, hout⟩ := him.same c himage
      have hsingle : (some c).toList = [] ++ [c] := rfl
      rw [hsingle, live_records_concat hck (by simpa using hdir) (by simp), hr, bind_some, hout]

end Files

/-! ## The records of an image -/

section Image

variable {idx : ShardedIndex} {kvSep : Bool} {keepTombstone : Int → Int → Bool} {version : Nat}
  {nowNs : Int} {k : Key}

theorem checkpointRecord_eq_some {e : IndexEntry} {dirty : Option (List UInt8)}
    (h : checkpointRecord kvSep keepTombstone version nowNs k e dirty = some c) :
    c.key = k ∧ c.version = version ∧ (c.isTombstone = false → e.flags.tombstone = false ∧
      (kvSep = true → 0 < e.diskOffset → c = checkpointAt version nowNs k e)) := by
  simp only [checkpointRecord] at h
  split at h
  · cases h
    exact ⟨rfl, rfl, fun ht => (by cases ht)⟩
  · split at h
    · cases h
    next hlive =>
      split at h
      · cases h
        exact ⟨rfl, rfl, fun _ => ⟨by simpa using fun ht => hlive (.inl ht), fun _ _ => rfl⟩⟩
      next hmem =>
        cases dirty with
        | none => cases h
        | some =>
          simp only at h
          split at h
          · cases h
          · cases h
            exact ⟨rfl, rfl, fun _ => ⟨by simpa using fun ht => hlive (.inl ht),
              fun hkv hoff => absurd ⟨hkv, hoff⟩ hmem⟩⟩

theorem ShardedIndex.checkpointKey_key
    (h : idx.checkpointKey kvSep keepTombstone version nowNs k = some c) : c.key = k := by
  obtain ⟨e, -, he⟩ := bind_eq_some_iff.mp h
  exact (checkpointRecord_eq_some he).1

theorem recordsIn_filterMap {f : Key → Option WALEntry} (hf : ∀ x c, f x = some c → c.key = x)
    {l : List Key} (hl : l.Nodup) (k : Key) :
    recordsIn (l.filterMap f) k = if k ∈ l then (f k).toList else [] := by
  induction l with
  | nil => rfl
  | cons x l ih =>
    rw [nodup_cons] at hl
    have hhead : recordsIn (f x).toList k = if x = k then (f k).toList else [] := by
      cases hx : f x with
      | none =>
        split
        next heq => rw [← heq, hx]; rfl
        · rfl
      | some c =>
        have hc := hf x c hx
        by_cases hxk : x = k
        · subst hxk
          simp [recordsIn, hc, hx]
        · simp [recordsIn, hc, hxk]
    have hcons : (x :: l).filterMap f = (f x).toList ++ l.filterMap f := by
      cases hx : f x <;> simp [hx]
    rw [hcons, recordsIn_append, hhead, ih hl.2]
    by_cases hxk : x = k
    · subst hxk
      simp [hl.1]
    · simp [hxk, Ne.symm hxk]

namespace ShardedIndex

theorem recordsIn_shard (idx : ShardedIndex) (kvSep : Bool)
    (keepTombstone : Int → Int → Bool) (version : Nat) (nowNs : Int) (i : Nat) (k : Key) :
    recordsIn ((idx.keys.filter fun x => shardOf x = i).filterMap
        (idx.checkpointKey kvSep keepTombstone version nowNs)) k =
      if shardOf k = i then
        (idx.checkpointKey kvSep keepTombstone version nowNs k).toList else [] := by
  rw [recordsIn_filterMap (fun x c => checkpointKey_key) (idx.nodup_keys.filter _)]
  by_cases hi : shardOf k = i
  · by_cases hk : k ∈ idx.keys
    · simp [hk]
    · -- a key that was never inserted has no entry
      have he : idx.entries k = none := by
        cases he : idx.entries k with
        | none => rfl
        | some e => exact absurd (idx.mem_keys k e he) hk
      simp [checkpointKey, he]
  · simp [hi]

theorem recordsIn_checkpointShards (idx : ShardedIndex) (kvSep : Bool)
    (keepTombstone : Int → Int → Bool) (version : Nat) (nowNs : Int) {shards : List Nat}
    (hnd : shards.Nodup) (k : Key) :
    recordsIn (idx.checkpointShards kvSep keepTombstone version nowNs shards) k =
      if shardOf k ∈ shards then
        (idx.checkpointKey kvSep keepTombstone version nowNs k).toList else [] := by
  induction shards with
  | nil => rfl
  | cons i shards ih =>
    rw [nodup_cons] at hnd
    rw [checkpointShards, flatMap_cons, recordsIn_append, recordsIn_shard]
    have ih' := ih hnd.2
    rw [checkpointShards] at ih'
    rw [ih']
    by_cases hi : shardOf k = i
    · simp [hi, hnd.1]
    · simp [hi]

end ShardedIndex

theorem Engine.mem_diskShards {se : Engine} {d : Nat} :
    shardOf k ∈ diskShards d se.numDisks ↔ se.disk k = d := by
  have hlt : shardOf k < numShards := Nat.mod_lt _ (by decide)
  rw [diskShards, mem_filter, mem_range, decide_eq_true_eq]
  exact and_iff_right hlt

theorem nodup_diskShards (d numDisks : Nat) : (diskShards d numDisks).Nodup :=
  nodup_range.filter _

end Image

/-! ## What a writer's step can do -/

/-- What a step that appends `r` does to the log, the installs and the
writes that wait for their install. -/
structure Sys.Effect (s : Sys) (r : Option WALEntry) (s' : Sys) : Prop where
  grows : s.se.Grows s'.se
  records : ∀ k, s'.se.recordsOf k = s.se.recordsOf k ++ recordsIn r.toList k
  installs : ∀ k, s.installs k ≤ s'.installs k
  logged : ∀ w' ∈ s'.writers, ∀ l ∈ w'.logged,
    (∃ w ∈ s.writers, w.token = w'.token ∧ l ∈ w.logged) ∨
      l.seq = (s.se.recordsOf l.key).length

section Effects

variable {codec : ValueCodec} {P : Discipline} {s s' : Sys}

/-- What waits for its install when one writer is replaced. -/
theorem Sys.logged_replace {Q : Logged → Prop} {pre post : List Writer} {w w' : Writer}
    (hw : s.writers = pre ++ w :: post)
    (hlogged : ∀ l ∈ w'.logged, (w.token = w'.token ∧ l ∈ w.logged) ∨ Q l) :
    ∀ x' ∈ pre ++ w' :: post, ∀ l ∈ x'.logged,
      (∃ x ∈ s.writers, x.token = x'.token ∧ l ∈ x.logged) ∨ Q l := by
  intro x' hx' l hl
  rw [hw]
  rcases mem_append.mp hx' with hx' | hx'
  · exact .inl ⟨x', mem_append_left _ hx', rfl, hl⟩
  · rcases mem_cons.mp hx' with rfl | hx'
    · rcases hlogged l hl with ⟨htok, hl⟩ | hQ
      · exact .inl ⟨w, by simp, htok, hl⟩
      · exact .inr hQ
    · exact .inl ⟨x', by simp [hx'], rfl, hl⟩

theorem Sys.Effect.silent (hse : s'.se = s.se) (hins : s'.installs = s.installs)
    (hlogged : ∀ w' ∈ s'.writers, ∀ l ∈ w'.logged,
      (∃ w ∈ s.writers, w.token = w'.token ∧ l ∈ w.logged) ∨
        l.seq = (s.se.recordsOf l.key).length) : s.Effect none s' where
  grows := by rw [hse]; exact Engine.Grows.refl _
  records := fun k => by rw [hse, toList_none, recordsIn_nil, append_nil]
  installs := fun k => by rw [hins]
  logged := hlogged

theorem Sys.Step.effect (h : s.Ordered codec) {r : Option WALEntry} (hs : s.Step codec P r s') :
    s.Effect r s' := by
  have hnew : ∀ (w : Writer), w.logged = [] → ∀ w' ∈ s.writers ++ [w], ∀ l ∈ w'.logged,
      (∃ x ∈ s.writers, x.token = w'.token ∧ l ∈ x.logged) ∨
        l.seq = (s.se.recordsOf l.key).length := by
    intro w hw w' hw' l hl
    rcases mem_append.mp hw' with hw' | hw'
    · exact .inl ⟨w', hw', rfl, hl⟩
    · rw [mem_singleton.mp hw', hw] at hl
      cases hl
  cases hs with
  | stamp | lock => exact .silent rfl rfl (hnew _ rfl)
  | enter pre post lock d t clk req hw =>
    refine .silent rfl rfl (Sys.logged_replace hw ?_)
    intro l hl
    cases hl
  | prepare pre post lock d t clk req hw =>
    have hok := h.writers ⟨lock, d, t, .entered clk req⟩ (by rw [hw]; simp)
    obtain ⟨hp, -⟩ := prepare_spec codec h.holds.tail_pos clk (hok.mode req rfl)
    refine ⟨hp.grows, ?_, fun _ => Nat.le_refl _, Sys.logged_replace hw ?_⟩
    · intro k
      rw [hp.grows.recordsOf hp.wals, toList_none, recordsIn_nil, append_nil]
    · intro l hl
      cases hl
  | append pre post lock d t w todo logged hw =>
    refine ⟨s.se.grows_appendWAL _, ?_, fun _ => Nat.le_refl _, Sys.logged_replace hw ?_⟩
    · intro k
      rw [recordsOf_appendWAL]
      by_cases hk : w.record.key = k
      · simp [recordsIn, hk]
      · simp [recordsIn, hk]
    · exact forall_mem_append.mpr
        ⟨fun l hl => .inl ⟨rfl, hl⟩, forall_mem_singleton.mpr (.inr rfl)⟩
  | install pre post lock d t l logged hw =>
    have hgrow := s.se.grows_install l.write.install
    refine ⟨hgrow, ?_, ?_, Sys.logged_replace hw ?_⟩
    · intro k
      rw [hgrow.recordsOf (s.se.install_wals _), toList_none, recordsIn_nil, append_nil]
    · intro k
      by_cases hk : k = l.key
      · subst hk
        simp
      · simp [hk]
    · intro l' hl'
      exact .inl ⟨rfl, mem_cons_of_mem _ hl'⟩
  | exit pre post lock d t hw =>
    refine .silent rfl rfl ?_
    intro x' hx' l hl
    refine .inl ⟨x', ?_, rfl, hl⟩
    rw [hw]
    rcases mem_append.mp hx' with hx' | hx'
    · simp [hx']
    · simp [hx']

end Effects

/-! ## Every step keeps the files equivalent to the log -/

variable {image tail : List WALEntry}

/-- The list holds the records of each key of the disk from the place
`p` on. -/
structure Sys.Carries (s : Sys) (d : Nat) (p : Key → Nat) (tail : List WALEntry) : Prop where
  le : ∀ k, s.se.disk k = d → p k ≤ (s.se.recordsOf k).length
  records : ∀ k, s.se.disk k = d → recordsIn tail k = (s.se.recordsOf k).drop (p k)

/-- The image holds the records of the keys whose shards were read, each made
when at least the first `p` records of its key were installed. -/
structure Sys.Built (codec : ValueCodec) (s : Sys) (d : Nat) (clocks : List Int) (p : Key → Nat)
    (todo : List Nat) (image : List WALEntry) : Prop where
  routed : ∀ c ∈ image, s.se.disk c.key = d
  stored : ∀ c ∈ image, s.se.Stored c
  unread : ∀ k, s.se.disk k = d → shardOf k ∈ todo → recordsIn image k = []
  read : ∀ k, s.se.disk k = d → shardOf k ∉ todo → ∃ c q, p k ≤ q ∧
    q ≤ (s.se.recordsOf k).length ∧ recordsIn image k = c.toList ∧
    s.se.Imaged codec clocks k ((s.se.recordsOf k).take q).getLast? c

/-- What a checkpoint has so far. -/
inductive Ckpt.PhaseOk (codec : ValueCodec) (d : Nat) (s : Ckpt) : CkptPhase → Prop
  | idle : PhaseOk codec d s .idle
  | started (version : Nat) : PhaseOk codec d s (.started version)
  | fenced {fenceOff oldEpoch : Nat} (version : Nat) (p : Key → Nat)
      (hoff : fenceOff ≤ s.file.length) (hcarry : s.sys.Carries d p (s.file.drop fenceOff))
      (hold : ∀ w ∈ s.sys.writers, ∀ l ∈ w.logged, s.sys.se.disk l.key = d → l.seq < p l.key →
        w.token % 2 = oldEpoch % 2) :
      PhaseOk codec d s (.fenced fenceOff oldEpoch version)
  | building {fenceOff : Nat} {nowNs : Int} {todo : List Nat} {image : List WALEntry}
      (version : Nat) (p : Key → Nat) (hoff : fenceOff ≤ s.file.length)
      (hcarry : s.sys.Carries d p (s.file.drop fenceOff))
      (hinstalled : ∀ k, s.sys.se.disk k = d → p k ≤ s.sys.installs k) (hnodup : todo.Nodup)
      (hroute : ∀ k, shardOf k ∈ todo → s.sys.se.disk k = d)
      (hclock : nowNs.tdiv 1000 ∈ s.clocks)
      (hbuilt : s.sys.Built codec d s.clocks p todo image) :
      PhaseOk codec d s (.building fenceOff version nowNs todo image)
  | tailCopied {copied : Nat} {image tail : List WALEntry} (p : Key → Nat)
      (hcopied : copied ≤ s.file.length) (htail : ∀ r ∈ tail, r ∈ s.file)
      (hcarry : s.sys.Carries d p (tail ++ s.file.drop copied))
      (hbuilt : s.sys.Built codec d s.clocks p [] image) :
      PhaseOk codec d s (.tailCopied copied image tail)
  | renamed : PhaseOk codec d s .renamed

/-- Every file that a crash may leave stands for the log. -/
structure Ckpt.Sound (codec : ValueCodec) (d : Nat) (s : Ckpt) : Prop where
  ordered : s.sys.Ordered codec
  stamped : ∀ k, s.sys.se.disk k = d → ∀ r ∈ s.sys.se.recordsOf k, r.replayed.stampUs ≠ 0
  images : ∀ f ∈ s.crashImages, s.sys.se.StandsFor codec d s.clocks f
  phase : s.PhaseOk codec d s.phase

section Keep

variable {codec : ValueCodec} {keepTombstone : Int → Int → Bool} {d version : Nat} {s s' : Ckpt}
  {nowNs : Int}

theorem Ckpt.sound_create (codec : ValueCodec) (d : Nat) (kvSep : Bool) (numDisks : Nat) :
    (Ckpt.create kvSep numDisks).Sound codec d where
  ordered := Sys.ordered_create codec kvSep numDisks
  stamped := by
    intro k _ r hr
    cases hr
  images := by
    intro f hf
    rw [mem_singleton.mp hf]
    refine ⟨fun r hr => (by cases hr), fun r hr => (by cases hr), fun k _ => ?_⟩
    refine ⟨none, 0, 0, Nat.le_refl _, Nat.le_refl _, rfl, ?_⟩
    exact .of_gone (fun r hr => (by cases hr)) fun _ _ => rfl
  phase := .idle

theorem Sys.Carries.append {p : Key → Nat} {a a' : Sys} (h : a.Carries d p tail)
    (hg : a.se.Grows a'.se)
    (hrec : ∀ k, a.se.disk k = d → a'.se.recordsOf k = a.se.recordsOf k ++ recordsIn rs k) :
    a'.Carries d p (tail ++ rs) where
  le := by
    intro k hk
    rw [hg.disk] at hk
    rw [hrec k hk, length_append]
    exact Nat.le_add_right_of_le (h.le k hk)
  records := by
    intro k hk
    rw [hg.disk] at hk
    rw [hrec k hk, drop_append_of_le_length (h.le k hk), recordsIn_append, h.records k hk]

theorem Sys.Built.append {p : Key → Nat} {todo : List Nat} {a a' : Sys}
    (h : a.Built codec d clocks p todo image) (hg : a.se.Grows a'.se)
    (hrec : ∀ k, a.se.disk k = d → a'.se.recordsOf k = a.se.recordsOf k ++ recordsIn rs k) :
    a'.Built codec d clocks p todo image where
  routed := fun c hc => (hg.disk _).trans (h.routed c hc)
  stored := fun c hc => (h.stored c hc).grow hg
  unread := by
    intro k hk
    rw [hg.disk] at hk
    exact h.unread k hk
  read := by
    intro k hk hdone
    rw [hg.disk] at hk
    obtain ⟨c, q, hpq, hq, himage, him⟩ := h.read k hk hdone
    refine ⟨c, q, hpq, ?_, himage, ?_⟩
    · rw [hrec k hk, length_append]
      exact Nat.le_add_right_of_le hq
    · rw [hrec k hk, take_append_of_le_length hq]
      exact him.grow hg (List.Subset.refl _)

/-- A writer's step keeps what a checkpoint has so far. -/
theorem Ckpt.PhaseOk.advance {phase : CkptPhase} (h : s.PhaseOk codec d phase) {sys' : Sys}
    {r : Option WALEntry} (he : s.sys.Effect r sys')
    (hrec : ∀ k, s.sys.se.disk k = d →
      sys'.se.recordsOf k = s.sys.se.recordsOf k ++ recordsIn rs k) :
    Ckpt.PhaseOk codec d { s with sys := sys', file := s.file ++ rs } phase := by
  cases h with
  | idle => exact .idle
  | started version => exact .started version
  | fenced version p hoff hcarry hold =>
    refine .fenced version p ?_ ?_ ?_
    · rw [length_append]
      exact Nat.le_add_right_of_le hoff
    · rw [drop_append_of_le_length hoff]
      exact hcarry.append he.grows hrec
    · intro w' hw' l hl hk hlt
      rw [he.grows.disk] at hk
      rcases he.logged w' hw' l hl with ⟨w, hw, htok, hl⟩ | hseq
      · rw [← htok]
        exact hold w hw l hl hk hlt
      · -- a record logged now is after the fence
        have hle := hcarry.le l.key hk
        omega
  | building version p hoff hcarry hinstalled hnodup hroute hclock hbuilt =>
    refine .building version p ?_ ?_ ?_ hnodup
      (fun k hk => (he.grows.disk k).trans (hroute k hk)) hclock (hbuilt.append he.grows hrec)
    · rw [length_append]
      exact Nat.le_add_right_of_le hoff
    · rw [drop_append_of_le_length hoff]
      exact hcarry.append he.grows hrec
    · intro k hk
      rw [he.grows.disk] at hk
      exact (hinstalled k hk).trans (he.installs k)
  | tailCopied p hcopied htail hcarry hbuilt =>
    refine .tailCopied p ?_ ?_ ?_ (hbuilt.append he.grows hrec)
    · rw [length_append]
      exact Nat.le_add_right_of_le hcopied
    · exact fun x hx => mem_append_left _ (htail x hx)
    · rw [drop_append_of_le_length hcopied, ← append_assoc]
      exact hcarry.append he.grows hrec
  | renamed => exact .renamed

theorem Ckpt.Sound.advance (h : s.Sound codec d) {sys' : Sys} {r : Option WALEntry}
    (hs : s.sys.Step codec .ordered r sys')
    (hrs : ∀ k, s.sys.se.disk k = d → recordsIn r.toList k = recordsIn rs k)
    (hroute : ∀ x ∈ rs, s.sys.se.disk x.key = d ∧ x.replayed.stampUs ≠ 0)
    (hrev : rs = [] ∨ s.reverts = []) :
    Ckpt.Sound codec d { s with sys := sys', file := s.file ++ rs } := by
  have hord := h.ordered.step hs
  have he := hs.effect h.ordered
  have hrec : ∀ k, s.sys.se.disk k = d →
      sys'.se.recordsOf k = s.sys.se.recordsOf k ++ recordsIn rs k := fun k hk => by
    rw [he.records, hrs k hk]
  have hstored : ∀ x ∈ rs, s.sys.se.disk x.key = d ∧ sys'.se.Stored x := by
    intro x hx
    refine ⟨(hroute x hx).1, hord.holds.stored (sys'.se.disk x.key) x ?_⟩
    have hmem : x ∈ sys'.se.recordsOf x.key := by
      rw [hrec x.key (hroute x hx).1]
      exact mem_append_right _ (mem_recordsIn.mpr ⟨hx, rfl⟩)
    exact (mem_recordsIn.mp hmem).1
  refine ⟨hord, ?_, ?_, h.phase.advance he hrec⟩
  · intro k hk x hx
    simp only [he.grows.disk] at hk
    simp only [hrec k hk] at hx
    rcases mem_append.mp hx with hx | hx
    · exact h.stamped k hk x hx
    · exact (hroute x (mem_recordsIn.mp hx).1).2
  · intro f hf
    rcases mem_cons.mp hf with rfl | hf
    · exact (h.images s.file (mem_cons_self ..)).append he.grows (List.Subset.refl _) hrec hstored
    · rcases hrev with rfl | hrev
      · have hf' := (h.images f (mem_cons_of_mem _ hf)).append he.grows (List.Subset.refl _)
          hrec hstored
        rwa [append_nil] at hf'
      · simp only [hrev] at hf
        cases hf

/-- Steps of the checkpoint that change neither the log nor the files. -/
theorem Ckpt.Sound.rephase (h : s.Sound codec d) (hord : s'.sys.Ordered codec)
    (hse : s.sys.se.Grows s'.sys.se) (hwals : s'.sys.se.wals = s.sys.se.wals)
    (hfile : s'.file = s.file) (hrev : s'.reverts ⊆ s.reverts) (hclocks : s.clocks ⊆ s'.clocks)
    (hphase : s'.PhaseOk codec d s'.phase) : s'.Sound codec d where
  ordered := hord
  stamped := by
    intro k hk
    rw [hse.disk] at hk
    rw [hse.recordsOf hwals]
    exact h.stamped k hk
  images := by
    intro f hf
    have hf' : f ∈ s.crashImages := by
      rcases mem_cons.mp hf with rfl | hf
      · rw [hfile]
        exact mem_cons_self ..
      · exact mem_cons_of_mem _ (hrev hf)
    have happ : s'.sys.se.StandsFor codec d s'.clocks (f ++ []) :=
      (h.images f hf').append hse hclocks
        (fun k _ => by rw [hse.recordsOf hwals, recordsIn_nil, append_nil])
        fun r hr => (by cases hr)
    rwa [append_nil] at happ
  phase := hphase

theorem Writer.Ok.disk_of_logged {se : Engine} {w : Writer} (h : w.Ok codec se) {l : Logged}
    (hl : l ∈ w.logged) : w.disk = se.disk l.key ∧ w.inFlight = true := by
  have hlogging : w.inFlight = true ∧ l.write ∈ w.writes := by
    cases hw : w.phase with
    | stamped | entered => simp [Writer.logged, hw] at hl
    | logging =>
      rw [Writer.logged, hw] at hl
      rw [Writer.inFlight, Writer.writes, hw]
      exact ⟨rfl, mem_append_right _ (mem_map_of_mem hl)⟩
  exact ⟨(h.routed _ hlogging.2).symm, hlogging.1⟩

section

variable (h : s.Sound codec d)
include h

/-- The fence: what is carried starts after every record in the log. -/
theorem Ckpt.Sound.fence (hP : CkptDiscipline.ordered.fence d s) :
    Ckpt.Sound codec d
      { s with
        sys := { s.sys with epoch := s.sys.epoch + 1 }
        phase := .fenced s.file.length s.sys.epoch version } := by
  have hord : Sys.Ordered codec { s.sys with epoch := s.sys.epoch + 1 } :=
    h.ordered.silent rfl rfl h.ordered.writers fun _ _ hp => hp
  refine h.rephase hord (Engine.Grows.refl _) rfl rfl (List.Subset.refl _) (List.Subset.refl _) ?_
  refine .fenced version (fun k => (s.sys.se.recordsOf k).length) (Nat.le_refl _) ⟨?_, ?_⟩ ?_
  · exact fun _ _ => Nat.le_refl _
  · simp
  · intro w hw l hl hk _
    obtain ⟨hdisk, hfly⟩ := (h.ordered.writers w hw).disk_of_logged hl
    exact hP w hw (hdisk.trans hk) hfly

/-- Once the old slot is empty, every record below the fence is installed. -/
theorem Ckpt.Sound.drained {fenceOff oldEpoch : Nat}
    (hphase : s.phase = .fenced fenceOff oldEpoch version)
    (hdrained : ∀ w ∈ s.sys.writers, w.disk = d → w.inFlight = true → w.token % 2 ≠ oldEpoch % 2) :
    Ckpt.Sound codec d
      { s with
        phase := .building fenceOff version nowNs (diskShards d s.sys.se.numDisks) []
        clocks := nowNs.tdiv 1000 :: s.clocks } := by
  have hok := h.phase
  rw [hphase] at hok
  cases hok with
  | fenced _ p hoff hcarry hold =>
    refine h.rephase h.ordered (Engine.Grows.refl _) rfl rfl (List.Subset.refl _)
      (subset_cons_self ..) ?_
    refine .building version p hoff hcarry ?_ (nodup_diskShards ..)
      (fun k hk => mem_diskShards.mp hk) (mem_cons_self ..) ?_
    · intro k hk
      by_contra hlt
      -- the first record that is not installed is below the fence
      obtain ⟨w, hw, l, hl, rfl, hseq⟩ := h.ordered.covered k (s.sys.installs k) (Nat.le_refl _)
        (Nat.lt_of_lt_of_le (Nat.lt_of_not_le hlt) (hcarry.le k hk))
      obtain ⟨hdisk, hfly⟩ := (h.ordered.writers w hw).disk_of_logged hl
      refine hdrained w hw (hdisk.trans hk) hfly (hold w hw l hl hk ?_)
      rw [hseq]
      exact Nat.lt_of_not_le hlt
    · refine ⟨fun c hc => (by cases hc), fun c hc => (by cases hc), fun _ _ _ => rfl, ?_⟩
      intro k hk hread
      exact absurd (mem_diskShards.mpr hk) hread

theorem Ckpt.Sound.build {fenceOff : Nat} {now later : List Nat}
    (hphase : s.phase = .building fenceOff version nowNs (now ++ later) image) :
    Ckpt.Sound codec d
      { s with
        phase := .building fenceOff version nowNs later
          (image ++ s.sys.se.index.checkpointShards s.sys.se.kvSep keepTombstone version nowNs
            now) } := by
  have hok := h.phase
  rw [hphase] at hok
  cases hok with
  | building _ p hoff hcarry hinstalled hnodup hroute hclock hbuilt =>
    refine h.rephase h.ordered (Engine.Grows.refl _) rfl rfl (List.Subset.refl _)
      (List.Subset.refl _) ?_
    obtain ⟨hnow, hlater, hdisj⟩ := nodup_append.mp hnodup
    have hnew := s.sys.se.index.recordsIn_checkpointShards s.sys.se.kvSep keepTombstone version
      nowNs hnow
    -- what the build writes of a key now
    have himaged : ∀ k, s.sys.se.disk k = d → s.sys.se.Imaged codec s.clocks k
        (s.sys.lastInstalled k)
        (s.sys.se.index.checkpointKey s.sys.se.kvSep keepTombstone version nowNs k) := by
      intro k hk
      refine h.ordered.holds.imaged_checkpointKey ?_ keepTombstone version nowNs ?_
      · intro r hr
        have hmem := mem_of_mem_take (mem_of_getLast? hr)
        exact ⟨h.ordered.direct k r hmem, h.stamped k hk r hmem⟩
      · intro e _ hexp nowUs hnow
        exact e.isExpired_mono hexp (hnow _ hclock)
    have hrecord : ∀ c ∈ s.sys.se.index.checkpointShards s.sys.se.kvSep keepTombstone version
        nowNs now, s.sys.se.disk c.key = d ∧ s.sys.se.Stored c := by
      intro c hc
      have hin := mem_recordsIn.mpr ⟨hc, rfl⟩
      rw [hnew] at hin
      split at hin
      next hshard =>
        have hk := hroute c.key (mem_append_left _ hshard)
        exact ⟨hk, ((himaged c.key hk).same c (mem_toList.mp hin)).2.1⟩
      · cases hin
    refine .building version p hoff hcarry hinstalled hlater
      (fun k hk => hroute k (mem_append_right _ hk)) hclock ⟨?_, ?_, ?_, ?_⟩
    · exact forall_mem_append.mpr ⟨hbuilt.routed, fun c hc => (hrecord c hc).1⟩
    · exact forall_mem_append.mpr ⟨hbuilt.stored, fun c hc => (hrecord c hc).2⟩
    · intro k hk hshard
      have hnot : shardOf k ∉ now := fun hin => hdisj _ hin _ hshard rfl
      rw [recordsIn_append, hnew, if_neg hnot, hbuilt.unread k hk (mem_append_right _ hshard)]
      rfl
    · intro k hk hread
      rw [recordsIn_append, hnew]
      by_cases hshard : shardOf k ∈ now
      · rw [if_pos hshard, hbuilt.unread k hk (mem_append_left _ hshard)]
        exact ⟨_, s.sys.installs k, hinstalled k hk, h.ordered.installs_le k, rfl, himaged k hk⟩
      · rw [if_neg hshard, append_nil]
        exact hbuilt.read k hk fun hin => (mem_append.mp hin).elim hshard hread

/-- The copied tail is the front of what is to be carried. -/
theorem Ckpt.Sound.copyTail {fenceOff n : Nat}
    (hphase : s.phase = .building fenceOff version nowNs [] image)
    (hn : fenceOff + n ≤ s.file.length) :
    Ckpt.Sound codec d
      { s with
        phase := .tailCopied (fenceOff + n) image ((s.file.drop fenceOff).take n) } := by
  have hok := h.phase
  rw [hphase] at hok
  cases hok with
  | building _ p hoff hcarry hinstalled hnodup hroute hclock hbuilt =>
    refine h.rephase h.ordered (Engine.Grows.refl _) rfl rfl (List.Subset.refl _)
      (List.Subset.refl _) ?_
    refine .tailCopied p hn ?_ ?_ hbuilt
    · exact fun r hr => mem_of_mem_drop (mem_of_mem_take hr)
    · rw [← drop_drop, take_append_drop]
      exact hcarry

theorem Ckpt.Sound.rename {copied : Nat} (hphase : s.phase = .tailCopied copied image tail) :
    Ckpt.Sound codec d
      { s with
        file := image ++ (tail ++ s.file.drop copied)
        reverts := s.file :: s.reverts
        phase := .renamed } := by
  have hok := h.phase
  rw [hphase] at hok
  have hfile := h.images s.file (mem_cons_self ..)
  cases hok with
  | tailCopied p hcopied htail hcarry hbuilt =>
    refine ⟨h.ordered, h.stamped, ?_, .renamed⟩
    intro f hf
    rcases mem_cons.mp hf with rfl | hf
    · have hcarried : ∀ r ∈ tail ++ s.file.drop copied, r ∈ s.file :=
        forall_mem_append.mpr ⟨htail, fun r hr => mem_of_mem_drop hr⟩
      refine ⟨?_, ?_, ?_⟩
      · exact forall_mem_append.mpr
          ⟨hbuilt.routed, fun r hr => hfile.routed r (hcarried r hr)⟩
      · exact forall_mem_append.mpr
          ⟨hbuilt.stored, fun r hr => hfile.stored r (hcarried r hr)⟩
      · intro k hk
        obtain ⟨c, q, hpq, hq, himage, him⟩ := hbuilt.read k hk not_mem_nil
        refine ⟨c, p k, q, hpq, hq, ?_, him⟩
        rw [recordsIn_append, himage, hcarry.records k hk]
    · exact h.images f hf

end

theorem Sys.Ordered.nextVersion {a : Sys} (h : a.Ordered codec) :
    Sys.Ordered codec { a with se := a.se.nextVersion } := by
  have hg := a.se.grows_nextVersion
  refine h.grow hg rfl rfl h.holds.tail_pos rfl ?_ fun _ _ hp => hp
  exact fun w hw => (h.writers w hw).advance (hg.advances rfl)

/-- Every step of a disciplined run keeps every file that a crash may leave
equivalent to the log. -/
theorem Ckpt.Sound.step (h : s.Sound codec d) (hs : s.Step codec .ordered keepTombstone d s') :
    s'.Sound codec d := by
  have hgrow := Engine.Grows.refl s.sys.se
  cases hs with
  | writer sys' hstep =>
    have hadv : Ckpt.Sound codec d { s with sys := sys', file := s.file ++ [] } :=
      h.advance hstep (fun _ _ => rfl) (fun x hx => (by cases hx)) (.inl rfl)
    rwa [append_nil] at hadv
  | appendElsewhere sys' r hstep hd =>
    have hadv : Ckpt.Sound codec d { s with sys := sys', file := s.file ++ [] } := by
      refine h.advance hstep ?_ (fun x hx => (by cases hx)) (.inl rfl)
      intro k hk
      have hne : r.key ≠ k := fun heq => hd (heq ▸ hk)
      simp [recordsIn, hne]
    rwa [append_nil] at hadv
  | append sys' r hstep hd hrun hP =>
    refine h.advance hstep (fun _ _ => rfl) ?_ (.inr hP.1)
    intro x hx
    rw [mem_singleton.mp hx]
    exact ⟨hd, hP.2⟩
  | start =>
    exact h.rephase h.ordered.nextVersion s.sys.se.grows_nextVersion rfl rfl
      (List.Subset.refl _) (List.Subset.refl _) (.started _)
  | fence version hphase hP => exact h.fence hP
  | drained fenceOff oldEpoch version nowNs hphase hdrained => exact h.drained hphase hdrained
  | build fenceOff version nowNs now later image hphase => exact h.build hphase
  | copyTail fenceOff version nowNs image n hphase hn => exact h.copyTail hphase hn
  | abort | swappedUnsynced =>
    exact h.rephase h.ordered hgrow rfl rfl (List.Subset.refl _) (List.Subset.refl _) .idle
  | rename copied image tail hphase => exact h.rename hphase
  | swapped =>
    exact h.rephase h.ordered hgrow rfl rfl (nil_subset _) (List.Subset.refl _) .idle

theorem Ckpt.Run.sound (h : s.Run codec .ordered keepTombstone d) : s.Sound codec d := by
  induction h with
  | create kvSep numDisks => exact Ckpt.sound_create codec d kvSep numDisks
  | step _ hs ih => exact ih.step hs

/-- After a crash at any step of a disciplined run, replay of the file that is
found shows of every key of the disk what replay of the original log shows, at
every time that is not before the checkpoints. -/
theorem Ckpt.Run.crash_replay_eq (h : s.Run codec .ordered keepTombstone d) {file : List WALEntry}
    (hfile : file ∈ s.crashImages) {key : Key} (hkey : s.sys.se.disk key = d) {nowUs : Int}
    (hnow : ∀ t ∈ s.clocks, t ≤ nowUs) :
    s.sys.se.replayFile codec file key nowUs = s.sys.se.replayedView codec key nowUs :=
  (h.sound.images file hfile).replayFile_eq h.sound.ordered hkey hnow

theorem Ckpt.Run.build {P : CkptDiscipline} {fenceOff version : Nat} {nowNs : Int}
    {shards : List Nat} (h : s.Run codec P keepTombstone d)
    (hphase : s.phase = .building fenceOff version nowNs shards []) :
    Ckpt.Run codec P keepTombstone d
      { s with
        phase := .building fenceOff version nowNs [] (s.sys.se.index.checkpointShards
          s.sys.se.kvSep keepTombstone version nowNs shards) } :=
  h.step (.build s fenceOff version nowNs shards [] [] (by rw [append_nil, hphase]))

theorem Ckpt.Run.checkpoint {P : CkptDiscipline} (h : s.Run codec P keepTombstone d)
    (hphase : s.phase = .idle)
    (hquiet : ∀ w ∈ s.sys.writers, w.disk = d → w.inFlight = true → False)
    (hP : ∀ s', s'.sys.writers = s.sys.writers → P.fence d s') (nowNs : Int)
    (himage : s.sys.se.index.checkpointShards s.sys.se.kvSep keepTombstone
      (s.sys.se.version + 1) nowNs (diskShards d s.sys.se.numDisks) = image) :
    Ckpt.Run codec P keepTombstone d
      { sys := { s.sys with se := s.sys.se.nextVersion, epoch := s.sys.epoch + 1 }
        file := image
        reverts := []
        phase := .idle
        clocks := nowNs.tdiv 1000 :: s.clocks } := by
  have h₁ := h.step (.start s hphase)
  have h₂ := h₁.step (.fence _ _ rfl (hP _ rfl))
  have h₃ := h₂.step (.drained _ _ _ _ nowNs rfl fun w hw hd hfly => (hquiet w hw hd hfly).elim)
  have h₄ := h₃.build rfl
  have h₅ := h₄.step (.copyTail _ _ _ _ _ 0 rfl (Nat.le_refl _))
  have h₆ := h₅.step (.rename _ _ _ _ rfl)
  have h₇ := h₆.step (.swapped _ rfl)
  simp only [take_zero, Nat.add_zero, drop_length, append_nil] at h₇
  rw [← himage]
  exact h₇

/-- A put, then another one while a checkpoint is between its fence and the rename, and
a crash. -/
theorem crash_replay_eq_two_puts :
    ∃ s : Ckpt, s.Run .plain .ordered (fun _ _ => false) 0 ∧ s.clocks = [20] ∧
      s.sys.se.replayFile .plain s.file [107] 30 = s.sys.se.replayedView .plain [107] 30 ∧
      s.sys.se.replayedView .plain [107] 30 = some ([98], 0) := by
  have h : Ckpt.Run .plain .ordered (fun _ _ => false) 0 (.create true 1) := .create true 1
  have h := h.step (.writer _ _ (.stamp _ ⟨10, 10⟩ (putK [97]) rfl fun _ => rfl))
  have h := h.step (.writer _ _ (.enter _ [] [] none 0 0 ⟨10, 10⟩ (putK [97]) rfl))
  have h := h.step (.writer _ _ (.prepare _ [] [] none 0 0 ⟨10, 10⟩ (putK [97]) rfl))
  have h := h.step (.append _ _ _ (.append _ [] [] none 0 0 _ [] [] rfl
    ⟨fun r hr => (by cases hr), fun h => (by cases h)⟩) rfl (by simp [Ckpt.create])
    ⟨rfl, by decide⟩)
  have h := h.step (.writer _ _ (.install _ [] [] none 0 0 _ [] rfl (by simp) rfl))
  have h := h.step (.writer _ _ (.exit _ [] [] none 0 0 rfl))
  have h := h.step (.start _ rfl)
  have h := h.step (.fence _ _ rfl fun w hw => (by cases hw))
  have h := h.step (.writer _ _ (.stamp _ ⟨20, 20⟩ (putK [98]) rfl fun _ => rfl))
  have h := h.step (.writer _ _ (.enter _ [] [] none 0 0 ⟨20, 20⟩ (putK [98]) rfl))
  have h := h.step (.writer _ _ (.prepare _ [] [] none 0 1 ⟨20, 20⟩ (putK [98]) rfl))
  have h := h.step (.append _ _ _ (.append _ [] [] none 0 1 _ [] [] rfl
    ⟨fun r hr => (by rw [mem_singleton.mp hr]; decide), fun h => (by cases h)⟩) rfl
    (fun h => (by cases h)) ⟨rfl, by decide⟩)
  have h := h.step (.drained _ _ _ _ 20000 rfl
    fun w hw _ _ => (by rw [mem_singleton.mp hw]; decide))
  have h := h.build rfl
  have h := h.step (.writer _ _ (.install _ [] [] none 0 1 _ [] rfl (by simp) rfl))
  have h := h.step (.writer _ _ (.exit _ [] [] none 0 1 rfl))
  have h := h.step (.copyTail _ _ _ _ _ 0 rfl (by decide))
  have h := h.step (.rename _ _ _ _ rfl)
  have h := h.step (.swapped _ rfl)
  have hnow : ∀ t ∈ [(20 : Int)], t ≤ 30 := by decide
  exact ⟨_, h, rfl, Ckpt.Run.crash_replay_eq h (mem_cons_self ..) rfl hnow, rfl⟩

theorem ShardedIndex.checkpointShards_eq_nil {idx : ShardedIndex} {kvSep : Bool}
    {keepTombstone : Int → Int → Bool}
    (h : ∀ k ∈ idx.keys, idx.checkpointKey kvSep keepTombstone version nowNs k = none)
    (shards : List Nat) : idx.checkpointShards kvSep keepTombstone version nowNs shards = [] := by
  refine flatMap_eq_nil_iff.mpr fun i _ => filterMap_eq_nil_iff.mpr fun k hk => ?_
  exact h k (mem_filter.mp hk).1

def delK : WriteRequest := .delete (putRecord 0 0 [] [] 0 false) [107] false

/-- A put takes stamp 10 and waits; the key is deleted with stamp 20; a checkpoint writes nothing
of it; the put goes on.  The original log replays to a deleted key, the file
to the put. -/
theorem crash_replay_ne_late_put :
    ∃ s : Ckpt, s.Run .plain .none (fun _ _ => false) 0 ∧ s.phase = .idle ∧
      s.sys.writers = [] ∧ s.clocks = [25] ∧
      s.sys.se.replayedView .plain [107] 30 = none ∧
      s.sys.se.replayFile .plain s.file [107] 30 = some ([97], 0) := by
  have h₀ : Ckpt.Run .plain .none (fun _ _ => false) 0 (.create true 1) := .create true 1
  have h₁ := h₀.step (.writer _ _ (.stamp _ ⟨10, 10⟩ (putK [97]) rfl fun _ => rfl))
  have h₂ := h₁.step (.writer _ _ (.stamp _ ⟨20, 20⟩ delK rfl fun _ => rfl))
  have h₃ := h₂.step (.writer _ _ (.enter _ [_] [] none 0 0 ⟨20, 20⟩ delK rfl))
  have h₄ := h₃.step (.writer _ _ (.prepare _ [_] [] none 0 0 ⟨20, 20⟩ delK rfl))
  have h₅ := h₄.step (.append _ _ _ (.append _ [_] [] none 0 0 _ [] [] rfl trivial) rfl
    (fun h => (by cases h)) trivial)
  have h₆ := h₅.step (.writer _ _ (.install _ [_] [] none 0 0 _ [] rfl
    (by simp [Writer.holdsShard]) trivial))
  have h₇ := h₆.step (.writer _ _ (.exit _ [_] [] none 0 0 rfl))
  have h₈ := h₇.checkpoint rfl (fun w hw hd hfly => (by cases hw with
    | head => cases hfly
    | tail _ hw => cases hw)) (fun _ _ => trivial) 25000
    (ShardedIndex.checkpointShards_eq_nil (fun k hk => (by cases hk)) _)
  have h₉ := h₈.step (.writer _ _ (.enter _ [] [] none 0 0 ⟨10, 10⟩ (putK [97]) rfl))
  have h₁₀ := h₉.step (.writer _ _ (.prepare _ [] [] none 0 1 ⟨10, 10⟩ (putK [97]) rfl))
  have h₁₁ := h₁₀.step (.append _ _ _ (.append _ [] [] none 0 1 _ [] [] rfl trivial) rfl
    (fun h => (by cases h)) trivial)
  have h₁₂ := h₁₁.step (.writer _ _ (.install _ [] [] none 0 1 _ [] rfl (by simp) trivial))
  have h₁₃ := h₁₂.step (.writer _ _ (.exit _ [] [] none 0 1 rfl))
  exact ⟨_, h₁₃, rfl, rfl, rfl, rfl, rfl⟩

end Keep

end VeltrixDB.Storage
