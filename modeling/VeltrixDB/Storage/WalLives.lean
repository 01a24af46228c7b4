import VeltrixDB.Storage.WalCodec

/-!
# The lives of a log file

One disk's `wal.log` over any number of process lives.  A life replays the
file and opens it for appending where it ends (`newWriteAheadLog`); the
flusher then appends one batch after another (`flusher` in
`storage/wal.go`).  Nothing truncates the file to the part that was
replayed, so what a torn or failed write left behind stays in front of all
later batches.

Main results:

- Theorem `LifeRun.mem_replayWAL`: when every acknowledged batch is
  appended to a file of whole records, an acknowledged record is replayed
  in every later life.
- Theorem `acknowledged_behind_torn_lost`: behind a torn record an
  acknowledged record is lost.
-/

namespace VeltrixDB.Storage

open List

open Bytes

/-! ## One file -/

/-- A log file in one process life. -/
structure WalFile where
  file : List UInt8
  synced : Nat
  synced_le : synced ≤ file.length
  encoding : WalEncoding

/-- The empty file that the first life creates. -/
def WalFile.create (enc : WalEncoding) : WalFile :=
  { file := [], synced := 0, synced_le := Nat.le_refl _, encoding := enc }

variable (w : WalFile)

/-- The items of a batch as the log of this life writes them. -/
def WalFile.batchRecords (batch : List WALEntry) : List (WalEncoding × WALEntry) :=
  batch.map (w.encoding, ·)

/-- The bytes of a batch: the records of all its items, back to back. -/
def WalFile.batchBytes (batch : List WALEntry) : List UInt8 :=
  walBytes (w.batchRecords batch)

/-! ## What happens to it -/

/-- What the flusher and the process do to the file. -/
inductive WalEvent where
  /-- A batch is written and fsynced, and its waiters are answered nil. -/
  | flush (batch : List WALEntry)
  /-- The write of a batch fails after `written` bytes. -/
  | flushShort (batch : List WALEntry) (written : Nat)
  /-- The fsync after a batch fails. -/
  | flushUnsynced (batch : List WALEntry)
  /-- The process dies, `kept` bytes of the file survive, and the next
  life opens them with its own encoding. -/
  | crash (kept : Nat) (encoding : WalEncoding)

def WalFile.write (bs : List UInt8) : WalFile where
  file := w.file ++ bs
  synced := w.synced
  synced_le := by
    rw [length_append]
    exact Nat.le_add_right_of_le w.synced_le
  encoding := w.encoding

def WalFile.sync : WalFile :=
  { w with synced := w.file.length, synced_le := Nat.le_refl _ }

/-- The next life opens what the crash has kept.  Opening syncs nothing. -/
def WalFile.reopen (kept : Nat) (enc : WalEncoding) : WalFile where
  file := w.file.take kept
  synced := min w.synced (w.file.take kept).length
  synced_le := Nat.min_le_right _ _
  encoding := enc

/-- One event.  A crash keeps every synced byte. -/
def WalFile.step : WalEvent → Option WalFile
  | .flush batch => some (w.write (w.batchBytes batch)).sync
  | .flushShort batch written => some (w.write ((w.batchBytes batch).take written))
  | .flushUnsynced batch => some (w.write (w.batchBytes batch))
  | .crash kept enc => if w.synced ≤ kept then some (w.reopen kept enc) else none

/-- The records answered nil by an event, as replay is meant to return
them. -/
def WalFile.answered : WalEvent → List WalReplayEntry
  | .flush batch => batch.map w.encoding.record
  | _ => []

/-- A run over any number of lives, all of whose steps meet `P`, with
the records answered nil in it. -/
inductive LifeRun (P : WalFile → WalEvent → Prop) : WalFile → List WalReplayEntry → Prop where
  | start (enc : WalEncoding) : LifeRun P (WalFile.create enc) []
  | step {w w' : WalFile} {acked : List WalReplayEntry} (ev : WalEvent) :
      LifeRun P w acked → P w ev → w.step ev = some w' → LifeRun P w' (acked ++ w.answered ev)

/-! ## Files of whole records -/

/-- Records that the callers build, with keys that the format can hold and
lengths within the decoder's bounds. -/
def Sendable (rs : List (WalEncoding × WALEntry)) : Prop :=
  ∀ r ∈ rs, Recordable r ∧ r.2.InBounds r.1.legacyText

/-- The file ends where a record ends: no torn record lies in it. -/
def WalFile.Untorn : Prop :=
  ∃ rs, Sendable rs ∧ w.file = walBytes rs

/-- A batch is answered nil only on a file without a torn record, and only if
the format can hold its records. -/
def AppendsBehindRecords : WalEvent → Prop
  | .flush batch => w.Untorn ∧ Sendable (w.batchRecords batch)
  | _ => True

/-- The first bytes of a file replay to records of the file. -/
theorem mem_replayWAL_of_take {file : List UInt8} {k : Nat} {r : WalReplayEntry}
    (h : r ∈ replayWAL (file.take k)) : r ∈ replayWAL file :=
  local_next.mem_frames_of_mem_take h

theorem mem_replayWAL_take_of_le {file : List UInt8} {j k : Nat} (hjk : j ≤ k)
    {r : WalReplayEntry} (h : r ∈ replayWAL (file.take j)) : r ∈ replayWAL (file.take k) := by
  rw [← Nat.min_eq_left hjk, ← take_take] at h
  exact mem_replayWAL_of_take h

namespace WalFile

variable {w : WalFile}

theorem step_crash {kept : Nat} (h : w.synced ≤ kept) (enc : WalEncoding) :
    w.step (.crash kept enc) = some (w.reopen kept enc) :=
  if_pos h

/-- Records appended to a file without a torn record are all replayed after
those of the file. -/
theorem Untorn.replayWAL_append (h : w.Untorn) {batch : List WALEntry}
    (hbatch : Sendable (w.batchRecords batch)) :
    replayWAL (w.file ++ w.batchBytes batch) =
      replayWAL w.file ++ batch.map w.encoding.record := by
  obtain ⟨rs, hrs, hfile⟩ := h
  have happend : w.file ++ w.batchBytes batch = walBytes (rs ++ w.batchRecords batch) := by
    rw [hfile, batchBytes, walBytes, walBytes, walBytes, flatMap_append]
  have hboth : Sendable (rs ++ w.batchRecords batch) := forall_mem_append.mpr ⟨hrs, hbatch⟩
  rw [happend, replayWAL_walBytes hboth, hfile, replayWAL_walBytes hrs, map_append, batchRecords,
    map_map]
  rfl

/-! ## Acknowledged records -/

theorem acked_step {w' : WalFile} {ev : WalEvent} {acked : List WalReplayEntry}
    (hP : AppendsBehindRecords w ev) (hstep : w.step ev = some w')
    (h : ∀ r ∈ acked, r ∈ replayWAL (w.file.take w.synced)) :
    ∀ r ∈ acked ++ w.answered ev, r ∈ replayWAL (w'.file.take w'.synced) := by
  -- bytes after the synced ones only add records
  have hgrow : ∀ bs, (w.file ++ bs).take w.synced = w.file.take w.synced := fun bs =>
    take_append_of_le_length w.synced_le
  intro r hr
  cases ev with
  | flush =>
    cases hstep
    simp only [sync, write, take_length]
    rw [hP.1.replayWAL_append hP.2]
    rcases mem_append.mp hr with hr | hr
    · exact mem_append_left _ (mem_replayWAL_of_take (h r hr))
    · exact mem_append_right _ hr
  | flushShort | flushUnsynced =>
    cases hstep
    simp only [answered, append_nil] at hr
    simpa only [write, hgrow] using h r hr
  | crash kept =>
    simp only [answered, append_nil] at hr
    simp only [step] at hstep
    split at hstep
    next hkept =>
      cases hstep
      have hsynced : min w.synced (w.file.take kept).length = w.synced := by
        have := w.synced_le
        rw [length_take]
        omega
      simp only [reopen, hsynced, take_take, Nat.min_eq_left hkept]
      exact h r hr
    · cases hstep

end WalFile

/-- In a run whose acknowledged batches are all appended to files without a
torn record, every acknowledged record is replayed by every later life,
whatever the crash that starts it keeps. -/
theorem LifeRun.mem_replayWAL {w : WalFile} {acked : List WalReplayEntry}
    (hrun : LifeRun AppendsBehindRecords w acked) (kept : Nat) (hkept : w.synced ≤ kept)
    (r : WalReplayEntry) (hr : r ∈ acked) : r ∈ replayWAL (w.file.take kept) := by
  have hsynced : ∀ r ∈ acked, r ∈ replayWAL (w.file.take w.synced) := by
    clear hkept hr
    induction hrun with
    | start => intro r hr; cases hr
    | step ev _ hP hstep ih => exact WalFile.acked_step hP hstep ih
  exact mem_replayWAL_take_of_le hkept (hsynced r hr)

/-- A put of the key `a` whose value the value log holds at its first
block. -/
def sampleRecord : WALEntry where
  timestamp := 1000
  key := [97]
  valueLen := 1
  value := []
  checksum := 0
  version := 1
  isTombstone := false
  vlogOffset := 4096
  packed := false
  diskValueLen := 1
  xformFlags := 0
  ttlExpiryUs := 0

theorem built_sampleRecord : sampleRecord.Built where
  valueLen_lt := by decide
  diskValueLen_lt := by decide
  version_lt := by decide
  timestamp_ge := by decide
  timestamp_lt := by decide
  vlogOffset_ge := by decide
  vlogOffset_lt := by decide
  ttlExpiryUs_lt := by decide
  valueLen_eq h := absurd h (by decide)
  value_nil _ := rfl
  tombstone_nil _ := rfl
  checksum_eq h := absurd h (by decide)

def binaryEncoding : WalEncoding := { legacyText := false, dropTTL := false }

def textEncoding : WalEncoding := { legacyText := true, dropTTL := false }

theorem sendable_singleton {e : WALEntry} (hbuilt : e.Built) (hkey : e.TextKey)
    (hbounds : e.InBounds false) (enc : WalEncoding) : Sendable [(enc, e)] := by
  intro r hr
  rw [mem_singleton.mp hr]
  exact ⟨⟨hbuilt, fun _ => hkey⟩, fun _ => hbounds.1 rfl, hbounds.2⟩

theorem sendable_sampleRecord : ∀ enc, Sendable [(enc, sampleRecord)] :=
  sendable_singleton built_sampleRecord ⟨by decide, by decide⟩
    ⟨fun _ => by decide, fun _ => by decide⟩

theorem sendable_inlineEntry : ∀ enc, Sendable [(enc, inlineEntry [98] [1])] :=
  sendable_singleton (built_inlineEntry _ (by decide)) ⟨by decide, by decide⟩
    ⟨fun _ => by decide, fun _ => by decide⟩

/-- The first life acknowledges a batch of two records and dies in the write
of a third, whose bytes are all lost.  The second life writes text,
acknowledges a record, and dies with a torn one after it.  The third life
replays all three acknowledged records, and may lose the torn bytes again. -/
theorem mem_replayWAL_three_lives :
    ∃ (w : WalFile) (acked : List WalReplayEntry),
      LifeRun AppendsBehindRecords w acked ∧
        acked = [sampleRecord.replayed, (inlineEntry [98] [1]).replayed, sampleRecord.replayed] ∧
        w.synced < w.file.length ∧ ∀ r ∈ acked, r ∈ replayWAL (w.file.take w.synced) := by
  have hbatch : Sendable [(binaryEncoding, sampleRecord), (binaryEncoding, inlineEntry [98] [1])] :=
    forall_mem_append.mpr ⟨sendable_sampleRecord _, sendable_inlineEntry _⟩
  have hrun : LifeRun AppendsBehindRecords _ _ :=
    .step (.crash 500 binaryEncoding)
      (.step (.flushShort [sampleRecord] 7)
        (.step (.flush [sampleRecord])
          (.step (.crash 107 textEncoding)
            (.step (.flushShort [sampleRecord] 20)
              (.step (.flush [sampleRecord, inlineEntry [98] [1]]) (.start binaryEncoding)
                ⟨⟨[], (fun _ hr => by cases hr), rfl⟩, hbatch⟩ rfl)
              trivial rfl)
            trivial (WalFile.step_crash (by decide +kernel) _))
          ⟨⟨_, hbatch, by decide +kernel⟩, sendable_sampleRecord _⟩ rfl)
        trivial rfl)
      trivial (WalFile.step_crash (by decide +kernel) _)
  exact ⟨_, _, hrun, by decide +kernel, by decide +kernel,
    fun r hr => hrun.mem_replayWAL _ (Nat.le_refl _) r hr⟩

/-- In the first life the write of a record fails after one byte.  The second
life appends after that byte, syncs, and answers nil.  The third life does
not replay the acknowledged record. -/
theorem acknowledged_behind_torn_lost :
    ∃ (w : WalFile) (acked : List WalReplayEntry) (kept : Nat),
      LifeRun (fun _ _ => True) w acked ∧ w.synced ≤ kept ∧ sampleRecord.replayed ∈ acked ∧
        sampleRecord.replayed ∉ replayWAL (w.file.take kept) := by
  have hrun : LifeRun (fun _ _ => True) _ _ :=
    .step (.flush [sampleRecord])
      (.step (.crash 1 binaryEncoding)
        (.step (.flushShort [sampleRecord] 1) (.start binaryEncoding) trivial rfl)
        trivial rfl)
      trivial rfl
  refine ⟨_, _, _, hrun, Nat.le_refl _, mem_singleton_self _, ?_⟩
  decide +kernel

end VeltrixDB.Storage
