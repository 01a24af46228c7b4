import VeltrixDB.Lib.Bytes
import VeltrixDB.Lib.Framing
import VeltrixDB.Consensus.Entry
import Mathlib.Data.List.Lemmas

/-!
# The append-only log file

The record format of `raft_log.dat` and its replay, following
`encodeRecords` and `replay` in `consensus/raft_storage.go`.  A
truncation of the log has no record of its own: a record whose index is not
beyond the replayed log supersedes everything from that index on.

Main results:

- Theorem `codec_encodeRecord`: a record that the reader's length bound
  admits is read back, and a record that is cut short is not.
- Theorem `replay_take`: replay of a file cut at any byte after the header
  folds exactly the records that lie completely before the cut.
-/

namespace VeltrixDB.Consensus

open List Framing

open Bytes

/-- A log entry as the log store sees it: the command is a byte string. -/
abbrev DiskEntry := LogEntry (List UInt8)

/-! ## Record format -/

/-- The four magic bytes `VXRL`. -/
def raftLogMagic : List UInt8 := [0x56, 0x58, 0x52, 0x4C]

def raftLogVersion : Nat := 1

def raftLogHdrLen : Nat := 8

/-- Length and checksum in front of every payload. -/
def recHdrLen : Nat := 8

/-- Term, index and type at the front of every payload. -/
def recFixedLen : Nat := 17

/-- Longest payload that replay accepts. -/
def maxRecPayload : Nat := 2 ^ 30

/-- The reflected Castagnoli polynomial. -/
def castagnoli : UInt32 := 0x82F63B78

def checksum (payload : List UInt8) : Nat :=
  (crc32 castagnoli payload).toNat

variable (e : DiskEntry)

def recPayload : List UInt8 :=
  putUint 8 e.term ++ (putUint 8 e.index ++ (e.type :: e.command))

/-- One on-disk record.  The length field is a 32-bit word, whatever the
length of the command. -/
def encodeRecord : List UInt8 :=
  putUint 4 (recPayload e).length ++ (putUint 4 (checksum (recPayload e)) ++ recPayload e)

/-- Append the records of `entries` to `dst`. -/
def encodeRecords (dst : List UInt8) (entries : List DiskEntry) : List UInt8 :=
  entries.foldl (fun d e => d ++ encodeRecord e) dst

def raftLogHeader : List UInt8 :=
  raftLogMagic ++ putUint 4 raftLogVersion

/-! ## Replay -/

/-- The log rebuilt so far, and the highest index that an index gap
discarded. -/
structure ReplayLog (κ : Type) where
  entries : List (LogEntry κ)
  gapFrom : Nat
deriving DecidableEq, Repr

def replayRecord {κ : Type} (acc : ReplayLog κ) (e : LogEntry κ) : ReplayLog κ :=
  match acc.entries.head?, acc.entries.getLast? with
  | some firstEntry, some lastEntry =>
    let first := firstEntry.index
    let last := lastEntry.index
    if e.index ≤ first then
      -- supersedes the whole replayed log
      { acc with entries := [e] }
    else if e.index ≤ last then
      -- conflict overwrite: drop from this index on, then append
      { acc with entries := acc.entries.take (e.index - first) ++ [e] }
    else if last + 1 < e.index then
      { entries := [e], gapFrom := last }
    else
      { acc with entries := acc.entries ++ [e] }
  | _, _ => { acc with entries := acc.entries ++ [e] }

/-- Read the record at offset `good` of a file of `fileSize` bytes,
of which `r` is the unread rest.  Nothing is read from a torn header, a
garbage length, a record that extends past the end, or a bad checksum. -/
def readRecord (fileSize good : Nat) (r : List UInt8) : Option (DiskEntry × Nat) :=
  if r.length < recHdrLen then none
  else
    let n := getUint (r.take 4)
    let sum := getUint ((r.drop 4).take 4)
    if n < recFixedLen ∨ maxRecPayload < n ∨ fileSize < good + recHdrLen + n then none
    else
      let payload := (r.drop recHdrLen).take n
      if payload.length < n then none
      else if checksum payload ≠ sum then none
      else
        some ({ term := getUint (payload.take 8)
                index := getUint ((payload.drop 8).take 8)
                type := payload.getD 16 0
                command := payload.drop recFixedLen }, recHdrLen + n)

/-- The record loop of replay, with the accumulated log and the offset just
past the last good record. -/
def replayLoop (fileSize : Nat) : Nat → List UInt8 → ReplayLog (List UInt8) → Nat →
    ReplayLog (List UInt8) × Nat
  | 0, _, acc, good => (acc, good)
  | fuel + 1, r, acc, good =>
    match readRecord fileSize good r with
    | none => (acc, good)
    | some (e, n) => replayLoop fileSize fuel (r.drop n) (replayRecord acc e) (good + n)

structure Replayed where
  entries : List DiskEntry
  good : Nat
  gapFrom : Nat
deriving DecidableEq, Repr

inductive ReplayError where
  | shortHeader
  | badMagic (found : List UInt8)
  | unsupportedVersion (found : Nat)
deriving DecidableEq, Repr

/-- Replay of `raft_log.dat`; a missing file is created empty. -/
def replay : Option (List UInt8) → Except ReplayError Replayed
  | none => .ok { entries := [], good := raftLogHdrLen, gapFrom := 0 }
  | some file =>
    if file.length < raftLogHdrLen then .error .shortHeader
    else if file.take 4 ≠ raftLogMagic then .error (.badMagic (file.take 4))
    else if getUint ((file.drop 4).take 4) ≠ raftLogVersion then
      .error (.unsupportedVersion (getUint ((file.drop 4).take 4)))
    else
      let (acc, good) := replayLoop file.length (file.length + 1) (file.drop raftLogHdrLen)
        { entries := [], gapFrom := 0 } raftLogHdrLen
      .ok { entries := acc.entries, good := good, gapFrom := acc.gapFrom }

/-! ## Reading what was written -/

def LogEntry.Fits {κ : Type} (e : LogEntry κ) : Prop :=
  e.term < 2 ^ 64 ∧ e.index < 2 ^ 64

/-- The record's payload is within the length that replay accepts. -/
def Readable : Prop :=
  recFixedLen + e.command.length ≤ maxRecPayload

@[simp] theorem length_recPayload :
    (recPayload e).length = recFixedLen + e.command.length := by
  simp [recPayload, recFixedLen]
  omega

@[simp] theorem length_encodeRecord :
    (encodeRecord e).length = recHdrLen + recFixedLen + e.command.length := by
  simp [encodeRecord, recHdrLen]
  omega

@[simp] theorem length_raftLogHeader : raftLogHeader.length = raftLogHdrLen := rfl

theorem encodeRecords_eq (dst : List UInt8) (entries : List DiskEntry) :
    encodeRecords dst entries = dst ++ Framing.flatten encodeRecord entries := by
  induction entries generalizing dst with
  | nil => simp [encodeRecords]
  | cons e es ih =>
    have h := ih (dst ++ encodeRecord e)
    rw [encodeRecords] at h ⊢
    rw [foldl_cons, h, Framing.flatten_cons, append_assoc]

/-- Read one record from the front of a byte string that ends the file. -/
def decodeRecord (r : List UInt8) : Option (DiskEntry × Nat) :=
  readRecord r.length 0 r

/-- Replay's end-of-file test only looks at the unread rest. -/
theorem readRecord_eq_decodeRecord {fileSize good : Nat} {r : List UInt8}
    (h : fileSize = good + r.length) : readRecord fileSize good r = decodeRecord r := by
  have hbound : ∀ n, fileSize < good + recHdrLen + n ↔ r.length < 0 + recHdrLen + n := by
    intro n
    omega
  simp only [readRecord, decodeRecord, hbound]

theorem decodeRecord_some {r : List UInt8} {e : DiskEntry} {n : Nat}
    (h : decodeRecord r = some (e, n)) : n ≤ r.length ∧ Readable e := by
  simp only [decodeRecord, readRecord] at h
  split at h
  · cases h
  · split at h
    · cases h
    next hlen =>
      split at h
      · cases h
      · split at h
        · cases h
        · obtain ⟨rfl, rfl⟩ := h
          simp only [Readable, length_drop, length_take]
          omega

/-- A record cut short is not read. -/
theorem decodeRecord_torn (hread : Readable e) (k : Nat)
    (hk : k < (encodeRecord e).length) : decodeRecord ((encodeRecord e).take k) = none := by
  rw [length_encodeRecord] at hk
  by_cases hhdr : k < recHdrLen
  · have hlen : ((encodeRecord e).take k).length < recHdrLen :=
      lt_of_le_of_lt (length_take_le _ _) hhdr
    simp only [decodeRecord, readRecord, if_pos hlen]
  · have hn : getUint (((encodeRecord e).take k).take 4) = recFixedLen + e.command.length := by
      have h4 : ((encodeRecord e).take k).take 4 = putUint 4 (recPayload e).length := by
        rw [take_take, Nat.min_eq_left (by simp only [recHdrLen] at hhdr; omega), encodeRecord,
          take_left' (length_putUint 4 _)]
      rw [h4, length_recPayload, getUint_putUint_of_lt]
      exact lt_of_le_of_lt hread (by decide)
    have hlen : ((encodeRecord e).take k).length = k := by
      rw [length_take, length_encodeRecord]
      omega
    simp only [decodeRecord, readRecord, hlen]
    rw [if_neg hhdr, if_pos (by omega)]

theorem decodeRecord_encodeRecord (hfits : e.Fits) (hread : Readable e) (rest : List UInt8) :
    decodeRecord (encodeRecord e ++ rest) = some (e, (encodeRecord e).length) := by
  have hn : getUint ((encodeRecord e ++ rest).take 4) = recFixedLen + e.command.length := by
    rw [encodeRecord, append_assoc, take_left' (length_putUint 4 _), length_recPayload,
      getUint_putUint_of_lt]
    exact lt_of_le_of_lt hread (by decide)
  have hsum : getUint (((encodeRecord e ++ rest).drop 4).take 4) = checksum (recPayload e) := by
    rw [encodeRecord, append_assoc, drop_left' (length_putUint 4 _), append_assoc,
      take_left' (length_putUint 4 _), getUint_putUint_of_lt]
    exact (crc32 castagnoli (recPayload e)).toNat_lt
  have hpayload : ((encodeRecord e ++ rest).drop recHdrLen).take
      (recFixedLen + e.command.length) = recPayload e := by
    have hdrop : (encodeRecord e ++ rest).drop recHdrLen = recPayload e ++ rest := by
      rw [encodeRecord, ← append_assoc, append_assoc, drop_left' (by simp [recHdrLen])]
    rw [hdrop, take_left' (length_recPayload e)]
  have hterm : getUint ((recPayload e).take 8) = e.term := by
    rw [recPayload, take_left' (length_putUint 8 _), getUint_putUint_of_lt hfits.1]
  have hindex : getUint (((recPayload e).drop 8).take 8) = e.index := by
    rw [recPayload, drop_left' (length_putUint 8 _), take_left' (length_putUint 8 _),
      getUint_putUint_of_lt hfits.2]
  have hbody : (recPayload e).drop 16 = e.type :: e.command := by
    rw [recPayload, ← append_assoc, drop_left' (by simp)]
  have htype : (recPayload e).getD 16 0 = e.type := by
    rw [getD_eq_getElem?_getD, ← List.head?_drop, hbody]
    rfl
  have hcommand : (recPayload e).drop recFixedLen = e.command := by
    have h17 : recFixedLen = 16 + 1 := rfl
    rw [h17, ← drop_drop, hbody]
    rfl
  have hlen : (encodeRecord e ++ rest).length =
      recHdrLen + recFixedLen + e.command.length + rest.length := by
    rw [length_append, length_encodeRecord]
  simp only [decodeRecord, readRecord, hn, hsum, hpayload, hterm, hindex, htype, hcommand, hlen,
    length_recPayload, length_encodeRecord]
  rw [if_neg (by omega), if_neg, if_neg (by omega), if_neg (by simp), Nat.add_assoc]
  simp only [Readable] at hread
  omega

/-- The writer has no length bound: a record whose payload is longer than the
reader accepts ends replay, with everything after it. -/
theorem decodeRecord_of_not_readable (hread : ¬ Readable e)
    (hword : recFixedLen + e.command.length < 2 ^ 32) (rest : List UInt8) :
    decodeRecord (encodeRecord e ++ rest) = none := by
  have hn : getUint ((encodeRecord e ++ rest).take 4) = recFixedLen + e.command.length := by
    rw [encodeRecord, append_assoc, take_left' (length_putUint 4 _), length_recPayload,
      getUint_putUint_of_lt hword]
  have hlen : recHdrLen ≤ (encodeRecord e ++ rest).length := by
    rw [length_append, length_encodeRecord]
    omega
  simp only [Readable, not_le] at hread
  simp only [decodeRecord, readRecord, hn]
  rw [if_neg (by omega), if_pos (Or.inr (Or.inl hread))]

/-- Records of entries that replay's length bound admits form a frame codec. -/
theorem codec_encodeRecord (hfits : e.Fits) (hread : Readable e) :
    Framing.Codec encodeRecord decodeRecord e where
  decode_encode := decodeRecord_encodeRecord e hfits hread
  decode_torn := decodeRecord_torn e hread
  encode_pos := by simp [recHdrLen]

theorem decodeRecord_nil : decodeRecord [] = none := rfl

/-! ## Replay as a fold over the scanned records -/

theorem replayLoop_eq_scan (fileSize fuel : Nat) (r : List UInt8) (acc : ReplayLog (List UInt8))
    (good : Nat) (h : fileSize = good + r.length) :
    replayLoop fileSize fuel r acc good =
      ((scan decodeRecord fuel r).1.foldl replayRecord acc,
        good + (scan decodeRecord fuel r).2) := by
  induction fuel generalizing r acc good with
  | zero => rfl
  | succ fuel ih =>
    rw [replayLoop, scan, readRecord_eq_decodeRecord h]
    cases hread : decodeRecord r with
    | none => rfl
    | some rec =>
      obtain ⟨e, n⟩ := rec
      have hn := (decodeRecord_some hread).1
      have hrec := ih (r.drop n) (replayRecord acc e) (good + n) (by rw [length_drop]; omega)
      simp only [hrec, foldl_cons, Nat.add_assoc]

/-- The log that a sequence of records rebuilds. -/
def replayRecords {κ : Type} (records : List (LogEntry κ)) : ReplayLog κ :=
  records.foldl replayRecord { entries := [], gapFrom := 0 }

/-- Replay of a file with a good header folds the scanned records. -/
theorem replay_header (body : List UInt8) :
    replay (some (raftLogHeader ++ body)) =
      let s := scan decodeRecord (raftLogHdrLen + body.length + 1) body
      .ok { entries := (replayRecords s.1).entries, good := raftLogHdrLen + s.2
            gapFrom := (replayRecords s.1).gapFrom } := by
  have hlen : (raftLogHeader ++ body).length = raftLogHdrLen + body.length := by simp
  have hmagic : (raftLogHeader ++ body).take 4 = raftLogMagic := rfl
  have hversion : getUint (((raftLogHeader ++ body).drop 4).take 4) = raftLogVersion := rfl
  have hbody : (raftLogHeader ++ body).drop raftLogHdrLen = body := rfl
  simp only [replay, hlen, hmagic, hversion, hbody]
  rw [if_neg (by simp), replayLoop_eq_scan _ _ _ _ _ rfl]
  rfl

/-- Replay of a file cut at byte `k` after the header folds the records
that lie completely before the cut and reports the end of the last of them. -/
theorem replay_take (records : List DiskEntry) (hrec : ∀ e ∈ records, e.Fits ∧ Readable e) (k : Nat)
    (hk : k ≤ (flatten encodeRecord records).length) :
    replay (some (raftLogHeader ++ (flatten encodeRecord records).take k)) =
      let kept := records.take (framesWithin encodeRecord records k)
      .ok { entries := (replayRecords kept).entries
            good := raftLogHdrLen + (flatten encodeRecord kept).length
            gapFrom := (replayRecords kept).gapFrom } := by
  have hcodec : ∀ e ∈ records, Framing.Codec encodeRecord decodeRecord e :=
    fun e he => codec_encodeRecord e (hrec e he).1 (hrec e he).2
  have hscan := scan_flatten_take records hcodec decodeRecord_nil k
    (raftLogHdrLen + k + 1) (by omega)
  rw [replay_header, length_take_of_le hk]
  simp only [hscan]

theorem readable_of_mem_scan (fuel : Nat) (r : List UInt8) :
    ∀ e ∈ (scan decodeRecord fuel r).1, Readable e := by
  induction fuel generalizing r with
  | zero => simp [scan]
  | succ fuel ih =>
    rw [scan]
    cases hread : decodeRecord r with
    | none => simp
    | some =>
      intro x hx
      rcases mem_cons.1 hx with rfl | hx
      · exact (decodeRecord_some hread).2
      · exact ih _ x hx

/-- Replay looks at indices only. -/
theorem replayRecord_map {κ κ' : Type} (f : LogEntry κ → LogEntry κ')
    (hf : ∀ e, (f e).index = e.index) (acc : ReplayLog κ) (e : LogEntry κ) :
    replayRecord { entries := acc.entries.map f, gapFrom := acc.gapFrom } (f e) =
      { entries := (replayRecord acc e).entries.map f, gapFrom := (replayRecord acc e).gapFrom } := by
  simp only [replayRecord, List.head?_map, List.getLast?_map]
  cases acc.entries.head? with
  | none => simp
  | some =>
    cases acc.entries.getLast? with
    | none => simp
    | some =>
      simp only [Option.map_some, hf]
      split
      · rfl
      · split
        · simp
        · split
          · rfl
          · simp

theorem replayRecords_map {κ κ' : Type} (f : LogEntry κ → LogEntry κ')
    (hf : ∀ e, (f e).index = e.index) (records : List (LogEntry κ)) :
    (replayRecords (records.map f)).entries = (replayRecords records).entries.map f := by
  have hfold : ∀ acc : ReplayLog κ,
      (records.map f).foldl replayRecord { entries := acc.entries.map f, gapFrom := acc.gapFrom } =
        { entries := (records.foldl replayRecord acc).entries.map f
          gapFrom := (records.foldl replayRecord acc).gapFrom } := by
    induction records with
    | nil => intro acc; rfl
    | cons e es ih =>
      intro acc
      rw [map_cons, foldl_cons, foldl_cons, replayRecord_map f hf, ih]
  exact congrArg ReplayLog.entries (hfold { entries := [], gapFrom := 0 })

theorem mem_replayRecord {κ : Type} (acc : ReplayLog κ) (e x : LogEntry κ)
    (hx : x ∈ (replayRecord acc e).entries) : x ∈ acc.entries ∨ x = e := by
  unfold replayRecord at hx
  split at hx
  · dsimp only at hx
    split at hx
    · exact Or.inr (mem_singleton.1 hx)
    · split at hx
      · rcases mem_append.1 hx with h | h
        · exact Or.inl (mem_of_mem_take h)
        · exact Or.inr (mem_singleton.1 h)
      · split at hx
        · exact Or.inr (mem_singleton.1 hx)
        · rcases mem_append.1 hx with h | h
          · exact Or.inl h
          · exact Or.inr (mem_singleton.1 h)
  · rcases mem_append.1 hx with h | h
    · exact Or.inl h
    · exact Or.inr (mem_singleton.1 h)

theorem mem_foldl_replayRecord {κ : Type} (records : List (LogEntry κ)) (acc : ReplayLog κ)
    (x : LogEntry κ) (hx : x ∈ (records.foldl replayRecord acc).entries) :
    x ∈ acc.entries ∨ x ∈ records := by
  induction records generalizing acc with
  | nil => exact Or.inl hx
  | cons e es ih =>
    rcases ih _ hx with h | h
    · rcases mem_replayRecord _ _ _ h with h | rfl
      · exact Or.inl h
      · exact Or.inr (mem_cons_self ..)
    · exact Or.inr (mem_cons_of_mem _ h)

theorem mem_replayRecords {κ : Type} {records : List (LogEntry κ)} {x : LogEntry κ}
    (hx : x ∈ (replayRecords records).entries) : x ∈ records := by
  rcases mem_foldl_replayRecord _ _ x hx with h | h
  · simp at h
  · exact h

theorem readable_of_mem_replay {body : List UInt8} {r : Replayed}
    (h : replay (some (raftLogHeader ++ body)) = .ok r) : ∀ e ∈ r.entries, Readable e := by
  rw [replay_header] at h
  cases h
  intro e he
  rcases mem_foldl_replayRecord _ _ e he with h | h
  · simp at h
  · exact readable_of_mem_scan _ _ e h

end VeltrixDB.Consensus
