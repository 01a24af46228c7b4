import VeltrixDB.Lib.Bytes
import VeltrixDB.Lib.Framing
import Mathlib.Data.List.TakeWhile

/-!
# The write-ahead log's record formats

The two encodings of a record of `wal.log` and the one decoder that reads
both, following `storage/wal.go`, `storage/wal_format.go` and
`replayWAL` in `storage/wal_replay.go`.  A file may mix binary and
text records; the decoder looks at the first byte of each.

Main results:

- Theorem `local_next`: what the decoder reads from the front of a file
  does not depend on the bytes after the record.
- Theorem `WALEntry.Fits.readsBack_binary`: a binary record within the decoder's length
  bounds is read back.
-/

namespace VeltrixDB.Storage

open List

open Bytes

abbrev Key := List UInt8

/-- One record handed to the write-ahead log. -/
structure WALEntry where
  timestamp : Int
  key : Key
  valueLen : Nat
  value : List UInt8
  checksum : UInt32
  version : Nat
  isTombstone : Bool
  vlogOffset : Int
  packed : Bool
  diskValueLen : Nat
  xformFlags : UInt8
  ttlExpiryUs : Int
deriving DecidableEq, Repr

/-- One record read from a log file. -/
structure WalReplayEntry where
  key : Key
  value : List UInt8
  isTombstone : Bool
  version : Nat
  timestampNs : Int
  crc : UInt32
  valueLen : Nat
  vlogOffset : Int
  packed : Bool
  diskLen : Nat
  xflags : UInt8
  ttlExpiryUs : Int
deriving DecidableEq, Repr

def computeCRC32C (bs : List UInt8) : UInt32 :=
  crc32 0x82F63B78 bs

variable (e : WALEntry)

def WALEntry.inline : Bool :=
  !e.isTombstone && decide (0 < e.value.length) && decide (e.vlogOffset = 0)

/-- Length of the stored blob: the plaintext length unless a transform
applied. -/
def WALEntry.diskLen : Nat :=
  if e.diskValueLen = 0 then e.valueLen else e.diskValueLen

def WALEntry.replayed : WalReplayEntry where
  key := e.key
  value := if e.inline then e.value else []
  isTombstone := e.isTombstone
  version := e.version
  timestampNs := e.timestamp
  crc := e.checksum
  valueLen := e.valueLen
  vlogOffset := e.vlogOffset
  packed := e.packed
  diskLen := e.diskLen
  xflags := e.xformFlags
  ttlExpiryUs := if 0 < e.ttlExpiryUs then e.ttlExpiryUs else 0

/-! ## Binary records -/

def walBinMagic : UInt8 := 0xB1

def walBinHeaderSize : Nat := 48

def walBinTTLSize : Nat := 8

def walBinTrailer : Nat := 4

/-- Longest key or inline value the decoder accepts. -/
def walMaxRecordField : Nat := 2 ^ 30

def binFlags : Nat :=
  (if e.isTombstone then 1 else 0) ||| (if e.packed then 2 else 0) ||| (if e.inline then 4 else 0)

/-- The bytes in front of the key.  A record with an expiry is a version 2
record and carries it as a last word. -/
def binHeader : List UInt8 :=
  putUint 1 walBinMagic.toNat ++
  (putUint 1 (if 0 < e.ttlExpiryUs then 2 else 1) ++
  (putUint 2 (binFlags e) ++
  (putUint 4 e.key.length ++
  (putUint 4 e.valueLen ++
  (putUint 4 e.diskLen ++
  (putUint 4 e.checksum.toNat ++
  (putUint 1 e.xformFlags.toNat ++
  (putUint 3 0 ++
  (putUint 8 (ofInt64 e.timestamp) ++
  (putUint 8 e.version ++
  (putUint 8 (ofInt64 e.vlogOffset) ++
  (if 0 < e.ttlExpiryUs then putUint 8 (ofInt64 e.ttlExpiryUs) else []))))))))))))

def binBody : List UInt8 :=
  binHeader e ++ (e.key ++ if e.inline then e.value else [])

def appendWALRecordBinary (buf : List UInt8) (e : WALEntry) : List UInt8 :=
  buf ++ (binBody e ++ putUint walBinTrailer (computeCRC32C (binBody e)).toNat)

variable (r : List UInt8)

/-- Length of the header at the front, by its version byte. -/
def binHeaderLen : Option Nat :=
  if r.length < walBinHeaderSize then none
  else if wordAt 1 1 r = 1 then some walBinHeaderSize
  else if wordAt 1 1 r = 2 then
    if r.length < walBinHeaderSize + walBinTTLSize then none
    else some (walBinHeaderSize + walBinTTLSize)
  else none

def binInline : Bool :=
  (wordAt 2 2 r).testBit 2

def binBodyLen : Nat :=
  wordAt 4 4 r + if binInline r then wordAt 8 4 r else 0

/-- The fields of the record `record` with a header of `hdrLen` bytes.
An inline value has to match the value checksum. -/
def binFields (hdrLen : Nat) (record : List UInt8) : Option WalReplayEntry :=
  let flags := wordAt 2 2 record
  let keyLen := wordAt 4 4 record
  let valueLen := wordAt 8 4 record
  let diskLen := wordAt 12 4 record
  let crc := UInt32.ofNat (wordAt 16 4 record)
  let body := (record.drop hdrLen).take (record.length - walBinTrailer - hdrLen)
  let ttl := toInt64 (wordAt 48 8 record)
  let value := if binInline record then body.drop keyLen else []
  if binInline record ∧ computeCRC32C value ≠ crc then none
  else some
    { key := body.take keyLen
      value := value
      isTombstone := flags.testBit 0
      version := wordAt 32 8 record
      timestampNs := toInt64 (wordAt 24 8 record)
      crc := crc
      valueLen := valueLen
      vlogOffset := toInt64 (wordAt 40 8 record)
      packed := flags.testBit 1
      diskLen := if diskLen = 0 then valueLen else diskLen
      xflags := UInt8.ofNat (wordAt 20 1 record)
      ttlExpiryUs := if walBinHeaderSize < hdrLen ∧ 0 < ttl then ttl else 0 }

/-- Decode the binary record at the front, with its length.  A torn header, a
foreign version, a length beyond the bound, a torn body and a bad checksum all
end the replay. -/
def nextBinary : Option (WalReplayEntry × Nat) :=
  match binHeaderLen r with
  | none => none
  | some hdrLen =>
    if walMaxRecordField < wordAt 4 4 r ∨ (binInline r ∧ walMaxRecordField < wordAt 8 4 r) then
      none
    else
      let size := hdrLen + binBodyLen r + walBinTrailer
      if r.length < size then none
      else
        let record := r.take size
        if (computeCRC32C (record.take (size - walBinTrailer))).toNat ≠
            getUint (record.drop (size - walBinTrailer)) then none
        else (binFields hdrLen record).map fun e => (e, size)

/-! ## Text records -/

def ascii (c : Char) : UInt8 := c.toUInt8

/-- Digits of a number in a base up to 16, as `strconv.AppendUint`. -/
def formatUint (base n : Nat) : List UInt8 :=
  (Nat.toDigits base n).map ascii

/-- Decimal digits with a sign, as `strconv.AppendInt`. -/
def formatInt (n : Int) : List UInt8 :=
  if n < 0 then ascii '-' :: formatUint 10 n.natAbs else formatUint 10 n.natAbs

/-- Value of a digit; letters count from ten in either case. -/
def digitVal (b : UInt8) : Option Nat :=
  if ascii '0' ≤ b ∧ b ≤ ascii '9' then some (b.toNat - 48)
  else if ascii 'a' ≤ b ∧ b ≤ ascii 'z' then some (b.toNat - 87)
  else if ascii 'A' ≤ b ∧ b ≤ ascii 'Z' then some (b.toNat - 55)
  else none

/-- Fold the digits of a number, failing on a byte that is no digit of the
base. -/
def parseDigits (base : Nat) : Nat → List UInt8 → Option Nat
  | acc, [] => some acc
  | acc, b :: bs =>
    match digitVal b with
    | none => none
    | some d => if base ≤ d then none else parseDigits base (acc * base + d) bs

def parseUint (base bits : Nat) (s : List UInt8) : Option Nat :=
  if s = [] then none
  else
    match parseDigits base 0 s with
    | none => none
    | some n => if n < 2 ^ bits then some n else none

/-- `strconv.ParseInt` in base 10 with 64 bits. -/
def parseInt (s : List UInt8) : Option Int :=
  let neg := decide (s.head? = some (ascii '-'))
  let digits := if neg ∨ s.head? = some (ascii '+') then s.tail else s
  match parseUint 10 64 digits with
  | none => none
  | some n =>
    if neg then if n ≤ 2 ^ 63 then some (-n) else none
    else if n < 2 ^ 63 then some n else none

/-- Split at a separator into at most `n + 1` parts; the last part keeps
the rest. -/
def splitN (sep : UInt8) : Nat → List UInt8 → List (List UInt8)
  | 0, s => [s]
  | n + 1, s =>
    match s.dropWhile (· ≠ sep) with
    | [] => [s]
    | _ :: rest => s.takeWhile (· ≠ sep) :: splitN sep n rest

def isBlank (b : UInt8) : Bool := b = ascii '\n' || b = ascii '\r'

def inLine (b : UInt8) : Bool := b != ascii '\n'

def trimRight (line : List UInt8) : List UInt8 :=
  (line.reverse.dropWhile isBlank).reverse

/-- Append one text record.  The stored length and the transform flags appear
only when they carry information, the expiry only for a key that has one. -/
def appendWALRecordText (buf : List UInt8) (e : WALEntry) : List UInt8 :=
  let bar := ascii '|'
  let bit := fun b : Bool => if b then ascii '1' else ascii '0'
  buf ++ formatInt e.timestamp ++ [bar, bit e.isTombstone, bar] ++ e.key ++
    bar :: formatUint 10 e.valueLen ++ bar :: formatUint 16 e.checksum.toNat ++
    bar :: formatUint 10 e.version ++ bar :: formatInt e.vlogOffset ++
    [bar, bit e.packed] ++
    (if 0 < e.ttlExpiryUs ∨ e.xformFlags ≠ 0 ∨ e.diskLen ≠ e.valueLen then
      bar :: formatUint 10 e.diskLen ++ bar :: formatUint 16 e.xformFlags.toNat
    else []) ++
    (if 0 < e.ttlExpiryUs then bar :: formatInt e.ttlExpiryUs else []) ++
    ascii '\n' :: (if e.inline then e.value ++ [ascii '\n'] else [])

def textOptional (e : WalReplayEntry) : List (List UInt8) → Option WalReplayEntry
  | [] => some e
  | off :: more =>
    match parseInt off with
    | none => none
    | some vlogOffset =>
      let e := { e with vlogOffset := vlogOffset }
      match more with
      | [] => some e
      | pk :: more =>
        let e := { e with packed := decide (pk = [ascii '1']) }
        match more with
        | dl :: xf :: more =>
          match parseUint 10 32 dl, parseUint 16 8 xf with
          | some dl, some xf =>
            let e := { e with
              diskLen := if 0 < dl then dl else e.diskLen
              xflags := UInt8.ofNat xf }
            match more with
            | [] => some e
            | ttl :: _ =>
              (parseInt ttl).map fun t =>
                { e with ttlExpiryUs := if 0 < t then t else e.ttlExpiryUs }
          | _, _ => none
        | _ => some e

/-- Decode the header line of a text record: 6, 7, 8, 10 or 11 fields. -/
def textHeader (line : List UInt8) : Option WalReplayEntry :=
  match splitN (ascii '|') 10 (trimRight line) with
  | ts :: tomb :: key :: vl :: crc :: ver :: more =>
    match parseInt ts, parseUint 10 32 vl, parseUint 16 32 crc, parseUint 10 64 ver with
    | some ts, some vl, some crc, some ver =>
      textOptional
        { key := key
          value := []
          isTombstone := decide (tomb = [ascii '1'])
          version := ver
          timestampNs := ts
          crc := UInt32.ofNat crc
          valueLen := vl
          vlogOffset := 0
          packed := false
          diskLen := vl
          xflags := 0
          ttlExpiryUs := 0 } more
    | _, _, _, _ => none
  | _ => none

/-- Read the value line that follows a header in `rest`. -/
def textValue (e : WalReplayEntry) (rest : List UInt8) : Option (WalReplayEntry × Nat) :=
  let n := e.valueLen
  if walMaxRecordField < n then none
  else if rest.length < n + 1 then none
  else if rest.getD n 0 ≠ ascii '\n' then none
  else if computeCRC32C (rest.take n) ≠ e.crc then none
  else some ({ e with value := rest.take n }, n + 1)

def nextText : Option (WalReplayEntry × Nat) :=
  let line := r.takeWhile inLine
  if r.length ≤ line.length then none -- header without its newline
  else
    match textHeader line with
    | none => none
    | some e =>
      if !e.isTombstone ∧ 0 < e.valueLen ∧ e.vlogOffset = 0 then
        (textValue e (r.drop (line.length + 1))).map fun p => (p.1, line.length + 1 + p.2)
      else some (e, line.length + 1)

/-! ## The decoder -/

/-- Append one record in the format of a log: binary, text, or text without
the expiry field. -/
def appendWALRecordEnc (buf : List UInt8) (e : WALEntry) (legacyText dropTTL : Bool) :
    List UInt8 :=
  if legacyText then
    if dropTTL ∧ e.ttlExpiryUs ≠ 0 then appendWALRecordText buf { e with ttlExpiryUs := 0 }
    else appendWALRecordText buf e
  else appendWALRecordBinary buf e

/-- Decode the next record of either format, with the number of bytes up to
its end; blank lines in front of it are skipped.  Nothing is returned at the
end of the file and at bytes that are no whole record: the replay ends there
either way. -/
def next : Option (WalReplayEntry × Nat) :=
  let blanks := (r.takeWhile isBlank).length
  match r.dropWhile isBlank with
  | [] => none
  | b :: rest =>
    (if b = walBinMagic then nextBinary (b :: rest) else nextText (b :: rest)).map
      fun p => (p.1, blanks + p.2)

/-- The records of a log file, up to the first that cannot be read. -/
def replayWAL (file : List UInt8) : List WalReplayEntry :=
  Framing.frames next file

/-! ## The decoder looks no further than the record -/

variable {r : List UInt8} {e : WalReplayEntry}

theorem binHeaderLen_le {k : Nat} (h : binHeaderLen r = some k) :
    walBinHeaderSize ≤ k ∧ k ≤ r.length := by
  rw [binHeaderLen] at h
  split at h
  · cases h
  · split at h
    · cases h; omega
    · split at h
      · split at h
        · cases h
        · cases h; omega
      · cases h

theorem binHeaderLen_append {k : Nat} (h : binHeaderLen r = some k) (rest : List UInt8) :
    binHeaderLen (r ++ rest) = some k := by
  have hlen := binHeaderLen_le h
  have hver : wordAt 1 1 (r ++ rest) = wordAt 1 1 r :=
    wordAt_append (by simp only [walBinHeaderSize] at hlen; omega) rest
  rw [binHeaderLen] at h ⊢
  rw [hver, length_append]
  split at h
  · cases h
  · rw [if_neg (by omega)]
    split at h
    next hv => rw [if_pos hv]; exact h
    next hv =>
      rw [if_neg hv]
      split at h
      next hv2 =>
        rw [if_pos hv2]
        split at h
        · cases h
        · rw [if_neg (by omega)]
          exact h
      · cases h

/-- What a decoded binary record says about its bytes. -/
theorem nextBinary_eq_some {n : Nat} (h : nextBinary r = some (e, n)) :
    ∃ hdrLen, binHeaderLen r = some hdrLen ∧ n = hdrLen + binBodyLen r + walBinTrailer ∧
      n ≤ r.length := by
  rw [nextBinary] at h
  cases hh : binHeaderLen r with
  | none => simp [hh] at h
  | some hdrLen =>
    simp only [hh] at h
    split at h
    · cases h
    · split at h
      · cases h
      next hsize =>
        split at h
        · cases h
        · simp only [Option.map_eq_some_iff, Prod.mk.injEq] at h
          obtain ⟨_, _, _, hn⟩ := h
          exact ⟨hdrLen, rfl, hn.symm, by omega⟩

theorem nextBinary_append {n : Nat} (h : nextBinary r = some (e, n)) (rest : List UInt8) :
    nextBinary (r ++ rest) = some (e, n) := by
  obtain ⟨hdrLen, hh, hn, hle⟩ := nextBinary_eq_some h
  have hlen := binHeaderLen_le hh
  simp only [walBinHeaderSize] at hlen
  -- the header words and the bytes of the record are the same in both inputs
  have hkey : wordAt 4 4 (r ++ rest) = wordAt 4 4 r := wordAt_append (by omega) rest
  have hval : wordAt 8 4 (r ++ rest) = wordAt 8 4 r := wordAt_append (by omega) rest
  have hinl : binInline (r ++ rest) = binInline r := by
    rw [binInline, binInline, wordAt_append (by omega)]
  have hbody : binBodyLen (r ++ rest) = binBodyLen r := by
    rw [binBodyLen, binBodyLen, hkey, hval, hinl]
  have htake : (r ++ rest).take n = r.take n := take_append_of_le_length hle
  have hlong : (r ++ rest).length < n ↔ r.length < n := by rw [length_append]; omega
  rw [← h]
  simp only [nextBinary, binHeaderLen_append hh rest, hh, hkey, hval, hinl, hbody, ← hn, htake,
    hlong]

theorem takeWhile_append_of_lt {p : UInt8 → Bool} (h : (r.takeWhile p).length < r.length)
    (rest : List UInt8) : (r ++ rest).takeWhile p = r.takeWhile p := by
  rw [takeWhile_append, if_neg (by omega)]

theorem textValue_append {e' : WalReplayEntry} {n : Nat} (h : textValue e r = some (e', n))
    (rest : List UInt8) : n ≤ r.length ∧ textValue e (r ++ rest) = some (e', n) := by
  simp only [textValue] at h ⊢
  split at h
  · cases h
  next hmax =>
    split at h
    · cases h
    next hlen =>
      have htake : (r ++ rest).take e.valueLen = r.take e.valueLen :=
        take_append_of_le_length (by omega)
      have hget : (r ++ rest).getD e.valueLen 0 = r.getD e.valueLen 0 := by
        rw [getD_eq_getElem?_getD, List.getElem?_append_left (by omega), ← getD_eq_getElem?_getD]
      rw [if_neg hmax, if_neg (by rw [length_append]; omega), htake, hget]
      refine ⟨?_, h⟩
      split at h
      · cases h
      · split at h
        · cases h
        · simp only [Option.some.injEq, Prod.mk.injEq] at h
          omega

theorem nextText_append {n : Nat} (h : nextText r = some (e, n)) (rest : List UInt8) :
    (0 < n ∧ n ≤ r.length) ∧ nextText (r ++ rest) = some (e, n) := by
  simp only [nextText] at h ⊢
  split at h
  · cases h
  next hline =>
    rw [takeWhile_append_of_lt (by omega) rest, if_neg (by rw [length_append]; omega)]
    cases hh : textHeader (r.takeWhile inLine) with
    | none => simp [hh] at h
    | some =>
      simp only [hh] at h ⊢
      split at h
      next hval =>
        simp only [Option.map_eq_some_iff] at h
        obtain ⟨⟨e₁, m⟩, hv, he⟩ := h
        obtain ⟨hm, hv'⟩ := textValue_append hv rest
        rw [if_pos hval, drop_append_of_le_length (by omega), hv']
        simp only [Prod.mk.injEq] at he
        rw [length_drop] at hm
        refine ⟨by omega, ?_⟩
        simp [he]
      next hval =>
        rw [if_neg hval]
        simp only [Option.some.injEq, Prod.mk.injEq] at h ⊢
        exact ⟨by omega, h⟩

theorem local_next : Framing.Local next := by
  have key : ∀ {r e n}, next r = some (e, n) →
      (0 < n ∧ n ≤ r.length) ∧ ∀ rest, next (r ++ rest) = some (e, n) := by
    intro r e n h
    have hsplit : r.takeWhile isBlank ++ r.dropWhile isBlank = r := takeWhile_append_dropWhile
    have hlen : (r.takeWhile isBlank).length + (r.dropWhile isBlank).length = r.length := by
      rw [← length_append, hsplit]
    cases hd : r.dropWhile isBlank with
    | nil => simp [next, hd] at h
    | cons b tl =>
      simp only [next, hd, Option.map_eq_some_iff] at h
      obtain ⟨⟨e', m⟩, hdec, he⟩ := h
      simp only [Prod.mk.injEq] at he
      obtain ⟨rfl, rfl⟩ := he
      rw [hd] at hlen
      have hblank : ∀ rest, (r ++ rest).takeWhile isBlank = r.takeWhile isBlank ∧
          (r ++ rest).dropWhile isBlank = b :: (tl ++ rest) := by
        intro rest
        have hlt : (r.takeWhile isBlank).length < r.length := by
          rw [length_cons] at hlen; omega
        refine ⟨takeWhile_append_of_lt hlt rest, ?_⟩
        rw [dropWhile_append, hd]
        simp
      by_cases hb : b = walBinMagic
      · rw [if_pos hb] at hdec
        obtain ⟨k, -, hm, hle⟩ := nextBinary_eq_some hdec
        refine ⟨⟨?_, by omega⟩, fun rest => ?_⟩
        · simp only [walBinTrailer] at hm; omega
        · simp only [next, (hblank rest).1, (hblank rest).2]
          rw [if_pos hb, ← cons_append, nextBinary_append hdec rest]
          rfl
      · rw [if_neg hb] at hdec
        have hle := (nextText_append hdec []).1
        refine ⟨⟨by omega, by omega⟩, fun rest => ?_⟩
        simp only [next, (hblank rest).1, (hblank rest).2]
        rw [if_neg hb, ← cons_append, (nextText_append hdec rest).2]
        rfl
  exact ⟨fun h => (key h).1, fun h => (key h).2⟩

/-! ## Records are read back -/

/-- The bytes are one record that the decoder reads as `e`. -/
def ReadsBack (bs : List UInt8) (e : WalReplayEntry) : Prop :=
  next bs = some (e, bs.length)

instance (bs : List UInt8) (e : WalReplayEntry) : Decidable (ReadsBack bs e) :=
  inferInstanceAs (Decidable (next bs = some (e, bs.length)))

def binHeaderSize (e : WALEntry) : Nat :=
  if 0 < e.ttlExpiryUs then walBinHeaderSize + walBinTTLSize else walBinHeaderSize

theorem length_binHeader (e : WALEntry) : (binHeader e).length = binHeaderSize e := by
  simp only [binHeader, binHeaderSize, walBinHeaderSize, walBinTTLSize]
  split <;> simp

theorem binFlags_lt (e : WALEntry) : binFlags e < 256 ^ 2 := by
  rw [binFlags]
  cases e.isTombstone <;> cases e.packed <;> cases e.inline <;> decide

theorem testBit_binFlags (e : WALEntry) :
    (binFlags e).testBit 0 = e.isTombstone ∧ (binFlags e).testBit 1 = e.packed ∧
      (binFlags e).testBit 2 = e.inline := by
  rw [binFlags]
  cases e.isTombstone <;> cases e.packed <;> cases e.inline <;> decide

/-- The words of a header, whatever follows it. -/
theorem words_binHeader (e : WALEntry) (rest : List UInt8) :
    wordAt 1 1 (binHeader e ++ rest) = (if 0 < e.ttlExpiryUs then 2 else 1) ∧
    wordAt 2 2 (binHeader e ++ rest) = binFlags e ∧
    wordAt 4 4 (binHeader e ++ rest) = e.key.length % 2 ^ 32 ∧
    wordAt 8 4 (binHeader e ++ rest) = e.valueLen % 2 ^ 32 ∧
    wordAt 12 4 (binHeader e ++ rest) = e.diskLen % 2 ^ 32 ∧
    wordAt 16 4 (binHeader e ++ rest) = e.checksum.toNat ∧
    wordAt 20 1 (binHeader e ++ rest) = e.xformFlags.toNat ∧
    wordAt 24 8 (binHeader e ++ rest) = ofInt64 e.timestamp ∧
    wordAt 32 8 (binHeader e ++ rest) = e.version % 2 ^ 64 ∧
    wordAt 40 8 (binHeader e ++ rest) = ofInt64 e.vlogOffset := by
  have h4 : e.checksum.toNat % 256 ^ 4 = e.checksum.toNat := Nat.mod_eq_of_lt e.checksum.toNat_lt
  have h8 : ∀ x, ofInt64 x % 256 ^ 8 = ofInt64 x := fun x => Nat.mod_eq_of_lt (ofInt64_lt x)
  have h1 : e.xformFlags.toNat % 256 ^ 1 = e.xformFlags.toNat :=
    Nat.mod_eq_of_lt e.xformFlags.toNat_lt
  refine ⟨?_, ?_, ?_, ?_, ?_, ?_, ?_, ?_, ?_, ?_⟩ <;>
    simp only [binHeader, append_assoc] <;>
    simp (disch := omega) only [wordAt_putUint_append, Nat.reduceSub, Nat.sub_self,
      wordAt_zero_putUint, h4, h8, h1]
  · split <;> rfl
  · exact Nat.mod_eq_of_lt (binFlags_lt e)
  all_goals rfl

theorem wordAt_ttlExpiryUs {e : WALEntry} (h : 0 < e.ttlExpiryUs) (rest : List UInt8) :
    wordAt 48 8 (binHeader e ++ rest) = ofInt64 e.ttlExpiryUs := by
  have h8 : ∀ x, ofInt64 x % 256 ^ 8 = ofInt64 x := fun x => Nat.mod_eq_of_lt (ofInt64_lt x)
  simp only [binHeader, append_assoc, if_pos h]
  simp (disch := omega) only [wordAt_putUint_append, Nat.reduceSub, Nat.sub_self,
    wordAt_zero_putUint, h8]

/-- A record the engine builds: its numbers fit their machine words, key and
inline value are within the decoder's bounds, and an inline value is described
by its length and checksum. -/
structure WALEntry.Fits (e : WALEntry) : Prop where
  key_le : e.key.length ≤ walMaxRecordField
  value_le : e.inline = true → e.value.length ≤ walMaxRecordField
  valueLen_eq : e.inline = true → e.valueLen = e.value.length
  checksum_eq : e.inline = true → e.checksum = computeCRC32C e.value
  valueLen_lt : e.valueLen < 2 ^ 32
  diskLen_lt : e.diskLen < 2 ^ 32
  version_lt : e.version < 2 ^ 64
  timestamp_ge : -2 ^ 63 ≤ e.timestamp
  timestamp_lt : e.timestamp < 2 ^ 63
  vlogOffset_ge : -2 ^ 63 ≤ e.vlogOffset
  vlogOffset_lt : e.vlogOffset < 2 ^ 63
  ttlExpiryUs_lt : e.ttlExpiryUs < 2 ^ 63

section BinaryRoundTrip

variable {e : WALEntry}

theorem binHeaderLen_binHeader (e : WALEntry) (rest : List UInt8) :
    binHeaderLen (binHeader e ++ rest) = some (binHeaderSize e) := by
  have hver := (words_binHeader e rest).1
  have hlen : (binHeader e ++ rest).length = binHeaderSize e + rest.length := by
    rw [length_append, length_binHeader]
  rw [binHeaderLen, hver, hlen, binHeaderSize]
  by_cases h : 0 < e.ttlExpiryUs
  · simp [h, walBinHeaderSize, walBinTTLSize]
    omega
  · simp [h, walBinHeaderSize]

theorem binInline_binHeader (e : WALEntry) (rest : List UInt8) :
    binInline (binHeader e ++ rest) = e.inline := by
  rw [binInline, (words_binHeader e rest).2.1, (testBit_binFlags e).2.2]

namespace WALEntry

theorem Fits.wordAt_key (h : e.Fits) (rest : List UInt8) :
    wordAt 4 4 (binHeader e ++ rest) = e.key.length := by
  have hk : e.key.length < 2 ^ 32 :=
    Nat.lt_of_le_of_lt h.key_le (by decide)
  rw [(words_binHeader e rest).2.2.1, Nat.mod_eq_of_lt hk]

theorem Fits.binBodyLen_eq (h : e.Fits) (rest : List UInt8) :
    binBodyLen (binHeader e ++ rest) = (e.key ++ if e.inline then e.value else []).length := by
  rw [binBodyLen, h.wordAt_key, binInline_binHeader, (words_binHeader e rest).2.2.2.1,
    Nat.mod_eq_of_lt h.valueLen_lt, length_append]
  cases hi : e.inline with
  | true => rw [if_pos rfl, if_pos rfl, h.valueLen_eq hi]
  | false => rfl

/-- The fields are read back from the bytes of a record. -/
theorem Fits.binFields_eq (h : e.Fits) (trailer : List UInt8)
    (ht : trailer.length = walBinTrailer) :
    binFields (binHeaderSize e) (binBody e ++ trailer) = some e.replayed := by
  obtain ⟨-, hflags, -, hvl, hdl, hcrc, hxf, hts, hver, hoff⟩ :=
    words_binHeader e ((e.key ++ if e.inline then e.value else []) ++ trailer)
  have hkey := h.wordAt_key ((e.key ++ if e.inline then e.value else []) ++ trailer)
  have hinl := binInline_binHeader e ((e.key ++ if e.inline then e.value else []) ++ trailer)
  have hassoc : binBody e ++ trailer =
      binHeader e ++ ((e.key ++ if e.inline then e.value else []) ++ trailer) := by
    rw [binBody, append_assoc]
  have hbody : ((binBody e ++ trailer).drop (binHeaderSize e)).take
      ((binBody e ++ trailer).length - walBinTrailer - binHeaderSize e) =
      e.key ++ if e.inline then e.value else [] := by
    rw [hassoc, ← length_binHeader, drop_left]
    apply take_left'
    simp only [length_append, ht]
    omega
  have hvalue : (e.key ++ if e.inline then e.value else []).drop e.key.length =
      if e.inline then e.value else [] := drop_left
  have httl : (if walBinHeaderSize < binHeaderSize e ∧
        0 < toInt64 (wordAt 48 8 (binBody e ++ trailer)) then
      toInt64 (wordAt 48 8 (binBody e ++ trailer)) else 0) =
      if 0 < e.ttlExpiryUs then e.ttlExpiryUs else 0 := by
    by_cases hpos : 0 < e.ttlExpiryUs
    · rw [hassoc, wordAt_ttlExpiryUs hpos, toInt64_ofInt64 (by omega) h.ttlExpiryUs_lt]
      simp [hpos, binHeaderSize, walBinTTLSize]
    · simp [hpos, binHeaderSize]
  rw [binFields]
  simp only [hbody, httl]
  simp only [hassoc, hinl, hflags, hkey, hvl, hdl, hcrc, hxf, hts, hver, hoff, hvalue,
    (testBit_binFlags e).1, (testBit_binFlags e).2.1, UInt32.ofNat_toNat,
    UInt8.ofNat_toNat, Nat.mod_eq_of_lt h.valueLen_lt, Nat.mod_eq_of_lt h.diskLen_lt,
    Nat.mod_eq_of_lt h.version_lt, toInt64_ofInt64 h.timestamp_ge h.timestamp_lt,
    toInt64_ofInt64 h.vlogOffset_ge h.vlogOffset_lt, take_left]
  have hdisk : (if e.diskLen = 0 then e.valueLen else e.diskLen) = e.diskLen := by
    rw [diskLen]
    split <;> simp_all
  rw [hdisk]
  cases hi : e.inline with
  | true => simp [replayed, hi, h.checksum_eq hi]
  | false => simp [replayed, hi]

theorem Fits.readsBack_binary (h : e.Fits) : ReadsBack (appendWALRecordBinary [] e) e.replayed := by
  have hlen : (putUint walBinTrailer (computeCRC32C (binBody e)).toNat).length = walBinTrailer :=
    length_putUint _ _
  generalize ht : putUint walBinTrailer (computeCRC32C (binBody e)).toNat = trailer at hlen
  have hassoc : binBody e ++ trailer =
      binHeader e ++ ((e.key ++ if e.inline then e.value else []) ++ trailer) := by
    rw [binBody, append_assoc]
  have hsize : binHeaderSize e + binBodyLen (binBody e ++ trailer) + walBinTrailer =
      (binBody e ++ trailer).length := by
    rw [hassoc, h.binBodyLen_eq, ← length_binHeader]
    simp only [length_append, hlen]
    omega
  have hbound : ¬(walMaxRecordField < wordAt 4 4 (binBody e ++ trailer) ∨
      (binInline (binBody e ++ trailer) = true ∧
        walMaxRecordField < wordAt 8 4 (binBody e ++ trailer))) := by
    rw [hassoc, h.wordAt_key, binInline_binHeader, (words_binHeader e _).2.2.2.1,
      Nat.mod_eq_of_lt h.valueLen_lt]
    rintro (hk | ⟨hi, hv⟩)
    · exact Nat.not_lt_of_le h.key_le hk
    · rw [h.valueLen_eq hi] at hv
      exact Nat.not_lt_of_le (h.value_le hi) hv
  have hcut : (binBody e ++ trailer).length - walBinTrailer = (binBody e).length := by
    rw [length_append, hlen, Nat.add_sub_cancel]
  have hcrc : (computeCRC32C (binBody e)).toNat = getUint trailer := by
    rw [← ht, getUint_putUint_of_lt]
    exact (computeCRC32C (binBody e)).toNat_lt
  have hbin : nextBinary (binBody e ++ trailer) =
      some (e.replayed, (binBody e ++ trailer).length) := by
    rw [nextBinary]
    rw [show binHeaderLen (binBody e ++ trailer) = some (binHeaderSize e) by
      rw [hassoc, binHeaderLen_binHeader]]
    simp only [hsize]
    rw [if_neg hbound, if_neg (Nat.lt_irrefl _), take_length, hcut, take_left,
      drop_left, if_neg (by simpa using hcrc), h.binFields_eq trailer hlen]
    rfl
  have hhead : ∃ tl, binBody e ++ trailer = walBinMagic :: tl := by
    rw [hassoc, binHeader]
    exact ⟨_, rfl⟩
  obtain ⟨tl, htl⟩ := hhead
  have hblank : isBlank walBinMagic = false := by decide
  rw [ReadsBack, appendWALRecordBinary, ht, next, htl]
  rw [htl] at hbin
  simp [hblank, hbin]

end WALEntry

end BinaryRoundTrip

end VeltrixDB.Storage
