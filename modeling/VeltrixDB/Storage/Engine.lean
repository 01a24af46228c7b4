import VeltrixDB.Storage.Replay

/-!
# The write paths of the engine

The writes of the engine, following `putOrigin` and `delOrigin` in
`storage/engine.go`, `storage/batch.go` and
`storage/atomic_ops.go`.  A write has three parts: it prepares a record and
the change of the index that goes with it, storing the value in the value log;
it appends the record to the log of the key's disk; it installs the change in
the index.  The operations put the three together, one write after the other.

Main definitions:

- `Engine.preparePut` to `Engine.prepareBatch`: the first part of each
  kind of write.
- `Engine.appendWAL`, `Engine.install`: the other two parts.
- `Engine.putOrigin`, `Engine.delOrigin`, `Engine.multiPut`,
  `Engine.atomic`: the operations.
-/

namespace VeltrixDB.Storage

open Function

/-! ## State -/

/-- A storage engine: one log and one value log per disk, one index. -/
structure Engine where
  kvSep : Bool
  numDisks : Nat
  index : ShardedIndex
  vlogs : Nat → VLog
  wals : Nat → List WALEntry
  version : Nat

def Engine.create (kvSep : Bool) (numDisks : Nat) : Engine where
  kvSep := kvSep
  numDisks := numDisks
  index := .empty
  vlogs := fun _ => .create
  wals := fun _ => []
  version := 0

variable (codec : ValueCodec) (se : Engine)

def Engine.disk (key : Key) : Nat := diskFor se.numDisks key

/-- What the index leads to for a key at `nowUs`.  A read asks the cache before
it looks here. -/
def Engine.view (key : Key) (nowUs : Int) : Option (List UInt8 × Int) :=
  se.index.view codec se.vlogs key nowUs

/-- How the log of a disk is replayed at `nowUs`. -/
def Engine.replayConfig (d : Nat) (nowUs : Int) : ReplayConfig where
  codec := codec
  kvSep := se.kvSep
  inOrder := false
  diskIdx := d
  numDisks := se.numDisks
  nowUs := nowUs

/-- The two clock readings of a write: its stamp, and the time that a time to
live counts from. -/
structure WriteClock where
  stampUs : Int
  nowUs : Int
deriving DecidableEq, Repr

/-! ## Writes and their parts -/

/-- The change of the index that a write makes. -/
inductive Install where
  | put (key : Key) (entry : IndexEntry) (value : Option (List UInt8))
  | atomic (key : Key) (entry : IndexEntry)
  | delete (key : Key) (stampUs : Int) (origin : Bool)

/-- A write: the record it logs and the change it then installs. -/
structure Write where
  record : WALEntry
  install : Install

def Engine.appendWAL (r : WALEntry) : Engine :=
  { se with wals := update se.wals (se.disk r.key) (se.wals (se.disk r.key) ++ [r]) }

def Engine.setVLog (d : Nat) (vl : VLog) : Engine :=
  { se with vlogs := update se.vlogs d vl }

def Engine.nextVersion : Engine := { se with version := se.version + 1 }

def Engine.install : Install → Engine
  | .put key e v => { se with index := se.index.put key e v }
  | .atomic key e => { se with index := (se.index.swap key e).setDirty key none }
  | .delete key t origin =>
    let idx := se.index.markTombstone key t
    { se with index := if origin then idx.setReplicaApplied key t else idx }

def Engine.write (w : Write) : Engine :=
  (se.appendWAL w.record).install w.install

/-! ## Records and entries of a put -/

/-- The absolute expiry of a time to live in seconds. -/
def walTTLExpiryUs (nowUs ttl : Int) : Int :=
  if ttl ≤ 0 then 0 else nowUs + ttl * 1000000

def xformByte (compressed encrypted origin : Bool) : UInt8 :=
  (if compressed then flagCompressed else 0) ||| (if encrypted then flagEncrypted else 0) |||
    (if origin then flagReplicaApplied else 0)

def putRecord (stampUs : Int) (version : Nat) (key : Key) (value : List UInt8)
    (ttlExpiryUs : Int) (origin : Bool) : WALEntry where
  timestamp := stampUs * 1000
  key := key
  valueLen := value.length
  value := value
  checksum := computeCRC32C value
  version := version
  isTombstone := false
  vlogOffset := 0
  packed := false
  diskValueLen := 0
  xformFlags := xformByte false false origin
  ttlExpiryUs := ttlExpiryUs

/-- The entry of a put whose value stays in memory. -/
def putEntry (stampUs : Int) (value : List UInt8) (ttlExpiryUs : Int) (origin : Bool) :
    IndexEntry where
  diskOffset := 0
  segmentID := 0
  valueSize := value.length
  uncompressedSize := value.length
  writeTimestampUs := stampUs
  ttlExpiryUs := if 0 < ttlExpiryUs then ttlExpiryUs else 0
  crc32c := computeCRC32C value
  flags := { hasTTL := decide (0 < ttlExpiryUs), replicaApplied := origin }

structure Located where
  disk : Nat
  offset : Nat
  blobLen : Nat
  compressed : Bool
  encrypted : Bool
  packed : Bool

def putRecordAt (stampUs : Int) (version : Nat) (key : Key) (value : List UInt8)
    (ttlExpiryUs : Int) (origin : Bool) (l : Located) : WALEntry :=
  { putRecord stampUs version key value ttlExpiryUs origin with
    value := []
    vlogOffset := l.offset
    packed := l.packed
    diskValueLen := l.blobLen
    xformFlags := xformByte l.compressed l.encrypted origin }

def putEntryAt (stampUs : Int) (value : List UInt8) (ttlExpiryUs : Int) (origin : Bool)
    (l : Located) : IndexEntry :=
  let e := putEntry stampUs value ttlExpiryUs origin
  { e with
    diskOffset := l.offset
    segmentID := l.disk
    valueSize := l.blobLen
    flags := { e.flags with
      compressed := l.compressed
      encrypted := l.encrypted
      packed := l.packed } }

/-- Where the transformed value goes when it is stored at `offset`. -/
def located (d offset : Nat) (value : List UInt8) (packed : Bool) : Located :=
  let t := codec.transform value
  { disk := d, offset := offset, blobLen := t.1.length, compressed := t.2.1, encrypted := t.2.2,
    packed := packed }

def Engine.storeValue (d : Nat) (value : List UInt8) : Engine × Located :=
  let a := (se.vlogs d).beginAppend (codec.transform value).1
  (se.setVLog d a.1, located codec d a.2 value false)

/-! ## Preparing a write -/

variable (clk : WriteClock)

/-- The first part of `putOrigin`: with key-value separation the value goes
to the value log and the record carries its offset, otherwise the record
carries the value and the index is to hold it in memory.  A positive
`expiryUs` replaces the expiry that the time to live gives. -/
def Engine.preparePut (key : Key)
    (value : List UInt8) (ttl expiryUs : Int) (origin : Bool) : Engine × Write :=
  let se := se.nextVersion
  let exp := if 0 < expiryUs then expiryUs else walTTLExpiryUs clk.nowUs ttl
  if se.kvSep then
    let s := se.storeValue codec (se.disk key) value
    (s.1,
      { record := putRecordAt clk.stampUs se.version key value exp origin s.2
        install := .put key (putEntryAt clk.stampUs value exp origin s.2) none })
  else
    (se,
      { record := putRecord clk.stampUs se.version key value exp origin
        install := .put key (putEntry clk.stampUs value exp origin) (some value) })

/-- A put that the engine logged before key-value separation was switched on:
the record carries the value, and the index points to the copy that the
replay after the switch puts into the value log. -/
def Engine.prepareInline (key : Key) (value : List UInt8) (ttl : Int) : Engine × Write :=
  let se := se.nextVersion
  let exp := walTTLExpiryUs clk.nowUs ttl
  let s := se.storeValue codec (se.disk key) value
  (s.1,
    { record := putRecord clk.stampUs se.version key value exp false
      install := .put key (putEntryAt clk.stampUs value exp false s.2) none })

/-- The first part of `delOrigin`.  The record is built in a pooled one,
which keeps some fields of its last use. -/
def Engine.prepareDelete (pooled : WALEntry) (key : Key) (origin : Bool) : Engine × Write :=
  let se := se.nextVersion
  (se,
    { record := { pooled with
        timestamp := clk.stampUs * 1000
        key := key
        valueLen := 0
        value := []
        checksum := 0
        version := se.version
        isTombstone := true
        xformFlags := xformByte false false origin
        ttlExpiryUs := 0 }
      install := .delete key clk.stampUs origin })

/-- The first part of `persistAtomicKVSep`. -/
def Engine.prepareAtomic (key : Key) (value : List UInt8) (ttl : Int) : Engine × Write :=
  let se := se.nextVersion
  let exp := walTTLExpiryUs clk.nowUs ttl
  let s := se.storeValue codec (se.disk key) value
  (s.1,
    { record := putRecordAt clk.stampUs se.version key value exp false s.2
      install := .atomic key (putEntryAt clk.stampUs value exp false s.2) })

/-- One request of a batch, with the clock readings that apply to it. -/
structure MultiPutRequest where
  clk : WriteClock
  key : Key
  value : List UInt8
  ttl : Int

/-- A staged request: where its blob lies relative to the extent. -/
structure StagedEntry where
  req : MultiPutRequest
  relOffset : Nat
  packed : Bool

def stageRequest (acc : VLogBatcher × List StagedEntry)
    (req : MultiPutRequest) : VLogBatcher × List StagedEntry :=
  let s := acc.1.stage (codec.transform req.value).1
  (s.1, acc.2 ++ [{ req := req, relOffset := s.2.1, packed := s.2.2 }])

variable (reqs : List MultiPutRequest)

def stageAll : VLogBatcher × List StagedEntry :=
  reqs.foldl (stageRequest codec) (.new, [])

/-- The write of a staged request, once its extent starts at `base`. -/
def StagedEntry.write (d base version : Nat) (s : StagedEntry) : Write :=
  let l := located codec d (base + s.relOffset) s.req.value s.packed
  let exp := walTTLExpiryUs s.req.clk.nowUs s.req.ttl
  { record := putRecordAt s.req.clk.stampUs version s.req.key s.req.value exp false l
    install := .put s.req.key (putEntryAt s.req.clk.stampUs s.req.value exp false l) none }

/-- The first part of `multiPutKVSep` on one disk: stage the values, reserve
and write the extent, build the records. -/
def Engine.prepareBatch (d : Nat) : Engine × List Write :=
  let st := stageAll codec (reqs.filter fun q => se.disk q.key = d)
  let a := (se.vlogs d).commit st.1
  let se' := se.setVLog d a.1
  ({ se' with version := se.version + st.2.length },
    st.2.mapIdx fun i s => s.write codec d a.2 (se.version + 1 + i))

/-! ## The operations -/

def Engine.putOrigin (key : Key)
    (value : List UInt8) (ttl expiryUs : Int) (origin : Bool) : Engine :=
  let p := se.preparePut codec clk key value ttl expiryUs origin
  p.1.write p.2

def Engine.delOrigin (pooled : WALEntry) (key : Key) (origin : Bool) : Engine :=
  let p := se.prepareDelete clk pooled key origin
  p.1.write p.2

/-- `persistAtomicKVSep`. -/
def Engine.persistAtomic (key : Key) (value : List UInt8) (ttl : Int) : Engine :=
  let p := se.prepareAtomic codec clk key value ttl
  p.1.write p.2

/-- `readUnderShardLockKVSep`: an error, or the value if the key is live. -/
def Engine.readUnderShardLock (key : Key) (nowUs : Int) : Option (Option (List UInt8)) :=
  match se.index.entries key with
  | none => some none
  | some e =>
    if e.flags.tombstone ∨ e.isExpired nowUs then some none
    else if se.index.dirtyValues key = none ∧ e.diskOffset = 0 then some none
    else (entryValue codec se.vlogs e (se.index.dirtyValues key)).map some

/-- Addition that stops at the ends of a 64-bit word. -/
def saturatingAdd (cur delta : Int) : Int :=
  if 0 < delta ∧ 2 ^ 63 ≤ cur + delta then 2 ^ 63 - 1
  else if delta < 0 ∧ cur + delta < -2 ^ 63 then -2 ^ 63
  else cur + delta

/-- The value `CompareAndSwap` writes, if it swaps. -/
def Engine.compareAndSwapValue (nowUs : Int) (key : Key)
    (expected newValue : List UInt8) : Option (List UInt8) :=
  match se.readUnderShardLock codec key nowUs with
  | some (some cur) => if cur = expected then some newValue else none
  | _ => none

/-- The value `Increment` writes, unless it fails. -/
def Engine.incrementValue (nowUs : Int) (key : Key) (delta : Int) : Option (List UInt8) :=
  match se.readUnderShardLock codec key nowUs with
  | none => none
  | some none => some (formatInt (saturatingAdd 0 delta))
  | some (some cur) => (parseInt cur).map fun n => formatInt (saturatingAdd n delta)

/-- The value `SetIfNotExists` writes, if it creates the key. -/
def Engine.setIfNotExistsValue (nowUs : Int) (key : Key) (value : List UInt8) :
    Option (List UInt8) :=
  match se.index.entries key with
  | none => some value
  | some e => if e.flags.tombstone ∨ e.isExpired nowUs then some value else none

inductive AtomicOp where
  | compareAndSwap (expected newValue : List UInt8)
  | increment (delta : Int)
  | setIfNotExists (value : List UInt8)

def Engine.atomicValue (nowUs : Int) (key : Key) : AtomicOp → Option (List UInt8)
  | .compareAndSwap expected newValue => se.compareAndSwapValue codec nowUs key expected newValue
  | .increment delta => se.incrementValue codec nowUs key delta
  | .setIfNotExists value => se.setIfNotExistsValue nowUs key value

def Engine.atomic (key : Key) (op : AtomicOp) (ttl : Int) : Engine :=
  if se.kvSep then
    match se.atomicValue codec clk.nowUs key op with
    | some value => se.persistAtomic codec clk key value ttl
    | none => se
  else se

/-- The part of a batch that goes to one disk.  All records are logged and
then all entries installed. -/
def Engine.multiPutDisk (se : Engine) (d : Nat) : Engine :=
  let p := se.prepareBatch codec reqs d
  p.2.foldl (fun se w => se.install w.install)
    (p.2.foldl (fun se w => se.appendWAL w.record) p.1)

/-- `multiPut`: by disk with key-value separation, one put after the other
without. -/
def Engine.multiPut : Engine :=
  if se.kvSep then (List.range se.numDisks).foldl (Engine.multiPutDisk codec reqs) se
  else reqs.foldl (fun se q => se.putOrigin codec q.clk q.key q.value q.ttl 0 false) se

end VeltrixDB.Storage
