import VeltrixDB.Lib.ByteOrder
import VeltrixDB.Lib.SortedTable
import VeltrixDB.Storage.DerivedKeys
import VeltrixDB.Storage.SnapshotCapture

/-!
# The engine as commands see it

What a put, a delete, a batch or a transaction does to an engine with secondary
indexes and search namespaces (`storage/engine.go`, `storage/batch.go`,
`storage/field_index.go`, `storage/search_hooks.go`,
`storage/transaction.go`).  The operations are written over the few accesses that
they make to the index, the cache and the clock; `NodeStore` is the engine with a
cache, with an order of its own for every walk over its tables and with a local
clock.  Logs and value logs are left out: no operation fails and every value can be
read.

Main results:

- Definition `NodeStore.Sound`: the cache holds what the index leads to; kept by
  every access.
-/

open scoped Bytes

namespace VeltrixDB.Storage

open Function

/-! ## Accesses -/

/-- A request of a batch; the time is that of `MultiPutAt`. -/
structure PutReq where
  key : List UInt8
  value : List UInt8
  ttl : Int
  time : Option WriteClock

/-- What operations ask of an engine. -/
structure StorageEngine (m : Type → Type) where
  /-- `Get`. -/
  get : Key → m (Except ApplyError (List UInt8))
  /-- `readUnderShardLockKVSep`. -/
  readLocked : Key → m (Option (List UInt8))
  live : Key → m Bool
  existed : Key → m Bool
  /-- `versionToken` at the time of decisions, 0 without an entry. -/
  token : Key → m Nat
  /-- `writeClock`. -/
  writeClock : m WriteClock
  install : Key → Cell → m Unit
  installAround : Key → Cell → m Unit
  keyValueSeparation : m Bool
  /-- The order in which the goroutines of the disks come to the items of a batch. -/
  diskOrder : List (Key × Cell) → m (List (Key × Cell))
  /-- The order in which the goroutines of the shards come to them. -/
  shardOrder : List PutReq → m (List PutReq)
  remove : Key → Int → m Unit
  removePresent : Key → Int → m Unit
  scan : (Key → Bool) → m (List Key)
  /-- `ScanKeys`: the keys that are live at the local clock. -/
  scanKeys : m (List Key)
  anyOrder : List Key → m (List Key)
  registry : m Registry
  setRegistry : Registry → m Unit
  atTime : ∀ {α : Type}, Option WriteClock → m α → m α

/-! ## Operations -/

section Operations

variable {m : Type → Type} [Monad m] (json : JsonParser) (se : StorageEngine m)

/-- `Put` of an index entry, whose key is neither indexed nor a search key. -/
def putIndexEntry (key : Key) : m Unit := do
  let clk ← se.writeClock
  se.install key (putCell clk [] (-1))

/-- `Delete` of a key that is neither indexed nor a definition. -/
def deleteIndexEntry (key : Key) : m Unit := do
  let clk ← se.writeClock
  se.remove key clk.stampUs

def applySecondaryIndexes (primary oldValue newValue : List UInt8) : m Unit := do
  if isInternalIndexKey primary then return ()
  let rules := (← se.registry).rules
  let oldKeys := secondaryKeysFor rules primary oldValue
  let newKeys := secondaryKeysFor rules primary newValue
  let added ← se.anyOrder (newKeys.dedup.filter fun k => decide (k ∉ oldKeys))
  added.forM (putIndexEntry se)
  let obsolete ← se.anyOrder (oldKeys.dedup.filter fun k => decide (k ∉ newKeys))
  obsolete.forM (deleteIndexEntry se)

def backfillFieldIndex : m Unit := do
  let keys ← se.scanKeys
  keys.forM fun k => do
    if isInternalIndexKey k then return ()
    match ← se.get k with
    | .error _ => return ()
    | .ok value => applySecondaryIndexes se k [] value

def createFieldIndex (d : FieldIndexDef) : m (Option ApplyError) := do
  let g ← se.registry
  match g.checkFieldIndex d with
  | .error e => return some e
  | .ok true => return none
  | .ok false =>
    se.setRegistry (g.addFieldIndex json d)
    backfillFieldIndex se
    return none

def purgeFieldIndexEntries (name : List UInt8) : m Unit := do
  let keys ← se.scan fun k => (secondaryIndexPrefix ++ name ++ [ascii '/']).isPrefixOf k
  keys.forM (deleteIndexEntry se)

def dropFieldIndex (name : List UInt8) : m (Option ApplyError) := do
  let g ← se.registry
  if g.hasFieldIndex name then
    se.setRegistry (g.dropFieldIndex name)
    purgeFieldIndexEntries se name
    return none
  else return some (.indexNotFound name)

def onSearchKeyPut (key value : List UInt8) : m Unit := do
  let g ← se.registry
  if vectorKeyPrefix.isPrefixOf key then se.setRegistry (g.loadVectorBlob key value)
  else if textKeyPrefix.isPrefixOf key then se.setRegistry (g.loadTextDoc key)
  else if vectorNSConfigPrefix.isPrefixOf key then
    se.setRegistry (g.applyVectorNSConfig json (key.drop vectorNSConfigPrefix.length) value)
  else if indexDefPrefix.isPrefixOf key then
    let _ ← createFieldIndex json se ⟨key.drop indexDefPrefix.length, value⟩

/-- `onSearchKeyDelete`; vectors and documents leave memory only. -/
def onSearchKeyDelete (key : List UInt8) : m Unit := do
  let g ← se.registry
  if indexDefPrefix.isPrefixOf key && g.hasFieldIndex (key.drop indexDefPrefix.length) then
    let _ ← dropFieldIndex se (key.drop indexDefPrefix.length)

def deleteDerivedSearchKeys (id : List UInt8) : m Unit := do
  let g ← se.registry
  let keys ← se.anyOrder (g.vectors.map (fun v => vectorPersistKey v.1 id) ++
    g.texts.map fun ns => textPersistKey ns id)
  keys.forM fun k => do
    let clk ← se.writeClock
    se.removePresent k clk.stampUs

def oldIndexValue (maintain : Bool) (key : Key) : m (Option (List UInt8)) := do
  if maintain then
    let value ← se.get key
    return value.toOption
  else return none

def put (key value : List UInt8) (ttl : Int) : m Unit := do
  let g ← se.registry
  let maintainIdx := !g.rules.isEmpty && !isInternalIndexKey key
  let oldValue ← oldIndexValue se maintainIdx key
  let clk ← se.writeClock
  se.install key (putCell clk value ttl)
  if maintainIdx then applySecondaryIndexes se key (oldValue.getD []) value
  if isSearchKey key then onSearchKeyPut json se key value

def delete (key : List UInt8) : m Unit := do
  let g ← se.registry
  let maintainIdx := !g.rules.isEmpty && !isInternalIndexKey key
  let oldValue ← oldIndexValue se maintainIdx key
  let clk ← se.writeClock
  let existed ← se.existed key
  se.remove key clk.stampUs
  if oldValue.isSome then applySecondaryIndexes se key (oldValue.getD []) []
  if isSearchKey key then onSearchKeyDelete se key
  else if existed && !isInternalIndexKey key then deleteDerivedSearchKeys se key

/-- `multiPut` with key-value separation: all old values are read before the
first write, and the indexes follow after the last. -/
def multiPutSeparate (reqs : List PutReq) : m Unit := do
  let maintainIdx := !(← se.registry).rules.isEmpty
  let oldValues ← reqs.mapM fun r =>
    se.atTime r.time (oldIndexValue se (maintainIdx && !isInternalIndexKey r.key) r.key)
  let clk ← se.writeClock
  let installs ← se.diskOrder
    (reqs.map fun r => (r.key, putCell (r.time.getD clk) r.value r.ttl))
  installs.forM fun e => se.installAround e.1 e.2
  if maintainIdx then
    (reqs.zip oldValues).forM fun e =>
      se.atTime e.1.time (applySecondaryIndexes se e.1.key (e.2.getD []) e.1.value)
  reqs.forM fun r => do
    if isSearchKey r.key then onSearchKeyPut json se r.key r.value

/-- `multiPut` without it: puts one by one, in order if each has a time, else in a
goroutine for each shard. -/
def multiPutGrouped (reqs : List PutReq) : m Unit := do
  if reqs.all (·.time.isNone) then
    let grouped ← se.shardOrder reqs
    grouped.forM fun r => put json se r.key r.value r.ttl
  else reqs.forM fun r => se.atTime r.time (put json se r.key r.value r.ttl)

def multiPut (reqs : List PutReq) : m Unit := do
  if reqs.isEmpty then return ()
  if ← se.keyValueSeparation then multiPutSeparate json se reqs
  else multiPutGrouped json se reqs

/-! ## Transactions -/

def TxnOp.guard : TxnOp → Option (Key × Nat)
  | .setIf key _ _ expectedVersion => some (key, expectedVersion)
  | _ => none

def TxnOp.putReq (op : TxnOp) : Option PutReq :=
  op.put?.map fun p => ⟨p.1, p.2.1, p.2.2, none⟩

def TxnOp.delete? : TxnOp → Option Key
  | .delete key => some key
  | _ => none

/-- The first phase of `Commit`: the guards, one after the other. -/
def checkGuards : List (Key × Nat) → m Bool
  | [] => return true
  | g :: gs => do
      let liveVersion ← se.token g.1
      if liveVersion ≠ g.2 then return false else checkGuards gs

/-- `Commit`: the puts as one batch, then the deletes. -/
def commit (writes : List TxnOp) : m (Option ApplyError) := do
  let held ← checkGuards se (writes.filterMap TxnOp.guard)
  if !held then return some .txnConflict
  multiPut json se (writes.filterMap TxnOp.putReq)
  (writes.filterMap TxnOp.delete?).forM (delete se)
  return none

def TxnOp.apply : TxnOp → m Unit
  | .set key value ttl => VeltrixDB.Storage.put json se key value ttl
  | .setIf key value ttl _ => VeltrixDB.Storage.put json se key value ttl
  | .delete key => VeltrixDB.Storage.delete se key

end Operations

/-! ## The engine of a node -/

/-- An order in which the keys of a table are walked. -/
structure KeyOrder where
  range : List Key → List Key
  range_perm : ∀ l, (range l).Perm l

/-- An order in which the goroutines of a batch come to its items: each group of keys
keeps the order of its own. -/
structure GroupOrder {α : Type} (key : α → Key) (group : Key → Nat) where
  order : List α → List α
  order_group : ∀ l d,
    (order l).filter (fun a => group (key a) = d) = l.filter fun a => group (key a) = d

/-- The index, the cache, the clocks and the registry of a node, and what its local
sources will say. -/
structure NodeStore where
  index : SortedTable Key (Int × Option (List UInt8 × Int))
  cache : Key → Option (List UInt8 × Int)
  clock : RaftClock
  cur : Option WriteClock
  registry : Registry
  kvSep : Bool
  numDisks : Nat
  clocks : Nat → Int
  orders : Nat → KeyOrder
  disks : Nat → GroupOrder (Prod.fst : Key × Cell → Key) fun k => diskForShard (shardOf k) numDisks
  shards : Nat → GroupOrder PutReq.key shardOf
  keeps : Nat → Key → Bool

def NodeStore.cells (s : NodeStore) : Keyspace := Slots.cells s.index.find

structure Outcome (α : Type) where
  result : α
  store : NodeStore
  /-- No scan at the local clock passed over a key that is live at the time of
  decisions. -/
  complete : Bool

def StoreM (α : Type) : Type := NodeStore → Outcome α

instance storeMonad : Monad StoreM where
  pure a := fun s => ⟨a, s, true⟩
  bind x f := fun s =>
    let r := x s
    let r' := f r.result r.store
    ⟨r'.result, r'.store, r.complete && r'.complete⟩

/-- Run the first part. -/
theorem StoreM.bind_eq {α β : Type} {x : StoreM α} {s s' : NodeStore} {a : α}
    (hx : x s = ⟨a, s', true⟩) (f : α → StoreM β) : (x >>= f) s = f a s' := by
  show (⟨(f (x s).result (x s).store).result, (f (x s).result (x s).store).store,
    (x s).complete && (f (x s).result (x s).store).complete⟩ : Outcome β) = f a s'
  rw [hx, Bool.true_and]

instance storeLawful : LawfulMonad StoreM := LawfulMonad.mk' StoreM
  (fun x => by
    funext s
    show (⟨(x s).result, (x s).store, (x s).complete && true⟩ : Outcome _) = x s
    rw [Bool.and_true])
  (fun a f => by
    funext s
    show (⟨(f a s).result, (f a s).store, true && (f a s).complete⟩ : Outcome _) = f a s
    rw [Bool.true_and])
  (fun x f g => by
    funext s
    show (⟨_, _, _ && _ && _⟩ : Outcome _) = ⟨_, _, _ && (_ && _)⟩
    rw [Bool.and_assoc]
    rfl)

def localClock : StoreM Int := fun s =>
  ⟨s.clocks 0, { s with clocks := fun n => s.clocks (n + 1) }, true⟩

def decisionNowUs : StoreM Int := fun s =>
  match s.cur with
  | some t => ⟨t.nowUs, s, true⟩
  | none => localClock s

def NodeStore.writeClock : StoreM WriteClock := fun s =>
  match s.cur with
  | some t => ⟨t, s, true⟩
  | none => ⟨⟨s.clocks 0, s.clocks 0⟩, { s with clocks := fun n => s.clocks (n + 1) }, true⟩

def expiryCutoffUs : StoreM Int := fun s =>
  match s.cur with
  | some t => ⟨t.nowUs, s, true⟩
  | none => ⟨s.clock.expiryCutoffUs none (s.clocks 0), { s with clocks := fun n => s.clocks (n + 1) },
      true⟩

namespace NodeStore

variable (s : NodeStore) (key : Key)

/-- `PutWithExpiry`: the cache takes a key and may drop others. -/
def cachePut (p : List UInt8 × Int) : NodeStore :=
  { s with
    cache := fun k => if s.keeps 0 k then update s.cache key (some p) k else none
    keeps := fun n => s.keeps (n + 1) }

def evict : NodeStore :=
  { s with cache := update s.cache key none }

def markTombstone (stampUs : Int) : NodeStore :=
  match s.index.find key with
  | none => s
  | some _ => { s with index := s.index.put key (stampUs, none) }

def markExpired (cutoffUs tombUs : Int) : NodeStore :=
  match s.cells key with
  | none => s
  | some c => if (c.at cutoffUs).isSome then s else s.markTombstone key tombUs

def removeTombstone : NodeStore :=
  if Slots.isTombstone s.index.find key then { s with index := s.index.delete key } else s

/-- What `get` does with an entry that is past its deadline. -/
def expire (c : Cell) (nowUs : Int) : StoreM Unit := do
  let cut ← expiryCutoffUs
  fun s => ⟨(), (if (c.at cut).isNone then s.markExpired key cut nowUs else s).evict key, true⟩

def found (c : Cell) : StoreM (Except ApplyError (List UInt8)) := fun s =>
  ⟨.ok c.2.1, s.cachePut key c.2, true⟩

/-- `get` behind the cache. -/
def lookup : StoreM (Except ApplyError (List UInt8)) := fun s =>
  match s.cells key with
  | none => ⟨.error .keyNotFound, s, true⟩
  | some c =>
    (do
      let nowUs ← decisionNowUs
      if (c.at nowUs).isNone then
        expire key c nowUs
        return .error .keyExpired
      else found key c :
        StoreM (Except ApplyError (List UInt8))) s

/-- `Get`: a cached value is refused once its deadline passes. -/
def get : StoreM (Except ApplyError (List UInt8)) := fun s =>
  match s.cache key with
  | none => lookup key s
  | some p =>
    if p.2 = 0 then ⟨.ok p.1, s, true⟩
    else
      (do
        let nowUs ← decisionNowUs
        if p.2 ≤ nowUs then lookup key else return .ok p.1 :
          StoreM (Except ApplyError (List UInt8))) s

def liveCell : StoreM (Option Cell) := fun s =>
  match s.cells key with
  | none => ⟨none, s, true⟩
  | some c =>
    (do
      let nowUs ← decisionNowUs
      return c.at nowUs : StoreM (Option Cell)) s

/-- `readUnderShardLockKVSep`: the cache is asked after the entry. -/
def readLocked : StoreM (Option (List UInt8)) := do
  match ← liveCell key with
  | none => return none
  | some c => fun s =>
    ⟨some (match s.cache key with | some p => p.1 | none => c.2.1), s, true⟩

/-- The keys that are live at `nowUs`. -/
def liveKeys (nowUs : Int) : List Key :=
  s.index.keys.filter fun k => (s.cells.read k nowUs).isSome

def anyOrder (keys : List Key) : StoreM (List Key) := fun s =>
  ⟨(s.orders 0).range keys, { s with orders := fun n => s.orders (n + 1) }, true⟩

/-- The condition for the search keys of a key to go with it: inside a raft command the
key was live, else it had an entry. -/
def existed : StoreM Bool := fun s =>
  if s.cur.isSome then (do return (← liveCell key).isSome : StoreM Bool) s
  else ⟨(s.index.find key).isSome, s, true⟩

/-- `versionToken` of the entry of a key. -/
def token (key : Key) : StoreM Nat := do
  match ← liveCell key with
  | none => return 0
  | some c => fun s => ⟨c.token s.clock.floor, s, true⟩

end NodeStore

def nodeEngine : StorageEngine StoreM where
  get := NodeStore.get
  readLocked := NodeStore.readLocked
  live := fun key => do return (← NodeStore.liveCell key).isSome
  existed := NodeStore.existed
  token := NodeStore.token
  writeClock := NodeStore.writeClock
  install := fun key c s =>
    ⟨(), { s with index := s.index.put key (c.1, some c.2) }.cachePut key c.2, true⟩
  installAround := fun key c s =>
    ⟨(), { s with
      index := s.index.put key (c.1, some c.2)
      cache := if (s.cache key).isSome then update s.cache key (some c.2) else s.cache },
      true⟩
  keyValueSeparation := fun s => ⟨s.kvSep, s, true⟩
  diskOrder := fun l s =>
    ⟨(s.disks 0).order l, { s with disks := fun n => s.disks (n + 1) }, true⟩
  shardOrder := fun l s =>
    ⟨(s.shards 0).order l, { s with shards := fun n => s.shards (n + 1) }, true⟩
  remove := fun key stampUs s => ⟨(), (s.markTombstone key stampUs).evict key, true⟩
  removePresent := fun key stampUs s =>
    ⟨(), if (s.cells key).isSome then (s.markTombstone key stampUs).evict key else s, true⟩
  scan := fun p => do
    let nowUs ← decisionNowUs
    let keys : List Key ← fun s => ⟨(s.liveKeys nowUs).filter p, s, true⟩
    NodeStore.anyOrder keys
  scanKeys := do
    let localUs ← localClock
    let nowUs : Int ← fun s => ⟨(s.cur.map WriteClock.nowUs).getD localUs, s, true⟩
    let keys : List Key ← fun s =>
      ⟨s.liveKeys localUs, s, (s.liveKeys nowUs).all fun k => decide (k ∈ s.liveKeys localUs)⟩
    NodeStore.anyOrder keys
  anyOrder := NodeStore.anyOrder
  registry := fun s => ⟨s.registry, s, true⟩
  setRegistry := fun g s => ⟨(), { s with registry := g }, true⟩
  atTime := fun time x s =>
    match time with
    | none => x s
    | some t =>
      let r := x { s with cur := some t }
      { r with store := { r.store with cur := s.cur } }

/-! ## The cache holds what the index leads to -/

/-- What is cached is the value and the deadline of the live entry. -/
def NodeStore.Sound (s : NodeStore) : Prop :=
  ∀ k p, s.cache k = some p → ∃ stampUs, s.index.find k = some (stampUs, some p)

section Sound

variable {s : NodeStore} {key : Key}

namespace NodeStore

@[simp] theorem cache_evict (s : NodeStore) (key : Key) :
    (s.evict key).cache = update s.cache key none := rfl

@[simp] theorem cache_cachePut (s : NodeStore) (key k : Key) (p : List UInt8 × Int) :
    (s.cachePut key p).cache k =
      if s.keeps 0 k then update s.cache key (some p) k else none := rfl

section

variable (h : s.Sound)
include h

theorem Sound.evict (key : Key) : (s.evict key).Sound := by
  intro k p hp
  rw [cache_evict] at hp
  by_cases hk : k = key
  · subst hk
    rw [update_self] at hp
    cases hp
  · rw [update_of_ne hk] at hp
    exact h k p hp

/-- The cache takes the live value of a key. -/
theorem Sound.cachePut {c : Cell} (hc : s.cells key = some c) : (s.cachePut key c.2).Sound := by
  intro k p hp
  rw [cache_cachePut] at hp
  show ∃ stampUs, s.index.find k = _
  split at hp
  · by_cases hk : k = key
    · subst hk
      rw [update_self] at hp
      obtain ⟨slot, hslot, hmap⟩ := Option.bind_eq_some_iff.mp hc
      obtain ⟨q, hq, hcq⟩ := Option.map_eq_some_iff.mp hmap
      refine ⟨slot.1, ?_⟩
      rw [hslot, ← Option.some.inj hp, ← hcq, ← hq]
    · rw [update_of_ne hk] at hp
      exact h k p hp
  · cases hp

theorem Sound.replace (slot : Int × Option (List UInt8 × Int)) :
    ({ s with index := s.index.put key slot }.evict key).Sound := by
  intro k p hp
  by_cases hk : k = key
  · subst hk
    rw [cache_evict, update_self] at hp
    cases hp
  · obtain ⟨stampUs, hfind⟩ := h.evict key k p hp
    refine ⟨stampUs, ?_⟩
    show (s.index.put key slot).find k = _
    rw [SortedTable.find_put, update_of_ne hk]
    exact hfind

theorem Sound.remove (key : Key) (stampUs : Int) :
    ((s.markTombstone key stampUs).evict key).Sound := by
  unfold markTombstone
  split
  · exact h.evict key
  · exact h.replace _

theorem Sound.expire (key : Key) (cutoffUs tombUs : Int) :
    ((s.markExpired key cutoffUs tombUs).evict key).Sound := by
  unfold markExpired
  split
  · exact h.evict key
  · split
    · exact h.evict key
    · exact h.remove key tombUs

theorem Sound.install (key : Key) (c : Cell) :
    ({ s with index := s.index.put key (c.1, some c.2) }.cachePut key c.2).Sound := by
  intro k p hp
  rw [cache_cachePut] at hp
  show ∃ stampUs, update s.index.find key (some (c.1, some c.2)) k = _
  split at hp
  · by_cases hk : k = key
    · subst hk
      rw [update_self] at hp ⊢
      exact ⟨c.1, by rw [Option.some.inj hp]⟩
    · rw [update_of_ne hk] at hp ⊢
      exact h k p hp
  · cases hp

theorem Sound.installAround (key : Key) (c : Cell) :
    { s with
      index := s.index.put key (c.1, some c.2)
      cache := if (s.cache key).isSome then update s.cache key (some c.2) else s.cache
      }.Sound := by
  intro k p hp
  simp only [SortedTable.find_put] at hp ⊢
  by_cases hk : k = key
  · subst hk
    rw [update_self]
    split at hp
    · rw [update_self] at hp
      exact ⟨c.1, by rw [Option.some.inj hp]⟩
    next hnone =>
      rw [hp] at hnone
      exact absurd rfl hnone
  · rw [update_of_ne hk]
    split at hp
    · rw [update_of_ne hk] at hp
      exact h k p hp
    · exact h k p hp

end

/-! ## What the accesses do to the keyspace -/

theorem cells_put (s : NodeStore) (key : Key) (c : Cell) :
    Slots.cells (s.index.put key (c.1, some c.2)).find = update s.cells key (some c) :=
  Slots.cells_put s.index.find key c

theorem cells_markTombstone (s : NodeStore) (key : Key) (stampUs : Int) :
    (s.markTombstone key stampUs).cells = update s.cells key none := by
  have hfind : (s.markTombstone key stampUs).index.find =
      Slots.markTombstone s.index.find key stampUs := by
    unfold markTombstone Slots.markTombstone
    cases s.index.find key <;> rfl
  unfold cells
  rw [hfind]
  exact Slots.cells_markTombstone _ key stampUs

/-- A key that is expired at a time is tombstoned: nobody sees it from then on. -/
theorem sameFrom_markExpired (s : NodeStore) (key k : Key) {cutoffUs nowUs : Int}
    (tombUs : Int) (h : cutoffUs ≤ nowUs) :
    Cell.SameFrom nowUs ((s.markExpired key cutoffUs tombUs).cells k) (s.cells k) := by
  unfold markExpired
  split
  · exact .refl _ _
  next c hc =>
    split
    · exact .refl _ _
    next hexp =>
      rw [cells_markTombstone]
      by_cases hk : k = key
      · subst hk
        rw [update_self, hc]
        intro u hu
        have hnone : c.at cutoffUs = none := Option.not_isSome_iff_eq_none.mp hexp
        exact (Cell.at_eq_none_of_le hnone (h.trans hu)).symm
      · rw [update_of_ne hk]
        exact .refl _ _

end NodeStore

end Sound

end VeltrixDB.Storage
