import Mathlib.Logic.Relation
import VeltrixDB.Storage.IndexCount
import VeltrixDB.Storage.Writers

/-!
# Transactions with version guards

A transaction stages writes, some of them guarded by the version that the key
had when the client looked (`KeyVersion`), and `Commit` checks the guards,
writes the puts as one batch and then the deletes, following
`storage/transaction.go` on an engine without the raft clock.  Nothing keeps
other writers away between a check and the write after it.

Main results:

- Theorem `TxnSys.Sound.step`: while tokens of a key are not used twice, checked
  guards are not overtaken and absence is not restored, a checked guard sees
  no foreign write after the client's look.
- Theorem `TxnSys.Run.setIf_alone`: then no foreign write of the key lies between
  the look and the guarded write, and of several commits after one look at
  most one succeeds.
-/

namespace VeltrixDB.Storage

open Function List ShardedIndex

/-! ## Version tokens -/

/-- The token of a live key last written before the raft clock started. -/
def legacyVersion : Nat := 1

/-- `versionToken` of an entry that is live. -/
def IndexEntry.liveToken (e : IndexEntry) (floorUs : Int) : Nat :=
  if e.writeTimestampUs ≤ 0 ∨ (0 < floorUs ∧ e.writeTimestampUs < floorUs) then legacyVersion
  else e.writeTimestampUs.toNat

def IndexEntry.versionToken (e : IndexEntry) (nowUs floorUs : Int) : Nat :=
  if e.flags.tombstone ∨ e.isExpired nowUs then 0 else e.liveToken floorUs

/-- `KeyVersion`, with the clock floor as an argument. -/
def ShardedIndex.keyVersion (idx : ShardedIndex) (key : Key) (nowUs floorUs : Int) : Nat :=
  match idx.entries key with
  | none => 0
  | some e => e.versionToken nowUs floorUs

def ShardedIndex.stamped (idx : ShardedIndex) (key : Key) : Option (Int × Int) :=
  match idx.entries key with
  | none => none
  | some e => if e.flags.tombstone then none else some (e.writeTimestampUs, e.expiryUs)

section Stamped

variable {idx : ShardedIndex} {c : CountedIndex} {key : Key}

theorem ShardedIndex.stamped_eq_some {p : Int × Int} (h : idx.stamped key = some p) :
    ∃ e, idx.entries key = some e ∧ e.flags.tombstone = false ∧
      p = (e.writeTimestampUs, e.expiryUs) := by
  unfold stamped at h
  split at h
  · cases h
  next e he =>
    split at h
    · cases h
    next hlive =>
      cases h
      exact ⟨e, he, Bool.eq_false_iff.mpr hlive, rfl⟩

theorem IndexEntry.liveToken_pos (e : IndexEntry) (floorUs : Int) : e.liveToken floorUs ≠ 0 := by
  unfold IndexEntry.liveToken legacyVersion
  split
  · exact Nat.one_ne_zero
  · omega

namespace ShardedIndex

theorem keyVersion_ne_zero {nowUs floorUs : Int} (h : idx.keyVersion key nowUs floorUs ≠ 0) :
    ∃ e, idx.entries key = some e ∧
      idx.stamped key = some (e.writeTimestampUs, e.expiryUs) ∧
      idx.keyVersion key nowUs floorUs = e.liveToken floorUs := by
  unfold keyVersion at h ⊢
  unfold stamped
  cases he : idx.entries key with
  | none =>
    rw [he] at h
    exact absurd rfl h
  | some e =>
    rw [he] at h
    simp only at h ⊢
    unfold IndexEntry.versionToken at h ⊢
    split at h
    · exact absurd rfl h
    next hlive =>
      rw [not_or] at hlive
      refine ⟨e, rfl, if_neg hlive.1, if_neg ?_⟩
      rw [not_or]
      exact hlive

/-- A live key without a deadline has a token. -/
theorem keyVersion_of_stamped {stampUs : Int}
    (h : idx.stamped key = some (stampUs, 0)) (nowUs floorUs : Int) :
    idx.keyVersion key nowUs floorUs ≠ 0 := by
  obtain ⟨e, he, hlive, hp⟩ := stamped_eq_some h
  have hexp : e.expiryUs = 0 := (Prod.ext_iff.mp hp).2.symm
  unfold keyVersion
  rw [he]
  simp only
  unfold IndexEntry.versionToken
  rw [if_neg]
  · exact e.liveToken_pos floorUs
  · rw [not_or]
    refine ⟨by rw [hlive]; exact Bool.false_ne_true, ?_⟩
    rw [e.isExpired_iff, hexp]
    exact fun hlt => lt_irrefl 0 hlt.1

theorem stamped_update (idx : ShardedIndex) (key : Key) (entry : Option IndexEntry)
    {idx' : ShardedIndex} (h : idx'.entries = Function.update idx.entries key entry) :
    idx'.stamped = Function.update idx.stamped key
      (entry.bind fun e => if e.flags.tombstone then none
        else some (e.writeTimestampUs, e.expiryUs)) := by
  ext1 k
  unfold stamped
  rw [h]
  by_cases hk : k = key
  · subst hk
    rw [Function.update_self, Function.update_self]
    cases entry <;> rfl
  · rw [Function.update_of_ne hk, Function.update_of_ne hk]

end ShardedIndex

theorem CountedIndex.stamped_put (c : CountedIndex) (key : Key) (e : LiveEntry)
    (v : Option (List UInt8)) : (c.put key e v).idx.stamped =
      Function.update c.idx.stamped key (some (e.1.writeTimestampUs, e.1.expiryUs)) := by
  rw [CountedIndex.idx_put, c.idx.stamped_update key (some e.1) (c.idx.entries_put e.1 v),
    Option.bind_some, e.2]
  rfl

theorem CountedIndex.stamped_atomicInstall (c : CountedIndex) (key : Key) (e : LiveEntry) :
    (c.atomicInstall key e).idx.stamped =
      Function.update c.idx.stamped key (some (e.1.writeTimestampUs, e.1.expiryUs)) := by
  unfold CountedIndex.atomicInstall
  rw [CountedIndex.idx_enliven, c.idx.stamped_update key (some e.1) rfl, Option.bind_some, e.2]
  rfl

theorem ShardedIndex.stamped_markTombstone (idx : ShardedIndex) (key : Key) (nowUs : Int) :
    (idx.markTombstone key nowUs).stamped = Function.update idx.stamped key none := by
  unfold markTombstone
  cases he : idx.entries key with
  | none =>
    have hnone : idx.stamped key = none := by
      unfold stamped
      rw [he]
    rw [← hnone, Function.update_eq_self]
  | some e =>
    have hentries : ((idx.update key (·.markTombstone nowUs)).setDirty key none).entries =
        Function.update idx.entries key (some (e.markTombstone nowUs)) := by
      show Function.update idx.entries key ((idx.entries key).map _) = _
      rw [he]
      rfl
    exact idx.stamped_update key _ hentries

theorem CountedIndex.stamped_markExpired (c : CountedIndex) (key : Key) (cutoffUs tombUs : Int) :
    (c.markExpired key cutoffUs tombUs).idx.stamped = c.idx.stamped ∨
      (∃ p, c.idx.stamped key = some p ∧ 0 < p.2) ∧
        (c.markExpired key cutoffUs tombUs).idx.stamped =
          update c.idx.stamped key none := by
  unfold CountedIndex.markExpired
  cases he : c.idx.entries key with
  | none => exact .inl rfl
  | some e =>
    simp only
    split
    · exact .inl rfl
    next hexp =>
      rw [not_or, Bool.not_eq_false] at hexp
      refine .inr ⟨⟨(e.writeTimestampUs, e.expiryUs), ?_, ?_⟩, ?_⟩
      · unfold stamped
        rw [he]
        exact if_neg hexp.1
      · exact ((e.isExpired_iff cutoffUs).mp hexp.2).1
      · exact c.idx.stamped_markTombstone key tombUs

theorem CountedIndex.stamped_removeTombstone (c : CountedIndex) (key : Key) :
    (c.removeTombstone key).idx.stamped = c.idx.stamped := by
  unfold CountedIndex.removeTombstone
  split
  · rfl
  next hdead =>
    have hnone : c.idx.stamped key = none := by
      unfold stamped
      unfold isLive at hdead
      cases he : c.idx.entries key with
      | none => rfl
      | some =>
        rw [he] at hdead
        simpa using hdead
    rw [c.idx.stamped_update key none rfl, Option.bind_none, ← hnone, update_eq_self]

theorem ShardedIndex.stamped_updateVLogOffset (idx : ShardedIndex) (key : Key)
    (oldOffset newOffset : Nat) (newPacked : Bool) :
    (idx.updateVLogOffset key oldOffset newOffset newPacked).stamped = idx.stamped := by
  rw [idx.stamped_update key _ rfl]
  apply Function.update_eq_self_iff.mpr
  unfold stamped
  cases idx.entries key with
  | none => rfl
  | some =>
    rw [Option.map_some]
    split <;> rfl

end Stamped

/-! ## Transactions -/

inductive TxnOp where
  | set (key : Key) (value : List UInt8) (ttl : Int)
  | setIf (key : Key) (value : List UInt8) (ttl : Int) (expectedVersion : Nat)
  | delete (key : Key)
deriving DecidableEq

def TxnOp.put? : TxnOp → Option (Key × List UInt8 × Int)
  | .set key value ttl | .setIf key value ttl _ => some (key, value, ttl)
  | .delete _ => none

def TxnOp.passes (idx : ShardedIndex) (nowUs : Int) : TxnOp → Bool
  | .setIf key _ _ expectedVersion => decide (idx.keyVersion key nowUs 0 = expectedVersion)
  | _ => true

/-- A client's look at the version of a key, and how many writes of the key had
been installed. -/
structure Look where
  key : Key
  token : Nat
  count : Nat

inductive TxnPhase where
  | validating (checked todo : List TxnOp)
  | putting (todo : List TxnOp)
  | deleting (todo : List TxnOp)

/-- A transaction from the call of its commit on. -/
structure Txn where
  id : Nat
  writes : List TxnOp
  looks : List Look
  nowUs : Int
  phase : TxnPhase

def Txn.pending (t : Txn) : List TxnOp :=
  match t.phase with
  | .validating checked _ => checked
  | .putting todo => todo
  | .deleting _ => []

/-- The transaction has checked a guard of the key and not installed the write
after it. -/
def Txn.Awaits (t : Txn) (key : Key) : Prop :=
  ∃ value ttl expectedVersion, .setIf key value ttl expectedVersion ∈ t.pending

/-- An installed write: whose it is, when it is a transaction's, and the entry
that a put installed. -/
structure KeyWrite where
  owner : Option (Nat × TxnOp)
  entry : Option IndexEntry

/-- The index, the writes of each key in the order of their installs, and the
transactions. -/
structure TxnSys where
  kvSep : Bool
  c : CountedIndex
  history : Key → List KeyWrite
  looks : List Look
  txns : List Txn
  committed : List Txn
  nextID : Nat

variable (kvSep : Bool)

def TxnSys.create : TxnSys where
  kvSep := kvSep
  c := .empty
  history := fun _ => []
  looks := []
  txns := []
  committed := []
  nextID := 0

def batchEntry (clk : WriteClock) (value : List UInt8) (ttl : Int) (l : Located) : IndexEntry :=
  if kvSep then putEntryAt clk.stampUs value (walTTLExpiryUs clk.nowUs ttl) false l
  else putEntry clk.stampUs value (walTTLExpiryUs clk.nowUs ttl) false

theorem tombstone_batchEntry (clk : WriteClock) (value : List UInt8) (ttl : Int)
    (l : Located) : (batchEntry kvSep clk value ttl l).flags.tombstone = false := by
  unfold batchEntry
  split <;> rfl

def IndexOp.ofPut (clk : WriteClock) (p : Key × List UInt8 × Int) (l : Located) : IndexOp :=
  .put p.1 ⟨batchEntry kvSep clk p.2.1 p.2.2 l, tombstone_batchEntry kvSep clk p.2.1 p.2.2 l⟩
    (if kvSep then none else some p.2.1)

def IndexOp.wrote : IndexOp → Option (Key × Option IndexEntry)
  | .put key e _ | .atomicInstall key e => some (key, some e.1)
  | .markTombstone key _ => some (key, none)
  | _ => none

def IndexOp.isReplay : IndexOp → Bool
  | .replayPut .. | .replayMarkTombstone .. | .replayTombstoneRecord .. => true
  | _ => false

def TxnSys.step (s : TxnSys) (owner : Option (Nat × TxnOp)) (op : IndexOp) : TxnSys :=
  match op.wrote with
  | some (key, entry) =>
    { s with
      c := s.c.step op
      history := update s.history key (s.history key ++ [⟨owner, entry⟩]) }
  | none => { s with c := s.c.step op }

def TxnSys.setTxns (s : TxnSys) (txns : List Txn) : TxnSys := { s with txns := txns }

/-- What is asked of a run: of each install, and of each check of a guard. -/
structure TxnDiscipline where
  install : TxnSys → Option (Nat × TxnOp) → IndexOp → Prop
  check : TxnSys → Txn → TxnOp → Prop

def TxnDiscipline.none : TxnDiscipline := ⟨fun _ _ _ => True, fun _ _ _ => True⟩

/-- A put's token is new for the key, and nobody else has a checked
guard of the key and waits; and a guard for absence is only checked when the key was not
deleted or put with a deadline since it was seen absent. -/
def TxnDiscipline.guarded : TxnDiscipline where
  install := fun s owner op => ∀ key entry, op.wrote = some (key, entry) →
    (∀ e, entry = some e → ∀ w ∈ s.history key, ∀ e', w.entry = some e' →
      e'.liveToken 0 ≠ e.liveToken 0) ∧
    ∀ t ∈ s.txns, owner.map Prod.fst ≠ some t.id → ¬t.Awaits key
  check := fun s t op => ∀ key value ttl, op = .setIf key value ttl 0 →
    ∀ o ∈ t.looks, o.key = key → o.token = 0 → ∀ w ∈ (s.history key).drop o.count,
      ∃ e, w.entry = some e ∧ e.expiryUs = 0

inductive TxnSys.Step (P : TxnDiscipline) : TxnSys → TxnSys → Prop
  | look (s : TxnSys) (key : Key) (nowUs : Int) :
      Step P s { s with
        looks := ⟨key, s.c.idx.keyVersion key nowUs 0, (s.history key).length⟩ :: s.looks }
  | commit (s : TxnSys) (writes : List TxnOp) (nowUs : Int) :
      Step P s { s with
        txns := ⟨s.nextID, writes, s.looks, nowUs, .validating [] writes⟩ :: s.txns
        nextID := s.nextID + 1 }
  | check (s : TxnSys) (pre post : List Txn) (id : Nat) (writes : List TxnOp) (looks : List Look)
      (nowUs : Int) (checked todo : List TxnOp) (op : TxnOp)
      (ht : s.txns = pre ++ ⟨id, writes, looks, nowUs, .validating checked (op :: todo)⟩ :: post)
      (hpass : op.passes s.c.idx nowUs = true)
      (hP : P.check s ⟨id, writes, looks, nowUs, .validating checked (op :: todo)⟩ op) :
      Step P s (s.setTxns
        (pre ++ ⟨id, writes, looks, nowUs, .validating (checked ++ [op]) todo⟩ :: post))
  /-- A commit returns an error: a guard does not hold, or a write fails.  What is
  left of its batch then runs as any other writer does. -/
  | fail (s : TxnSys) (pre post : List Txn) (t : Txn) (ht : s.txns = pre ++ t :: post) :
      Step P s (s.setTxns (pre ++ post))
  | startPuts (s : TxnSys) (pre post : List Txn) (id : Nat) (writes : List TxnOp)
      (looks : List Look) (nowUs : Int) (checked : List TxnOp)
      (ht : s.txns = pre ++ ⟨id, writes, looks, nowUs, .validating checked []⟩ :: post) :
      Step P s (s.setTxns (pre ++
        ⟨id, writes, looks, nowUs, .putting (writes.filter fun op => op.put?.isSome)⟩ :: post))
  /-- The batch installs a put.  Shards are independent, the puts of one shard come
  in order. -/
  | put (s : TxnSys) (pre post : List Txn) (id : Nat) (writes : List TxnOp) (looks : List Look)
      (nowUs : Int) (before after : List TxnOp) (op : TxnOp) (p : Key × List UInt8 × Int)
      (clk : WriteClock) (l : Located)
      (ht : s.txns = pre ++ ⟨id, writes, looks, nowUs, .putting (before ++ op :: after)⟩ :: post)
      (hput : op.put? = some p)
      (horder : ∀ op' ∈ before, ∀ p', op'.put? = some p' → shardOf p'.1 ≠ shardOf p.1)
      (hP : P.install s (some (id, op)) (.ofPut s.kvSep clk p l)) :
      Step P s ((s.step (some (id, op)) (.ofPut s.kvSep clk p l)).setTxns
        (pre ++ ⟨id, writes, looks, nowUs, .putting (before ++ after)⟩ :: post))
  | startDeletes (s : TxnSys) (pre post : List Txn) (id : Nat) (writes : List TxnOp)
      (looks : List Look) (nowUs : Int)
      (ht : s.txns = pre ++ ⟨id, writes, looks, nowUs, .putting []⟩ :: post) :
      Step P s (s.setTxns (pre ++
        ⟨id, writes, looks, nowUs, .deleting (writes.filter fun op => op.put?.isNone)⟩ :: post))
  | delete (s : TxnSys) (pre post : List Txn) (id : Nat) (writes : List TxnOp) (looks : List Look)
      (nowUs : Int) (key : Key) (todo : List TxnOp) (stampUs : Int)
      (ht : s.txns = pre ++ ⟨id, writes, looks, nowUs, .deleting (.delete key :: todo)⟩ :: post)
      (hP : P.install s (some (id, .delete key)) (.markTombstone key stampUs)) :
      Step P s ((s.step (some (id, .delete key)) (.markTombstone key stampUs)).setTxns
        (pre ++ ⟨id, writes, looks, nowUs, .deleting todo⟩ :: post))
  | done (s : TxnSys) (pre post : List Txn) (id : Nat) (writes : List TxnOp) (looks : List Look)
      (nowUs : Int) (ht : s.txns = pre ++ ⟨id, writes, looks, nowUs, .deleting []⟩ :: post) :
      Step P s { s with
        txns := pre ++ post
        committed := ⟨id, writes, looks, nowUs, .deleting []⟩ :: s.committed }
  /-- Another writer installs its change, a key expires, a tombstone is reaped, an
  entry is moved or its value written out. -/
  | other (s : TxnSys) (op : IndexOp) (hop : op.isReplay = false) (hP : P.install s none op) :
      Step P s (s.step none op)

def TxnSys.Run (P : TxnDiscipline) (s : TxnSys) : Prop :=
  ∃ kvSep, Relation.ReflTransGen (TxnSys.Step P) (.create kvSep) s

/-! ## The invariant -/

/-- What the index shows of a key whose last write is `last`. -/
def ShowsLast (last : Option KeyWrite) (shown : Option (Int × Int)) : Prop :=
  match last.bind KeyWrite.entry with
  | none => shown = none
  | some e => shown = some (e.writeTimestampUs, e.expiryUs) ∨ 0 < e.expiryUs ∧ shown = none

def Txn.Guards (t : Txn) (op : TxnOp) (o : Look) : Prop :=
  op ∈ t.writes ∧ o ∈ t.looks ∧ ∃ value ttl, op = .setIf o.key value ttl o.token

/-- Only the transaction wrote the key since the look. -/
def TxnSys.OwnSince (s : TxnSys) (t : Txn) (o : Look) : Prop :=
  ∀ w ∈ (s.history o.key).drop o.count, ∃ op, w.owner = some (t.id, op)

/-- The transaction installed the write, and nobody else wrote the key between
the look and that write. -/
def TxnSys.Settled (s : TxnSys) (t : Txn) (op : TxnOp) (o : Look) : Prop :=
  ∃ p e, o.count ≤ p ∧ (s.history o.key)[p]? = some ⟨some (t.id, op), some e⟩ ∧
    ∀ i w, o.count ≤ i → i < p → (s.history o.key)[i]? = some w →
      ∃ op', w.owner = some (t.id, op')

def TxnSys.Stands (s : TxnSys) (t : Txn) (op : TxnOp) (o : Look) : Prop :=
  match t.phase with
  | .validating checked todo => op ∈ checked ∧ s.OwnSince t o ∨ op ∈ todo
  | .putting todo => op ∈ todo ∧ s.OwnSince t o ∨ s.Settled t op o
  | .deleting _ => s.Settled t op o

/-- The index shows the last writes, no token of a key comes twice, and looks
remember the writes they saw. -/
structure TxnSys.Recorded (s : TxnSys) : Prop where
  shows : ∀ key, ShowsLast (s.history key).getLast? (s.c.idx.stamped key)
  tokens : ∀ key (i j : Nat) (w w' : KeyWrite) (e e' : IndexEntry),
    (s.history key)[i]? = some w → (s.history key)[j]? = some w' →
    w.entry = some e → w'.entry = some e' → e.liveToken 0 = e'.liveToken 0 → i = j
  looks : ∀ o ∈ s.looks, o.token ≠ 0 → ∃ (i : Nat) (w : KeyWrite) (e : IndexEntry), o.count = i + 1 ∧
    (s.history o.key)[i]? = some w ∧ w.entry = some e ∧ e.liveToken 0 = o.token

/-- Besides, transactions stand where their guards allow. -/
structure TxnSys.Sound (s : TxnSys) : Prop extends s.Recorded where
  counts : ∀ o ∈ s.looks, o.count ≤ (s.history o.key).length
  known : ∀ t ∈ s.txns, t.looks ⊆ s.looks
  stands : ∀ t ∈ s.txns, ∀ op o, t.Guards op o → s.Stands t op o
  settled : ∀ t ∈ s.committed, ∀ op o, t.Guards op o → s.Settled t op o
  ids : ((s.txns ++ s.committed).map Txn.id).Nodup
  fresh : ∀ i ∈ (s.txns ++ s.committed).map Txn.id, i < s.nextID

open Parties TxnSys

section Invariant

variable {s s' : TxnSys} {t t' : Txn} {op : TxnOp} {o : Look} {pre post : List Txn}
  {iop : IndexOp}

theorem ShowsLast.exists_entry {last : Option KeyWrite} {t x : Int}
    (h : ShowsLast last (some (t, x))) : ∃ w e, last = some w ∧ w.entry = some e ∧
      t = e.writeTimestampUs ∧ x = e.expiryUs := by
  unfold ShowsLast at h
  split at h
  · cases h
  next e he =>
    obtain ⟨w, hw, he⟩ := Option.bind_eq_some_iff.mp he
    simp only [Option.some.injEq, Prod.mk.injEq, reduceCtorEq, and_false, or_false] at h
    exact ⟨w, e, hw, he, h⟩

/-! ### Index operations -/

section

variable (owner : Option (Nat × TxnOp))

theorem TxnSys.history_step (s : TxnSys) (op : IndexOp) (key : Key) :
    ∃ ws, (s.step owner op).history key = s.history key ++ ws ∧
      (∀ w ∈ ws, w.owner = owner) ∧
      (ws ≠ [] → ∃ entry, op.wrote = some (key, entry) ∧ ws = [⟨owner, entry⟩]) := by
  unfold step
  split
  next k entry hop =>
    by_cases hk : key = k
    · subst hk
      refine ⟨[⟨owner, entry⟩], update_self .., ?_, fun _ => ⟨entry, hop, rfl⟩⟩
      intro w hw
      rw [mem_singleton.mp hw]
    · refine ⟨[], ?_, fun w hw => (by cases hw), fun h => absurd rfl h⟩
      rw [append_nil]
      exact update_of_ne hk ..
  · refine ⟨[], ?_, fun w hw => (by cases hw), fun h => absurd rfl h⟩
    rw [append_nil]

@[simp] theorem TxnSys.step_looks (s : TxnSys) (op : IndexOp) :
    (s.step owner op).looks = s.looks := by
  unfold step
  split <;> rfl

@[simp] theorem TxnSys.step_committed (s : TxnSys) (op : IndexOp) :
    (s.step owner op).committed = s.committed := by
  unfold step
  split <;> rfl

@[simp] theorem TxnSys.step_txns (s : TxnSys) (op : IndexOp) :
    (s.step owner op).txns = s.txns := by
  unfold step
  split <;> rfl

@[simp] theorem TxnSys.step_nextID (s : TxnSys) (op : IndexOp) :
    (s.step owner op).nextID = s.nextID := by
  unfold step
  split <;> rfl

/-- A write leaves the key as it says, other index operations at most expire
it. -/
theorem TxnSys.Recorded.shows_step (h : s.Recorded) {op : IndexOp} (hop : op.isReplay = false)
    (key : Key) :
    ShowsLast ((s.step owner op).history key).getLast? ((s.step owner op).c.idx.stamped key) := by
  -- a write of one key, by its effect on the index
  have hwrite : ∀ k entry, op.wrote = some (k, entry) →
      (s.c.step op).idx.stamped = update s.c.idx.stamped k
        (entry.map fun e => (e.writeTimestampUs, e.expiryUs)) →
      ShowsLast ((s.step owner op).history key).getLast? ((s.c.step op).idx.stamped key) := by
    intro k entry hwrote hstamped
    unfold step
    rw [hwrote, hstamped]
    simp only
    by_cases hk : key = k
    · subst hk
      rw [update_self, update_self, List.getLast?_append_cons]
      cases entry with
      | none => rfl
      | some => exact .inl rfl
    · rw [update_of_ne hk, update_of_ne hk]
      exact h.shows key
  -- an operation that is no write and changes nothing that shows
  have hsame : op.wrote = none → (s.c.step op).idx.stamped = s.c.idx.stamped →
      ShowsLast ((s.step owner op).history key).getLast? ((s.c.step op).idx.stamped key) := by
    intro hwrote hstamped
    unfold step
    rw [hwrote, hstamped]
    exact h.shows key
  cases op with
  | put k e v => exact hwrite k _ rfl (s.c.stamped_put k e v)
  | atomicInstall k e => exact hwrite k _ rfl (s.c.stamped_atomicInstall k e)
  | markTombstone k nowUs =>
    refine hwrite k none rfl ?_
    show (s.c.markTombstone k nowUs).idx.stamped = _
    rw [CountedIndex.idx_markTombstone]
    exact s.c.idx.stamped_markTombstone k nowUs
  | removeTombstone k => exact hsame rfl (s.c.stamped_removeTombstone k)
  | clearDirty => exact hsame rfl rfl
  | updateVLogOffset k o n packed => exact hsame rfl (s.c.idx.stamped_updateVLogOffset k o n packed)
  | markExpired k cutoffUs tombUs =>
    rcases s.c.stamped_markExpired k cutoffUs tombUs with hst | ⟨⟨p, hp, hpos⟩, hst⟩
    · exact hsame rfl hst
    · show ShowsLast (s.history key).getLast? ((s.c.markExpired k cutoffUs tombUs).idx.stamped key)
      rw [hst]
      have hshow := h.shows key
      by_cases hk : key = k
      · subst hk
        rw [update_self]
        unfold ShowsLast at hshow ⊢
        rw [hp] at hshow
        split
        · rfl
        next e he =>
          rw [he] at hshow
          simp only [Option.some.injEq, reduceCtorEq, and_false, or_false] at hshow
          refine .inr ⟨?_, rfl⟩
          rw [hshow] at hpos
          exact hpos
      · rw [update_of_ne hk]
        exact hshow
  | replayPut | replayMarkTombstone | replayTombstoneRecord => cases hop

theorem TxnSys.Recorded.step (h : s.Recorded) {op : IndexOp} (hop : op.isReplay = false)
    (hP : TxnDiscipline.guarded.install s owner op) :
    (s.step owner op).Recorded where
  shows := h.shows_step owner hop
  tokens := by
    intro key i j w w' e e' hi hj he he' htok
    obtain ⟨ws, hws, -, hnew⟩ := s.history_step owner op key
    rw [hws] at hi hj
    by_cases hnil : ws = []
    · rw [hnil, append_nil] at hi hj
      exact h.tokens key i j w w' e e' hi hj he he' htok
    · obtain ⟨entry, hwrote, hone⟩ := hnew hnil
      rw [hone] at hi hj
      have hfresh := (hP key entry hwrote).1
      -- each of the two places is old or the new one
      have hcase : ∀ n v, (s.history key ++ [⟨owner, entry⟩])[n]? = some v →
          v ∈ s.history key ∧ (s.history key)[n]? = some v ∨
            n = (s.history key).length ∧ v = ⟨owner, entry⟩ := by
        intro n v hn
        rcases Nat.lt_or_ge n (s.history key).length with hlt | hge
        · rw [List.getElem?_append_left hlt] at hn
          exact .inl ⟨mem_of_getElem? hn, hn⟩
        · rw [List.getElem?_append_right hge, List.getElem?_singleton] at hn
          split at hn
          next hz =>
            cases hn
            exact .inr ⟨by omega, rfl⟩
          · cases hn
      rcases hcase i w hi with ⟨hmem, hold⟩ | ⟨hlen, rfl⟩
      · rcases hcase j w' hj with ⟨-, hold'⟩ | ⟨-, rfl⟩
        · exact h.tokens key i j w w' e e' hold hold' he he' htok
        · exact absurd htok (hfresh e' he' w hmem e he)
      · rcases hcase j w' hj with ⟨hmem', -⟩ | ⟨hlen', rfl⟩
        · exact absurd htok.symm (hfresh e he w' hmem' e' he')
        · exact hlen.trans hlen'.symm
  looks := by
    intro o ho htok
    rw [step_looks] at ho
    obtain ⟨i, w, e, hcount, hi, he, heq⟩ := h.looks o ho htok
    obtain ⟨ws, hws, -, -⟩ := s.history_step owner op o.key
    refine ⟨i, w, e, hcount, ?_, he, heq⟩
    rw [hws, List.getElem?_append_left (List.getElem?_eq_some_iff.mp hi).1]
    exact hi

/-! ### Guarded writes -/

theorem TxnSys.Settled.append (h : s.Settled t op o)
    (hgrow : ∃ ws, s'.history o.key = s.history o.key ++ ws) : s'.Settled t op o := by
  obtain ⟨p, e, hle, hp, hown⟩ := h
  obtain ⟨ws, hws⟩ := hgrow
  have hlt : p < (s.history o.key).length := (List.getElem?_eq_some_iff.mp hp).1
  refine ⟨p, e, hle, ?_, ?_⟩
  · rw [hws, List.getElem?_append_left hlt]
    exact hp
  · intro i w hi hip hw
    rw [hws, List.getElem?_append_left (hip.trans hlt)] at hw
    exact hown i w hi hip hw

theorem TxnSys.settled_step (iop : IndexOp) (h : s.Settled t op o) :
    (s.step owner iop).Settled t op o := by
  obtain ⟨ws, hws, -, -⟩ := s.history_step owner iop o.key
  exact h.append ⟨ws, hws⟩

end

/-- A foreign write does not touch keys under a checked guard, an own write may. -/
theorem TxnSys.OwnSince.step (h : s.OwnSince t o) (hcount : o.count ≤ (s.history o.key).length)
    {owner : Option (Nat × TxnOp)}
    (hown : ∀ entry, iop.wrote = some (o.key, entry) → ∃ op, owner = some (t.id, op)) :
    (s.step owner iop).OwnSince t o := by
  obtain ⟨ws, hws, howner, hnew⟩ := s.history_step owner iop o.key
  intro w hw
  rw [hws, drop_append_of_le_length hcount] at hw
  rcases mem_append.mp hw with hw | hw
  · exact h w hw
  · obtain ⟨entry, hwrote, -⟩ := hnew (ne_nil_of_mem hw)
    rw [howner w hw]
    exact hown entry hwrote

theorem TxnSys.OwnSince.settled (h : s.OwnSince t o) (hcount : o.count ≤ (s.history o.key).length)
    {e : IndexEntry} (hwrote : iop.wrote = some (o.key, some e)) :
    (s.step (some (t.id, op)) iop).Settled t op o := by
  have hhist : (s.step (some (t.id, op)) iop).history o.key =
      s.history o.key ++ [⟨some (t.id, op), some e⟩] := by
    unfold TxnSys.step
    rw [hwrote]
    exact update_self ..
  refine ⟨(s.history o.key).length, e, hcount, ?_, ?_⟩
  · rw [hhist, List.getElem?_concat_length]
  · intro i w hi hlt hw
    rw [hhist, List.getElem?_append_left hlt] at hw
    apply h w
    apply mem_of_getElem? (i := i - o.count)
    rw [List.getElem?_drop, Nat.add_sub_cancel' hi]
    exact hw

/-- A guard that holds at a look's token finds the key as the look saw it. -/
theorem TxnSys.Sound.own_of_passes (h : s.Sound) (ht : t ∈ s.txns) (hg : t.Guards op o)
    (hpass : op.passes s.c.idx t.nowUs = true) (hP : TxnDiscipline.guarded.check s t op) :
    s.OwnSince t o := by
  obtain ⟨-, ho, value, ttl, rfl⟩ := hg
  have hmem := h.known t ht ho
  have hversion : s.c.idx.keyVersion o.key t.nowUs 0 = o.token := of_decide_eq_true hpass
  have hshow := h.shows o.key
  have hnil : (s.history o.key).drop o.count = [] := by
    by_cases htok : o.token = 0
    · -- were there a write after the look, the last one would show
      by_contra hne
      have hlast := List.getLast?_eq_some_getLast hne
      rw [htok] at hP hversion
      obtain ⟨e, he, hexp⟩ := hP o.key value ttl rfl o ho rfl htok _ (getLast_mem hne)
      rw [List.getLast?_drop] at hlast
      split at hlast
      · cases hlast
      · unfold ShowsLast at hshow
        rw [hlast, Option.bind_some, he] at hshow
        simp only [hexp, lt_irrefl, false_and, or_false] at hshow
        exact keyVersion_of_stamped hshow t.nowUs 0 hversion
    · -- the token of the last write is the token of the look's write
      rw [← hversion] at htok
      obtain ⟨e, -, hst, htoken⟩ := keyVersion_ne_zero htok
      rw [hversion] at htok htoken
      obtain ⟨i, w, e₀, hcount, hi, he₀, heq⟩ := h.looks o hmem htok
      rw [hst] at hshow
      obtain ⟨v, e₁, hlast, hv, hshow⟩ := hshow.exists_entry
      have hsame : e₀.liveToken 0 = e₁.liveToken 0 := by
        rw [heq, htoken]
        unfold IndexEntry.liveToken
        rw [hshow.1]
      rw [List.getLast?_eq_getElem?] at hlast
      have hplace := h.tokens o.key i _ w v e₀ e₁ hi hlast he₀ hv hsame
      apply drop_eq_nil_of_le
      omega
  intro w hw
  rw [hnil] at hw
  cases hw

theorem TxnSys.sound_create : (create kvSep).Sound where
  shows := fun key => rfl
  tokens := by
    intro key i j w w' e e' hi
    cases hi
  looks := by
    intro o ho
    cases ho
  counts := by
    intro o ho
    cases ho
  known := by
    intro t ht
    cases ht
  stands := by
    intro t ht
    cases ht
  settled := by
    intro t ht
    cases ht
  ids := nodup_nil
  fresh := by
    intro i hi
    cases hi

/-! ### Steps -/

theorem TxnSys.Recorded.setTxns (h : s.Recorded) (txns : List Txn) : (s.setTxns txns).Recorded :=
  { h with }

/-- Nothing but transactions and the index changes, and the transactions stand
where their guards allow. -/
theorem TxnSys.Sound.move (h : s.Sound) (hrec : s'.Recorded) (hlooks : s'.looks = s.looks)
    (hgrow : ∀ key, ∃ ws, s'.history key = s.history key ++ ws)
    (hcommitted : s'.committed = s.committed) (hnext : s'.nextID = s.nextID)
    (hids : (s'.txns.map Txn.id).Sublist (s.txns.map Txn.id))
    (htxns : ∀ t ∈ s'.txns, t.looks ⊆ s.looks ∧ ∀ op o, t.Guards op o → s'.Stands t op o) :
    s'.Sound := by
  have hsub : ((s'.txns ++ s'.committed).map Txn.id).Sublist
      ((s.txns ++ s.committed).map Txn.id) := by
    rw [map_append, map_append, hcommitted]
    exact hids.append_right _
  constructor
  · exact hrec
  · intro o ho
    rw [hlooks] at ho
    obtain ⟨ws, hws⟩ := hgrow o.key
    rw [hws, length_append]
    exact (h.counts o ho).trans (Nat.le_add_right ..)
  · intro t ht
    rw [hlooks]
    exact (htxns t ht).1
  · intro t ht
    exact (htxns t ht).2
  · intro t ht op o hg
    rw [hcommitted] at ht
    exact (h.settled t ht op o hg).append (hgrow o.key)
  · exact h.ids.sublist hsub
  · intro i hi
    rw [hnext]
    exact h.fresh i (hsub.subset hi)

theorem TxnSys.Sound.advance (h : s.Sound) (ht : s.txns = pre ++ t :: post) (hid : t'.id = t.id)
    (hlooks : t'.looks = t.looks) (hstands : ∀ op o, t'.Guards op o → s.Stands t' op o) :
    (s.setTxns (pre ++ t' :: post)).Sound := by
  refine h.move (h.toRecorded.setTxns _) rfl (fun key => ⟨[], (append_nil _).symm⟩) rfl rfl ?_ ?_
  · show ((pre ++ t' :: post).map Txn.id).Sublist (s.txns.map Txn.id)
    rw [ht, map_append, map_append, map_cons, map_cons, hid]
  · intro x hx
    rcases mem_replaced ht hx with rfl | hx
    · refine ⟨?_, hstands⟩
      rw [hlooks]
      exact h.known t (mem_middle ht)
    · exact ⟨h.known x hx, h.stands x hx⟩

theorem TxnSys.Sound.stands_step (h : s.Sound) (ht : t ∈ s.txns) {owner : Option (Nat × TxnOp)}
    (hP : TxnDiscipline.guarded.install s owner iop) (hother : owner.map Prod.fst ≠ some t.id)
    (hg : t.Guards op o) : (s.step owner iop).Stands t op o := by
  have hold := h.stands t ht op o hg
  obtain ⟨-, ho, value, ttl, rfl⟩ := hg
  have hcount := h.counts o (h.known t ht ho)
  have hown : .setIf o.key value ttl o.token ∈ t.pending → s.OwnSince t o →
      (s.step owner iop).OwnSince t o := by
    intro hpending hsince
    apply hsince.step hcount
    intro entry hwrote
    exact absurd ⟨value, ttl, o.token, hpending⟩ ((hP o.key entry hwrote).2 t ht hother)
  unfold TxnSys.Stands at hold ⊢
  unfold Txn.pending at hown
  cases hphase : t.phase with
  | validating =>
    rw [hphase] at hold hown
    rcases hold with hold | hold
    · exact .inl ⟨hold.1, hown hold.1 hold.2⟩
    · exact .inr hold
  | putting =>
    rw [hphase] at hold hown
    rcases hold with hold | hold
    · exact .inl ⟨hold.1, hown hold.1 hold.2⟩
    · exact .inr (settled_step owner iop hold)
  | deleting =>
    rw [hphase] at hold
    exact settled_step owner iop hold

theorem TxnSys.Sound.install (h : s.Sound) (ht : s.txns = pre ++ t :: post)
    (hop : iop.isReplay = false) (hP : TxnDiscipline.guarded.install s (some (t.id, op)) iop)
    (hid : t'.id = t.id) (hlooks : t'.looks = t.looks)
    (hstands : ∀ op' o, t'.Guards op' o → (s.step (some (t.id, op)) iop).Stands t' op' o) :
    ((s.step (some (t.id, op)) iop).setTxns (pre ++ t' :: post)).Sound := by
  have hids := h.ids
  rw [ht, map_append, map_append, map_cons] at hids
  have hne : ∀ x ∈ pre ++ post, x.id ≠ t.id := by
    intro x hx heq
    have hnd := (nodup_append.mp hids).1
    rw [nodup_middle, nodup_cons, ← map_append] at hnd
    exact hnd.1 (heq ▸ mem_map_of_mem hx)
  refine h.move ((h.toRecorded.step _ hop hP).setTxns _) (s.step_looks _ _) ?_
    (s.step_committed _ _) (s.step_nextID _ _) ?_ ?_
  · intro key
    obtain ⟨ws, hws, -⟩ := s.history_step (some (t.id, op)) iop key
    exact ⟨ws, hws⟩
  · show ((pre ++ t' :: post).map Txn.id).Sublist (s.txns.map Txn.id)
    rw [ht, map_append, map_append, map_cons, map_cons, hid]
  · intro x hx
    rcases mem_middle_iff.mp hx with rfl | hx
    · refine ⟨?_, hstands⟩
      rw [hlooks]
      exact h.known t (mem_middle ht)
    · have hmem := mem_rest ht hx
      refine ⟨h.known x hmem, fun op' o hg => h.stands_step hmem hP ?_ hg⟩
      intro heq
      exact hne x hx (Option.some.inj heq).symm

theorem TxnSys.Sound.look (h : s.Sound) (key : Key) (nowUs : Int) :
    TxnSys.Sound { s with
      looks := ⟨key, s.c.idx.keyVersion key nowUs 0, (s.history key).length⟩ :: s.looks } :=
  { h with
    looks := by
      intro o ho htok
      rcases mem_cons.mp ho with rfl | ho
      · obtain ⟨e, -, hst, htoken⟩ := keyVersion_ne_zero htok
        have hshow := h.shows key
        rw [hst] at hshow
        obtain ⟨w, e₁, hlast, hw, hshow⟩ := hshow.exists_entry
        rw [List.getLast?_eq_getElem?] at hlast
        have hlt := (List.getElem?_eq_some_iff.mp hlast).1
        refine ⟨(s.history key).length - 1, w, e₁, ?_, hlast, hw, ?_⟩
        · show (s.history key).length = _
          omega
        · rw [htoken]
          unfold IndexEntry.liveToken
          rw [hshow.1]
      · exact h.looks o ho htok
    counts := forall_mem_cons.mpr ⟨Nat.le_refl _, h.counts⟩
    known := fun t ht o ho => mem_cons_of_mem _ (h.known t ht ho) }

/-- While tokens of a key are not used twice, nobody overtakes a checked guard and
absence is not restored, the invariant holds. -/
theorem TxnSys.Sound.step (h : s.Sound) (hstep : TxnSys.Step .guarded s s') : s'.Sound := by
  cases hstep with
  | look key nowUs => exact h.look key nowUs
  | commit =>
    constructor
    · exact ⟨h.shows, h.tokens, h.looks⟩
    · exact h.counts
    · exact forall_mem_cons.mpr ⟨List.Subset.refl _, h.known⟩
    · exact forall_mem_cons.mpr ⟨fun op o hg => .inr hg.1, h.stands⟩
    · exact h.settled
    · apply nodup_cons.mpr
      exact ⟨fun hmem => Nat.lt_irrefl _ (h.fresh _ hmem), h.ids⟩
    · exact forall_mem_cons.mpr
        ⟨Nat.lt_succ_self _, fun i hi => Nat.lt_succ_of_lt (h.fresh i hi)⟩
  | check pre post id writes looks nowUs checked todo op ht hpass hP =>
    have hmem := mem_middle ht
    refine h.advance ht rfl rfl ?_
    intro op' o hg
    rcases h.stands _ hmem op' o hg with hold | hold
    · exact .inl ⟨mem_append_left _ hold.1, hold.2⟩
    · rcases mem_cons.mp hold with rfl | hold
      · have hown := h.own_of_passes hmem hg hpass hP
        exact .inl ⟨mem_append_right _ (mem_singleton_self _), hown⟩
      · exact .inr hold
  | fail pre post t ht =>
    refine h.move (h.toRecorded.setTxns _) rfl (fun key => ⟨[], (append_nil _).symm⟩) rfl rfl ?_ ?_
    · show ((pre ++ post).map Txn.id).Sublist (s.txns.map Txn.id)
      rw [ht]
      exact ((sublist_cons_self t post).append_left pre).map Txn.id
    · intro x hx
      exact ⟨h.known x (mem_rest ht hx), h.stands x (mem_rest ht hx)⟩
  | startPuts pre post id writes looks nowUs checked ht =>
    refine h.advance ht rfl rfl ?_
    intro op o hg
    rcases h.stands _ (mem_middle ht) op o hg with hold | hold
    · obtain ⟨hop, -, value, ttl, rfl⟩ := hg
      exact .inl ⟨mem_filter.mpr ⟨hop, rfl⟩, hold.2⟩
    · cases hold
  | put pre post id writes looks nowUs before after op p clk l ht hput horder hP =>
    have hmem := mem_middle ht
    refine h.install ht rfl hP rfl rfl ?_
    intro op' o hg
    have hcount := h.counts o (h.known _ hmem hg.2.1)
    rcases h.stands _ hmem op' o hg with hold | hold
    · by_cases heq : op' = op
      · subst heq
        obtain ⟨-, -, value, ttl, rfl⟩ := hg
        cases hput
        exact .inr (hold.2.settled hcount rfl)
      · refine .inl ⟨?_, hold.2.step hcount fun _ _ => ⟨op, rfl⟩⟩
        have hin := hold.1
        simp only [mem_append, mem_cons, heq, false_or] at hin
        exact mem_append.mpr hin
    · exact .inr (settled_step _ _ hold)
  | startDeletes pre post id writes looks nowUs ht =>
    refine h.advance ht rfl rfl ?_
    intro op o hg
    rcases h.stands _ (mem_middle ht) op o hg with hold | hold
    · cases hold.1
    · exact hold
  | delete pre post id writes looks nowUs key todo stampUs ht hP =>
    refine h.install ht rfl hP rfl rfl ?_
    intro op o hg
    exact settled_step _ _ (h.stands _ (mem_middle ht) op o hg)
  | done pre post id writes looks nowUs ht =>
    have hperm : ((pre ++ post) ++ ⟨id, writes, looks, nowUs, .deleting []⟩ :: s.committed).Perm
        (s.txns ++ s.committed) := by
      rw [ht, append_assoc, append_assoc]
      apply List.Perm.append_left
      exact perm_middle
    constructor
    · exact ⟨h.shows, h.tokens, h.looks⟩
    · exact h.counts
    · exact fun t hmem => h.known t (mem_rest ht hmem)
    · exact fun t hmem => h.stands t (mem_rest ht hmem)
    · exact forall_mem_cons.mpr ⟨h.stands _ (mem_middle ht), h.settled⟩
    · exact (hperm.map Txn.id).nodup_iff.mpr h.ids
    · intro i hi
      exact h.fresh i ((hperm.map Txn.id).subset hi)
  | other op hop hP =>
    refine h.move (h.toRecorded.step none hop hP) (s.step_looks _ _) ?_ (s.step_committed _ _)
      (s.step_nextID _ _) ?_ ?_
    · intro key
      obtain ⟨ws, hws, -⟩ := s.history_step none op key
      exact ⟨ws, hws⟩
    · rw [step_txns]
    · intro t ht
      rw [step_txns] at ht
      exact ⟨h.known t ht, fun op' o hg => h.stands_step ht hP (fun heq => by cases heq) hg⟩

theorem TxnSys.Run.sound (h : TxnSys.Run .guarded s) : s.Sound := by
  obtain ⟨kvSep, h⟩ := h
  induction h with
  | refl => exact sound_create kvSep
  | tail _ hstep ih => exact ih.step hstep

/-- The first write after the look is the transaction's. -/
theorem TxnSys.Settled.first (h : s.Settled t op o) :
    ∃ w op', (s.history o.key)[o.count]? = some w ∧ w.owner = some (t.id, op') := by
  obtain ⟨p, e, hle, hp, hown⟩ := h
  rcases Nat.eq_or_lt_of_le hle with heq | hlt
  · rw [← heq] at hp
    exact ⟨_, op, hp, rfl⟩
  · have hin := (List.getElem?_eq_some_iff.mp hp).1
    have hw := List.getElem?_eq_getElem (hlt.trans hin)
    obtain ⟨op', hop'⟩ := hown o.count _ (Nat.le_refl _) hlt hw
    exact ⟨_, op', hw, hop'⟩

/-- Two transactions cannot both have written first after one look. -/
theorem TxnSys.Settled.id_eq {op' : TxnOp} (h : s.Settled t op o) (h' : s.Settled t' op' o) :
    t.id = t'.id := by
  obtain ⟨w, op₁, hw, hown⟩ := h.first
  obtain ⟨w', op₂, hw', hown'⟩ := h'.first
  rw [hw] at hw'
  cases hw'
  rw [hown] at hown'
  exact (Prod.ext_iff.mp (Option.some.inj hown')).1

/-- A foreign write lies right after the look. -/
theorem TxnSys.not_settled {w : KeyWrite} (hw : (s.history o.key)[o.count]? = some w)
    (howner : w.owner = none) : ¬s.Settled t op o := by
  intro h
  obtain ⟨w', op', hw', hown⟩ := h.first
  rw [hw] at hw'
  cases hw'
  rw [howner] at hown
  cases hown

/-- In every run that meets the condition, when a commit that guards a write by a
look returned nil, it installed the write and nobody else wrote the key between
the look and that write; and of the commits after one look only one
returned nil. -/
theorem TxnSys.Run.setIf_alone (h : TxnSys.Run .guarded s) :
    (∀ t ∈ s.committed, ∀ o ∈ t.looks, ∀ value ttl,
      .setIf o.key value ttl o.token ∈ t.writes →
        s.Settled t (.setIf o.key value ttl o.token) o) ∧
    ∀ t ∈ s.committed, ∀ t' ∈ s.committed, ∀ o ∈ t.looks, o ∈ t'.looks →
      (∃ value ttl, .setIf o.key value ttl o.token ∈ t.writes) →
      (∃ value ttl, .setIf o.key value ttl o.token ∈ t'.writes) → t = t' := by
  have hsound := h.sound
  constructor
  · intro t ht o ho value ttl hop
    exact hsound.settled t ht _ o ⟨hop, ho, value, ttl, rfl⟩
  · intro t ht t' ht' o ho ho' hop hop'
    obtain ⟨value, ttl, hop⟩ := hop
    obtain ⟨value', ttl', hop'⟩ := hop'
    have hs := hsound.settled t ht _ o ⟨hop, ho, value, ttl, rfl⟩
    have hs' := hsound.settled t' ht' _ o ⟨hop', ho', value', ttl', rfl⟩
    have hids := hsound.ids
    rw [map_append] at hids
    exact inj_on_of_nodup_map (nodup_append.mp hids).2.1 ht ht' (hs.id_eq hs')

/-- Two commits guard a put by one look at an earlier put: one installs it, the other
fails. -/
theorem setIf_alone_two_commits :
    ∃ s t o, TxnSys.Run .guarded s ∧ s.nextID = 2 ∧ s.committed = [t] ∧ o ∈ t.looks ∧
      o.token = 5 ∧ s.Settled t (.setIf o.key [98] 0 o.token) o := by
  have h : Relation.ReflTransGen (TxnSys.Step .guarded) (.create true) (.create true) := .refl
  have h := h.tail (.other _ (.put [107] ⟨⟨0, 0, 1, 1, 5, 0, 0, {}⟩, rfl⟩ none) rfl (by
    intro key entry hwrote
    refine ⟨fun e he w hw => ?_, fun t ht => (by cases ht)⟩
    cases hw))
  have h := h.tail (.look _ [107] 7)
  have h := h.tail (.commit _ [.setIf [107] [98] 0 5] 7)
  have h := h.tail (.commit _ [.setIf [107] [99] 0 5] 7)
  have h := h.tail (.check _ [_] [] _ _ _ _ [] [] _ rfl (by decide) (by
    intro key value ttl heq
    cases heq))
  have h := h.tail (.startPuts _ [_] [] _ _ _ _ _ rfl)
  have h := h.tail (.put _ [_] [] _ _ _ _ [] [] _ _ ⟨6, 6⟩ ⟨0, 64, 1, false, false, false⟩ rfl rfl
    (fun op hop => (by cases hop)) (by
      intro key entry hwrote
      cases hwrote
      constructor
      · intro e he w hw e' he'
        cases he
        rw [mem_singleton.mp hw] at he'
        cases he'
        decide
      · intro t ht hne
        rcases mem_cons.mp ht with rfl | ht
        · rintro ⟨_, _, _, hop⟩
          cases hop
        · rw [mem_singleton.mp ht] at hne
          exact absurd rfl hne))
  have h := h.tail (.startDeletes _ [_] [] _ _ _ _ rfl)
  have h := h.tail (.done _ [_] [] _ _ _ _ rfl)
  have h := h.tail (.fail _ [] [] _ rfl)
  have hrun : TxnSys.Run .guarded _ := ⟨true, h⟩
  refine ⟨_, _, _, hrun, rfl, rfl, mem_singleton_self _, rfl, ?_⟩
  exact (TxnSys.Run.setIf_alone hrun).1 _ (mem_singleton_self _) _ (mem_singleton_self _)
    [98] 0 (mem_singleton_self _)

/-- A commit that nobody disturbs succeeds when its guard holds. -/
theorem TxnSys.Run.commit_setIf (h : TxnSys.Run .none s) (hidle : s.txns = []) (key : Key)
    (nowUs : Int) {v : Nat} (hv : s.c.idx.keyVersion key nowUs 0 = v) (value : List UInt8)
    (ttl : Int) (clk : WriteClock) (l : Located) :
    ∃ s', TxnSys.Run .none s' ∧
      s'.committed =
        ⟨s.nextID, [.setIf key value ttl v], s.looks, nowUs, .deleting []⟩ :: s.committed ∧
      s'.history key = s.history key ++
        [⟨some (s.nextID, .setIf key value ttl v), some (batchEntry s.kvSep clk value ttl l)⟩] := by
  obtain ⟨kvSep, h⟩ := h
  have h₁ := h.tail (.commit s [.setIf key value ttl v] nowUs)
  rw [hidle] at h₁
  have h₂ := h₁.tail (.check _ [] [] _ _ _ _ [] [] _ rfl (decide_eq_true hv) trivial)
  have h₃ := h₂.tail (.startPuts _ [] [] _ _ _ _ _ rfl)
  have h₄ := h₃.tail (.put _ [] [] _ _ _ _ [] [] _ _ clk l rfl rfl (fun op hop => (by cases hop))
    trivial)
  have h₅ := h₄.tail (.startDeletes _ [] [] _ _ _ _ rfl)
  have h₆ := h₅.tail (.done _ [] [] _ _ _ _ rfl)
  exact ⟨_, ⟨kvSep, h₆⟩, rfl, update_self ..⟩

/-- Two commits after one look both check their guard before either of them writes,
and both return nil; and a commit returns nil although the key was written
after the look: with the stamp that it had before, or put and deleted after
it was seen absent. -/
theorem setIf_not_alone :
    (∃ s t t' o value value', TxnSys.Run .none s ∧ t ∈ s.committed ∧ t' ∈ s.committed ∧
      t.id ≠ t'.id ∧ o ∈ t.looks ∧ o ∈ t'.looks ∧ .setIf o.key value 0 o.token ∈ t.writes ∧
      .setIf o.key value' 0 o.token ∈ t'.writes) ∧
    (∃ s t o value, TxnSys.Run .none s ∧ t ∈ s.committed ∧ o ∈ t.looks ∧ o.token = 5 ∧
      .setIf o.key value 0 o.token ∈ t.writes ∧
      ¬s.Settled t (.setIf o.key value 0 o.token) o) ∧
    ∃ s t o value, TxnSys.Run .none s ∧ t ∈ s.committed ∧ o ∈ t.looks ∧ o.token = 0 ∧
      .setIf o.key value 0 o.token ∈ t.writes ∧
      ¬s.Settled t (.setIf o.key value 0 o.token) o := by
  let e : LiveEntry := ⟨⟨0, 0, 1, 1, 5, 0, 0, {}⟩, rfl⟩
  let l : Located := ⟨0, 64, 1, false, false, false⟩
  have h₀ : Relation.ReflTransGen (TxnSys.Step .none) (.create true) (.create true) := .refl
  have h₁ := h₀.tail (.other _ (.put [107] e none) rfl trivial)
  refine ⟨?_, ?_, ?_⟩
  · have h₂ := h₁.tail (.look _ [107] 7)
    have h₃ := h₂.tail (.commit _ [.setIf [107] [98] 0 5] 7)
    have h₄ := h₃.tail (.commit _ [.setIf [107] [99] 0 5] 7)
    have h₅ := h₄.tail (.check _ [] _ _ _ _ _ [] [] _ rfl (by decide) trivial)
    have h₆ := h₅.tail (.check _ [_] [] _ _ _ _ [] [] _ rfl (by decide) trivial)
    have h₇ := h₆.tail (.startPuts _ [] _ _ _ _ _ _ rfl)
    have h₈ := h₇.tail (.put _ [] _ _ _ _ _ [] [] _ _ ⟨6, 6⟩ l rfl rfl
      (fun op hop => (by cases hop)) trivial)
    have h₉ := h₈.tail (.startDeletes _ [] _ _ _ _ _ rfl)
    have h₁₀ := h₉.tail (.done _ [] _ _ _ _ _ rfl)
    have h₁₁ := h₁₀.tail (.startPuts _ [] [] _ _ _ _ _ rfl)
    have h₁₂ := h₁₁.tail (.put _ [] [] _ _ _ _ [] [] _ _ ⟨7, 7⟩ l rfl rfl
      (fun op hop => (by cases hop)) trivial)
    have h₁₃ := h₁₂.tail (.startDeletes _ [] [] _ _ _ _ rfl)
    have h₁₄ := h₁₃.tail (.done _ [] [] _ _ _ _ rfl)
    exact ⟨_, _, _, _, [98], [99], ⟨true, h₁₄⟩, mem_cons_self ..,
      mem_cons_of_mem _ (mem_cons_self ..), Nat.zero_ne_one, mem_cons_self ..,
      mem_cons_self .., mem_cons_self .., mem_cons_self ..⟩
  · have h₂ := h₁.tail (.look _ [107] 7)
    have h₃ := h₂.tail (.other _ (.put [107] e none) rfl trivial)
    have hrun : TxnSys.Run .none _ := ⟨true, h₃⟩
    obtain ⟨s, hs, hcommitted, hhistory⟩ :=
      hrun.commit_setIf rfl [107] 7 rfl [98] 0 ⟨6, 6⟩ l
    refine ⟨s, ⟨0, [.setIf [107] [98] 0 5], [⟨[107], 5, 1⟩], 7, .deleting []⟩, ⟨[107], 5, 1⟩, [98],
      hs, ?_, mem_cons_self .., rfl, mem_cons_self .., ?_⟩
    · rw [hcommitted]
      exact mem_cons_self ..
    · refine not_settled (w := ⟨none, some e.1⟩) ?_ rfl
      rw [hhistory]
      rfl
  · have h₂ := h₀.tail (.look _ [107] 7)
    have h₃ := h₂.tail (.other _ (.put [107] e none) rfl trivial)
    have h₄ := h₃.tail (.other _ (.markTombstone [107] 6) rfl trivial)
    have hrun : TxnSys.Run .none _ := ⟨true, h₄⟩
    obtain ⟨s, hs, hcommitted, hhistory⟩ :=
      hrun.commit_setIf rfl [107] 7 rfl [98] 0 ⟨6, 6⟩ l
    refine ⟨s, ⟨0, [.setIf [107] [98] 0 0], [⟨[107], 0, 0⟩], 7, .deleting []⟩, ⟨[107], 0, 0⟩, [98],
      hs, ?_, mem_cons_self .., rfl, mem_cons_self .., ?_⟩
    · rw [hcommitted]
      exact mem_cons_self ..
    · refine not_settled (w := ⟨none, some e.1⟩) ?_ rfl
      rw [hhistory]
      rfl

end Invariant

end VeltrixDB.Storage
