import VeltrixDB.Lib.ByteOrder
import Mathlib.Data.Finset.Card
import Mathlib.Data.Finset.Insert
import Mathlib.Data.List.AList
import Mathlib.Data.List.Sort

/-!
# The replication engine

A node in replicated mode retains every write of its own until all its replicas have
acknowledged it (`replication/engine.go`, `replication/membership.go`).  This
module has the data of the engine and what each critical section of its lock does to
them; the goroutines that run the sections are in `Replication.Run`.

A replica is known by the pointer to its `ReplicaInfo`, here a `Handle`: the
sections change an object only as long as it is registered, since nothing reads it
later.  Metrics, log texts, the transports and `SyncedAt` are left out.

Main results:

- Theorem `evictAll_spec`: what evictions leave, and which replicas they flag.
- Theorem `recordAcks_spec`: what acknowledgements leave.
-/

open scoped Bytes

namespace VeltrixDB.Replication

open List

/-! ## Data -/

/-- `WriteOperation`, without the fields that nobody reads. -/
structure WriteOperation where
  seqNum : ℕ
  key : List UInt8
  value : List UInt8
  timestamp : Int
  ttl : Int
  isTombstone : Bool
deriving DecidableEq, Repr

inductive ConsistencyLevel where
  | eventual | strong | quorum
deriving DecidableEq, Repr

inductive ReplicaState where
  | sync | syncPending | lag | failed
deriving DecidableEq, Repr

/-- The fields of `ReplicationConfig` that the engine's logic reads; whether a
source for catching up is set is kept with them. -/
structure ReplicationConfig where
  consistencyLevel : ConsistencyLevel
  batchSize : Int
  backpressureLagBytes : ℕ
  recoveryProbeInterval : Int
  recoveryMaxBackoff : Int
  maxRetainedOps : Int
  tombstoneRetention : Int
  catchUpSource : Bool
deriving DecidableEq, Repr

/-- `DefaultReplicationConfig`, with a source for catching up. -/
def ReplicationConfig.default : ReplicationConfig where
  consistencyLevel := .quorum
  batchSize := 100
  backpressureLagBytes := 0
  recoveryProbeInterval := 0
  recoveryMaxBackoff := 0
  maxRetainedOps := 0
  tombstoneRetention := 0
  catchUpSource := true

def second : Int := 1000000000

def catchUpSkew : Int := 10 * second

/-- The capacity of `writeQueue`. -/
def writeQueueCap : ℕ := 10000

namespace ReplicationConfig

variable (cfg : ReplicationConfig)

def probeInterval : Int :=
  if 0 < cfg.recoveryProbeInterval then cfg.recoveryProbeInterval else second

def maxBackoff : Int := if 0 < cfg.recoveryMaxBackoff then cfg.recoveryMaxBackoff else 30 * second

def maxRetained : Int := if 0 < cfg.maxRetainedOps then cfg.maxRetainedOps else 100000

/-- `batchSize()`, the size of the batches of a replay. -/
def replaySize : ℕ := if 0 < cfg.batchSize then cfg.batchSize.toNat else 100

/-- The change feed no longer has all deletes since `since`. -/
def tooOld (since now : Int) : Bool :=
  decide (0 < cfg.tombstoneRetention ∧ since - catchUpSkew < now - cfg.tombstoneRetention)

end ReplicationConfig

/-- A pointer to a `ReplicaInfo`: which object, and the node it is about. -/
structure Handle (N : Type) where
  ref : ℕ
  nodeID : N
deriving DecidableEq, Repr

structure ReplicaInfo (N : Type) extends Handle N where
  state : ReplicaState
  lastAckSeqNum : ℕ
  lagBytes : ℕ
  lastAckAt : Int
  nextProbeAt : Int
  backoff : Int
  recovering : Bool
  needsResync : Bool
  resyncFromNs : Int
  catchingUpFromNs : Int
  deleteGap : Bool
  freshMember : Bool
deriving DecidableEq, Repr

structure PendingOp (N : Type) where
  op : WriteOperation
  acked : Finset N
deriving DecidableEq

abbrev Retention (N : Type) := AList fun _ : ℕ => PendingOp N

/-- The fields of `ReplicationEngine` that its lock guards, and the write queue.
`nextRef` counts the objects that have been made. -/
structure ReplicationEngine (N : Type) where
  replicaStates : List (ReplicaInfo N)
  pendingWrites : Retention N
  writeQueue : List WriteOperation
  loaded : List (N × Int)
  stateCorrupt : Bool
  markGen : ℕ
  nextRef : ℕ

variable {N : Type} {p : PendingOp N}

/-! ## Sections on one replica -/

namespace ReplicaInfo

variable (cfg : ReplicationConfig) (r : ReplicaInfo N)

/-- `flagResyncLocked`. -/
def flagResync (tsNs : Int) : ReplicaInfo N :=
  { r with
    resyncFromNs := if r.needsResync = false ∨ tsNs < r.resyncFromNs then tsNs else r.resyncFromNs
    needsResync := true }

/-- `flagResyncLocked` for several writes. -/
def flagAll (tss : List Int) : ReplicaInfo N := tss.foldl flagResync r

/-- `markFailedLocked`. -/
def markFailed (now : Int) : ReplicaInfo N :=
  if r.state = .failed then r
  else
    let backoff := if r.backoff ≤ 0 then cfg.probeInterval else r.backoff
    { r with state := .failed, backoff := backoff, nextProbeAt := now + backoff }

/-- An acknowledgement of `op` in `recordAcksLocked`. -/
def ackSeq (op : WriteOperation) : ReplicaInfo N :=
  { r with lastAckSeqNum := max r.lastAckSeqNum op.seqNum }

/-- What an overflow of the write queue does to a replica. -/
def markLagging : ReplicaInfo N := if r.state = .sync then { r with state := .lag } else r

def backInSync : ReplicaInfo N := if r.state = .lag then { r with state := .sync } else r

/-- `recoveryFailed`; the attempt is over with it. -/
def recoveryFailed (now : Int) : ReplicaInfo N :=
  let doubled := if r.backoff ≤ 0 then cfg.probeInterval else 2 * r.backoff
  let backoff := if cfg.maxBackoff < doubled then cfg.maxBackoff else doubled
  { r with state := .failed, backoff := backoff, nextProbeAt := now + backoff, recovering := false }

def beginCatchUp (since : Int) (full : Bool) : ReplicaInfo N :=
  { r with
    needsResync := false
    catchingUpFromNs := since
    deleteGap := r.deleteGap || (full && !r.freshMember) }

/-- Where a catch-up starts to read: a replica further behind than the tombstones reach
reads the whole feed, and so does a new member. -/
def catchUpFrom (since : Int) (full : Bool) : Int :=
  if r.freshMember || full then 0 else since - catchUpSkew

def endCatchUp (since : Int) (ok : Bool) : ReplicaInfo N :=
  if ok then { r with catchingUpFromNs := 0, freshMember := false }
  else { r with catchingUpFromNs := 0 }.flagResync since

/-- The section with which `recoverReplica` ends when nothing retained is left. -/
def finishRecovery : ReplicaInfo N :=
  if r.needsResync then { r with state := .failed, nextProbeAt := 0, recovering := false }
  else { r with state := .sync, backoff := 0, recovering := false }

/-- The section of `AddMemberReplica` that makes a new replica a member. -/
def makeMember : ReplicaInfo N :=
  { r with
    state := .failed
    needsResync := true
    resyncFromNs := 1
    freshMember := true
    backoff := cfg.probeInterval
    nextProbeAt := 0 }

end ReplicaInfo

/-! ## Sections of the engine -/

namespace ReplicationEngine

variable [DecidableEq N] (cfg : ReplicationConfig) (e : ReplicationEngine N)

/-- Change the object that `h` points to. -/
def modify (h : Handle N) (f : ReplicaInfo N → ReplicaInfo N) : ReplicationEngine N :=
  { e with replicaStates := e.replicaStates.map fun r => if r.toHandle = h then f r else r }

/-- `fullyAckedLocked`. -/
def fullyAcked (p : PendingOp N) : Bool := e.replicaStates.all fun r => r.nodeID ∈ p.acked

variable (op : WriteOperation)

def retains : Bool :=
  (e.pendingWrites.lookup op.seqNum).any fun p => p.op = op

/-- One round of `evictOldestLocked`. -/
def evict (seq : ℕ) : ReplicationEngine N :=
  match e.pendingWrites.lookup seq with
  | none => e
  | some p =>
    { e with
      pendingWrites := e.pendingWrites.erase seq
      replicaStates := e.replicaStates.map fun r =>
        if r.nodeID ∈ p.acked then r else r.flagResync p.op.timestamp }

/-- The sequence numbers that `evictOldestLocked` drops. -/
def oldest : List ℕ :=
  (e.pendingWrites.keys.insertionSort (· ≤ ·)).take (max 1 (e.pendingWrites.keys.length / 10))

/-- `evictOldestLocked`. -/
def evictOldest : ReplicationEngine N := e.oldest.foldl evict e

/-- Retain `op`, with no acknowledgement. -/
def retain : ReplicationEngine N :=
  { e with pendingWrites := e.pendingWrites.insert op.seqNum ⟨op, ∅⟩ }

/-- The first section of `OnLocalWrite`. -/
def onLocalWrite : ReplicationEngine N :=
  if cfg.maxRetained < (e.retain op).pendingWrites.keys.length then (e.retain op).evictOldest
  else e.retain op

/-- The section of `OnLocalWrite` for a full queue. -/
def overflow : ReplicationEngine N :=
  { e with replicaStates := e.replicaStates.map ReplicaInfo.markLagging }

/-- The worker takes an operation from the queue; it retains it again if it is not. -/
def receive (rest : List WriteOperation) : ReplicationEngine N :=
  let e := { e with writeQueue := rest }
  if (e.pendingWrites.lookup op.seqNum).isSome then e else e.retain op

/-- One round of `recordAcksLocked`. -/
def recordAck (h : Handle N) (op : WriteOperation) : ReplicationEngine N :=
  let e := e.modify h fun r => r.ackSeq op
  match e.pendingWrites.lookup op.seqNum with
  | none => e
  | some p =>
    if p.op = op then
      let p := { p with acked := insert h.nodeID p.acked }
      if e.fullyAcked p then { e with pendingWrites := e.pendingWrites.erase op.seqNum }
      else { e with pendingWrites := e.pendingWrites.insert op.seqNum p }
    else e

/-- `recordAcksLocked`. -/
def recordAcks (h : Handle N) (ops : List WriteOperation) (now : Int) : ReplicationEngine N :=
  (ops.foldl (fun e op => e.recordAck h op) e).modify h fun r => { r with lastAckAt := now }

/-- `unackedLocked`. -/
def unacked (nodeID : N) : List WriteOperation :=
  (((e.pendingWrites.entries.map Sigma.snd).filter fun p => nodeID ∉ p.acked).map
    PendingOp.op).insertionSort fun a b => a.seqNum ≤ b.seqNum

/-- `batchStats`: the bytes of a batch. -/
def batchBytes (ops : List WriteOperation) : ℕ :=
  ops.foldl (fun n op => n + (op.key.length + op.value.length)) 0

/-- What `sendToReplica` records of a send that was acknowledged. -/
def sendOk (h : Handle N) (ops : List WriteOperation) (now : Int) : ReplicationEngine N :=
  (e.recordAcks h ops now).modify h fun r => { r.backInSync with lagBytes := 0 }

/-- What `sendToReplica` records of a send that failed.  Operations of the batch
that are no longer retained are to be read from the change feed. -/
def sendFailed (h : Handle N) (ops : List WriteOperation) (now : Int) : ReplicationEngine N :=
  e.modify h fun r =>
    { (r.markFailed cfg now).flagAll
        ((ops.filter fun op => !e.retains op).map WriteOperation.timestamp) with
      lagBytes := r.lagBytes + batchBytes ops }

/-- What `deliver` records of a send that was acknowledged. -/
def delivered (h : Handle N) (ops : List WriteOperation) (now : Int) : ReplicationEngine N :=
  (e.recordAcks h ops now).modify h fun r => { r with lagBytes := 0 }

def handles (states : List ReplicaState) : List (Handle N) :=
  (e.replicaStates.filter fun r => r.state ∈ states).map ReplicaInfo.toHandle

/-- The hook for back pressure: lagging replicas of the batch are marked. -/
def backpressure (hs : List (Handle N)) : ReplicationEngine N :=
  if 0 < cfg.backpressureLagBytes ∧ cfg.consistencyLevel ≠ .eventual then
    { e with replicaStates := e.replicaStates.map fun r =>
        if r.toHandle ∈ hs ∧ cfg.backpressureLagBytes < r.lagBytes then { r with state := .lag }
        else r }
  else e

def clearPending (ops : List WriteOperation) : ReplicationEngine N :=
  { e with pendingWrites := ops.foldl (fun m op => m.erase op.seqNum) e.pendingWrites }

/-- The `ReplicaInfo` that `addReplica` makes: a replica with a watermark of an
earlier life starts behind it. -/
def newReplica (nodeID : N) (now : Int) : ReplicaInfo N :=
  let r : ReplicaInfo N :=
    { ref := e.nextRef, nodeID := nodeID, state := .sync, lastAckSeqNum := 0, lagBytes := 0
      lastAckAt := now, nextProbeAt := 0, backoff := 0, recovering := false
      needsResync := false, resyncFromNs := 0, catchingUpFromNs := 0, deleteGap := false
      freshMember := false }
  let known := e.loaded.lookup nodeID
  if known.isSome ∨ e.stateCorrupt = true then
    let mark := known.getD 0
    { r with
      state := .failed
      needsResync := true
      resyncFromNs := if e.stateCorrupt = true ∨ mark ≤ 0 then 1 else mark
      backoff := cfg.probeInterval }
  else r

/-- `addReplica`, for a node that is not registered. -/
def addReplica (nodeID : N) (now : Int) : ReplicationEngine N :=
  { e with
    replicaStates := e.newReplica cfg nodeID now :: e.replicaStates
    nextRef := e.nextRef + 1 }

def hasReplica (nodeID : N) : Bool := e.replicaStates.any fun r => r.nodeID = nodeID

/-- The second section of `AddMemberReplica`. -/
def makeMember (nodeID : N) : ReplicationEngine N :=
  { e with replicaStates := e.replicaStates.map fun r =>
      if r.nodeID = nodeID then r.makeMember cfg else r }

/-- One round of the loop of `RemoveReplica`. -/
def dropIfAcked (seq : ℕ) : ReplicationEngine N :=
  match e.pendingWrites.lookup seq with
  | none => e
  | some p =>
    if e.fullyAcked p then { e with pendingWrites := e.pendingWrites.erase seq } else e

def removeReplica (nodeID : N) : ReplicationEngine N :=
  let e := { e with replicaStates := e.replicaStates.filter fun r => r.nodeID ≠ nodeID }
  e.pendingWrites.keys.foldl dropIfAcked e

/-- The watermark of a replica as `watermarksLocked` has it. -/
def watermark (nowNs : Int) (r : ReplicaInfo N) : Int :=
  let w := if r.needsResync = true ∧ r.resyncFromNs < nowNs then r.resyncFromNs else nowNs
  let w := if r.catchingUpFromNs ≠ 0 ∧ r.catchingUpFromNs < w then r.catchingUpFromNs else w
  (e.pendingWrites.entries.map Sigma.snd).foldl
    (fun w p => if r.nodeID ∈ p.acked then w else min p.op.timestamp w) w

/-- `watermarksLocked`. -/
def watermarks (nowNs : Int) : List (N × Int) :=
  e.replicaStates.map fun r => (r.nodeID, e.watermark nowNs r)

def drained : Bool :=
  e.pendingWrites.keys.isEmpty &&
    e.replicaStates.all fun r =>
      r.state = .sync && !r.needsResync && r.catchingUpFromNs = 0

/-- How many replicas `WaitForReplication` takes to have a write. -/
def syncedCount (seq : ℕ) : ℕ :=
  match e.pendingWrites.lookup seq with
  | some p => p.acked.card
  | none => (e.replicaStates.filter fun r => seq ≤ r.lastAckSeqNum).length

inductive WaitResult where
  | ok | notFound | timeout
deriving DecidableEq, Repr

/-- One round of `WaitForReplication`; without a result it sleeps and polls again. -/
def waitPoll (seq : ℕ) (targetReplicas : Int) (expired : Bool) : Option WaitResult :=
  if targetReplicas ≤ e.syncedCount seq + 1 then some .ok
  else if (e.pendingWrites.lookup seq).isNone then some .notFound
  else if expired then some .timeout
  else none

end ReplicationEngine

/-! ## Flags -/

namespace ReplicaInfo

variable (r : ReplicaInfo N) (t ts : Int) (tss : List Int)

/-- The replica is to read the change feed for a write of time `ts`. -/
def Flagged : Prop := r.needsResync = true ∧ r.resyncFromNs ≤ ts

theorem flagged_flagResync : (r.flagResync t).Flagged t := by
  refine ⟨rfl, ?_⟩
  simp only [flagResync]
  split <;> omega

variable {r ts} in
theorem Flagged.flagResync (h : r.Flagged ts) : (r.flagResync t).Flagged ts := by
  obtain ⟨hneeds, hfrom⟩ := h
  refine ⟨rfl, ?_⟩
  simp only [ReplicaInfo.flagResync, hneeds, Bool.true_eq_false, false_or]
  split <;> omega

variable {r ts} in
theorem Flagged.flagAll (h : r.Flagged ts) : (r.flagAll tss).Flagged ts := by
  induction tss generalizing r with
  | nil => exact h
  | cons t tss ih => exact ih (h.flagResync t)

variable {tss ts} in
theorem flagged_flagAll (h : ts ∈ tss) : (r.flagAll tss).Flagged ts := by
  induction tss generalizing r with
  | nil => cases h
  | cons t tss ih =>
    rcases mem_cons.mp h with rfl | h
    · exact (flagged_flagResync r _).flagAll tss
    · exact ih _ h

/-- Flags change only the two fields that say where to read from. -/
theorem flagAll_eq : r.flagAll tss =
    { r with
      needsResync := (r.flagAll tss).needsResync
      resyncFromNs := (r.flagAll tss).resyncFromNs } := by
  induction tss generalizing r with
  | nil => rfl
  | cons t tss ih => exact ih (r.flagResync t)

@[simp]
theorem flagAll_toHandle : (r.flagAll tss).toHandle = r.toHandle := by rw [flagAll_eq]

@[simp]
theorem flagAll_state : (r.flagAll tss).state = r.state := by rw [flagAll_eq]

@[simp]
theorem flagAll_lastAckSeqNum : (r.flagAll tss).lastAckSeqNum = r.lastAckSeqNum := by
  rw [flagAll_eq]

@[simp]
theorem flagAll_recovering : (r.flagAll tss).recovering = r.recovering := by rw [flagAll_eq]

@[simp]
theorem flagAll_catchingUpFromNs : (r.flagAll tss).catchingUpFromNs = r.catchingUpFromNs := by
  rw [flagAll_eq]

theorem flagAll_resyncFromNs {P : Int → Prop} (h : r.needsResync = true → P r.resyncFromNs)
    (hs : ∀ t ∈ tss, P t) :
    (r.flagAll tss).needsResync = true → P (r.flagAll tss).resyncFromNs := by
  induction tss generalizing r with
  | nil => exact h
  | cons t tss ih =>
    refine ih (r.flagResync t) (fun _ => ?_) fun u hu => hs u (mem_cons_of_mem _ hu)
    have ht := hs t mem_cons_self
    simp only [flagResync]
    split
    · exact ht
    next hn => exact h (by simpa using (not_or.mp hn).1)

def ackAll (ops : List WriteOperation) : ReplicaInfo N := ops.foldl ackSeq r

/-- Acknowledgements change only the highest number. -/
theorem ackAll_eq (ops : List WriteOperation) :
    r.ackAll ops = { r with lastAckSeqNum := (r.ackAll ops).lastAckSeqNum } := by
  induction ops generalizing r with
  | nil => rfl
  | cons op ops ih => exact ih (r.ackSeq op)

theorem le_lastAckSeqNum_ackAll {ops : List WriteOperation} {seq : ℕ} :
    seq ≤ (r.ackAll ops).lastAckSeqNum ↔
      seq ≤ r.lastAckSeqNum ∨ ∃ op ∈ ops, seq ≤ op.seqNum := by
  unfold ackAll
  induction ops generalizing r with
  | nil => simp
  | cons op ops ih =>
    rw [foldl_cons, ih]
    simp only [ackSeq, le_max_iff, mem_cons, exists_eq_or_imp, or_assoc]

@[simp]
theorem ackAll_toHandle (ops : List WriteOperation) : (r.ackAll ops).toHandle = r.toHandle := by
  rw [ackAll_eq]

variable (cfg : ReplicationConfig)

/-- A failure changes the state and when to probe. -/
theorem markFailed_eq : r.markFailed cfg t =
    { r with
      state := .failed
      backoff := (r.markFailed cfg t).backoff
      nextProbeAt := (r.markFailed cfg t).nextProbeAt } := by
  unfold markFailed
  split
  next h => rw [← h]
  · rfl

theorem markLagging_eq : r.markLagging = { r with state := r.markLagging.state } := by
  unfold markLagging
  split <;> rfl

theorem backInSync_eq : r.backInSync = { r with state := r.backInSync.state } := by
  unfold backInSync
  split <;> rfl

theorem finishRecovery_eq : r.finishRecovery =
    { r with
      state := r.finishRecovery.state
      nextProbeAt := r.finishRecovery.nextProbeAt
      backoff := r.finishRecovery.backoff
      recovering := false } := by
  unfold finishRecovery
  split <;> rfl

theorem endCatchUp_eq (ok : Bool) : r.endCatchUp t ok =
    { r with
      catchingUpFromNs := 0
      needsResync := (r.endCatchUp t ok).needsResync
      resyncFromNs := (r.endCatchUp t ok).resyncFromNs
      freshMember := (r.endCatchUp t ok).freshMember } := by
  unfold endCatchUp
  split <;> rfl

@[simp]
theorem markFailed_toHandle : (r.markFailed cfg t).toHandle = r.toHandle := by rw [markFailed_eq]

@[simp]
theorem markLagging_toHandle : r.markLagging.toHandle = r.toHandle := by rw [markLagging_eq]

@[simp]
theorem backInSync_toHandle : r.backInSync.toHandle = r.toHandle := by rw [backInSync_eq]

@[simp]
theorem endCatchUp_toHandle (ok : Bool) : (r.endCatchUp t ok).toHandle = r.toHandle := by
  rw [endCatchUp_eq]

@[simp]
theorem finishRecovery_toHandle : r.finishRecovery.toHandle = r.toHandle := by
  rw [finishRecovery_eq]

end ReplicaInfo

/-! ## Retained operations -/

namespace Retention

variable {P Q : PendingOp N → Prop} {m : Retention N}

/-- Every entry stands under its sequence number and has `P`. -/
def All (P : PendingOp N → Prop) (m : Retention N) : Prop :=
  ∀ k p, m.lookup k = some p → p.op.seqNum = k ∧ P p

theorem All.mono (h : m.All P) (himp : ∀ p, P p → Q p) : m.All Q := fun k p hp =>
  ⟨(h k p hp).1, himp p (h k p hp).2⟩

theorem All.insert (h : m.All P) (hp : P p) : Retention.All P (m.insert p.op.seqNum p) := by
  intro k q hq
  by_cases hk : k = p.op.seqNum
  · subst hk
    rw [AList.lookup_insert, Option.some.injEq] at hq
    exact hq ▸ ⟨rfl, hp⟩
  · rw [AList.lookup_insert_ne hk] at hq
    exact h k q hq

/-- Erasing an entry leaves the others. -/
theorem lookup_of_lookup_erase {k j : ℕ} (h : (AList.erase j m).lookup k = some p) :
    m.lookup k = some p ∧ k ≠ j := by
  by_cases hk : k = j
  · subst hk
    rw [AList.lookup_erase] at h
    cases h
  · exact ⟨AList.lookup_erase_ne hk ▸ h, hk⟩

end Retention

namespace ReplicationEngine

variable {e e₁ e₂ : ReplicationEngine N} {f g : ReplicaInfo N → List Int} {r' : ReplicaInfo N}
  {P : PendingOp N → Prop} {op : WriteOperation}

def nodeIDs (e : ReplicationEngine N) : List N := e.replicaStates.map fun r => r.nodeID

theorem mem_nodeIDs {r : ReplicaInfo N} (h : r ∈ e.replicaStates) : r.nodeID ∈ e.nodeIDs :=
  mem_map_of_mem h

theorem map_nodeIDs {rs : List (ReplicaInfo N)} {g : ReplicaInfo N → ReplicaInfo N}
    (hg : ∀ r ∈ rs, (g r).toHandle = r.toHandle) :
    (rs.map g).map (fun r => r.nodeID) = rs.map fun r => r.nodeID := by
  rw [map_map]
  exact map_congr_left fun r hr => congrArg Handle.nodeID (hg r hr)

def Retains (e : ReplicationEngine N) (op : WriteOperation) : Prop :=
  ∃ p, e.pendingWrites.lookup op.seqNum = some p ∧ p.op = op

theorem mem_unacked {nodeID : N} [DecidableEq N] :
    op ∈ e.unacked nodeID ↔
      ∃ k p, e.pendingWrites.lookup k = some p ∧ nodeID ∉ p.acked ∧ p.op = op := by
  unfold unacked
  rw [mem_insertionSort]
  constructor
  · intro h
    obtain ⟨p, hp, rfl⟩ := mem_map.mp h
    obtain ⟨hp, hid⟩ := mem_filter.mp hp
    obtain ⟨⟨k, q⟩, hq, rfl⟩ := mem_map.mp hp
    exact ⟨k, q, AList.mem_lookup_iff.mpr hq, by simpa using hid, rfl⟩
  · rintro ⟨k, p, hp, hid, rfl⟩
    refine mem_map_of_mem (mem_filter.mpr ⟨mem_map.mpr ⟨⟨k, p⟩, ?_, rfl⟩, ?_⟩)
    · exact AList.mem_lookup_iff.mp hp
    · simpa using hid

/-- The objects are changed, but they stay the same objects. -/
def Renews (e e' : ReplicationEngine N) : Prop :=
  ∃ g : ReplicaInfo N → ReplicaInfo N, e'.replicaStates = e.replicaStates.map g ∧
    ∀ r, (g r).toHandle = r.toHandle

theorem Renews.refl (e : ReplicationEngine N) : Renews e e := ⟨id, by simp, fun _ => rfl⟩

theorem Renews.nodeIDs (h : Renews e e₁) : e₁.nodeIDs = e.nodeIDs := by
  obtain ⟨g, hg, hhandle⟩ := h
  unfold ReplicationEngine.nodeIDs
  rw [hg]
  exact map_nodeIDs fun r _ => hhandle r

theorem Renews.exists_of_mem (h : Renews e e₁) (hr : r' ∈ e₁.replicaStates) :
    ∃ r ∈ e.replicaStates, r'.toHandle = r.toHandle := by
  obtain ⟨g, hg, hhandle⟩ := h
  obtain ⟨r, hmem, rfl⟩ := mem_map.mp (hg ▸ hr)
  exact ⟨r, hmem, hhandle r⟩

/-! ### Evictions -/

/-- What a section that evicts leaves behind: it flags the replicas for what it drops. -/
structure Evicts (e e' : ReplicationEngine N) (flags : ReplicaInfo N → List Int) : Prop where
  replicas : e'.replicaStates = e.replicaStates.map fun r => r.flagAll (flags r)
  kept : ∀ k p, e'.pendingWrites.lookup k = some p → e.pendingWrites.lookup k = some p
  dropped : ∀ k p, e.pendingWrites.lookup k = some p → e'.pendingWrites.lookup k = some p ∨
    ∀ r ∈ e.replicaStates, r.nodeID ∈ p.acked ∨ p.op.timestamp ∈ flags r
  flagged : ∀ r ∈ e.replicaStates, ∀ ts ∈ flags r, ∃ k p, e.pendingWrites.lookup k = some p ∧
    p.op.timestamp = ts
  rest : e' = { e with pendingWrites := e'.pendingWrites, replicaStates := e'.replicaStates }

theorem Evicts.refl (e : ReplicationEngine N) : Evicts e e fun _ => [] where
  replicas := (map_id'' (fun _ => rfl) _).symm
  kept := fun _ _ h => h
  dropped := fun _ _ h => .inl h
  flagged := fun _ _ _ h => by cases h
  rest := rfl

theorem Evicts.trans (h₁ : Evicts e e₁ f) (h₂ : Evicts e₁ e₂ g) :
    Evicts e e₂ fun r => f r ++ g (r.flagAll (f r)) where
  replicas := by
    rw [h₂.replicas, h₁.replicas, map_map]
    exact map_congr_left fun r _ => (foldl_append ..).symm
  kept := fun k p h => h₁.kept k p (h₂.kept k p h)
  dropped := by
    intro k p hp
    rcases h₁.dropped k p hp with hp₁ | hflag
    · refine (h₂.dropped k p hp₁).imp_right fun hflag r hr => ?_
      have hmem : r.flagAll (f r) ∈ e₁.replicaStates := h₁.replicas ▸ mem_map_of_mem hr
      refine (hflag _ hmem).imp (fun hid => ?_) (mem_append_right _)
      rwa [ReplicaInfo.flagAll_toHandle] at hid
    · exact .inr fun r hr => (hflag r hr).imp_right (mem_append_left _)
  flagged := by
    intro r hr ts hts
    rcases mem_append.mp hts with hts | hts
    · exact h₁.flagged r hr ts hts
    · obtain ⟨k, p, hp, rfl⟩ :=
        h₂.flagged _ (h₁.replicas ▸ mem_map_of_mem hr) ts hts
      exact ⟨k, p, h₁.kept k p hp, rfl⟩
  rest := by rw [h₂.rest, h₁.rest]

theorem Evicts.renews (h : Evicts e e₁ f) : Renews e e₁ :=
  ⟨_, h.replicas, fun _ => ReplicaInfo.flagAll_toHandle _ _⟩

theorem Evicts.all (h : Evicts e e₁ f) (hall : e.pendingWrites.All P) :
    e₁.pendingWrites.All P := fun k p hp => hall k p (h.kept k p hp)

/-! ### Acknowledgements -/

/-- What a section leaves behind that records acknowledgements of `ops` by
`nodeID` where `ids` are registered. -/
structure Acks (m m' : Retention N) (ids : List N) (nodeID : N) (ops : List WriteOperation) :
    Prop where
  kept : ∀ k p', m'.lookup k = some p' → ∃ p, m.lookup k = some p ∧ p'.op = p.op ∧
    ∀ id ∈ p'.acked, id ∈ p.acked ∨ id = nodeID ∧ p.op ∈ ops
  dropped : ∀ k p, m.lookup k = some p →
    (∃ p', m'.lookup k = some p' ∧ p'.op = p.op) ∨
      ∀ id ∈ ids, id ∈ p.acked ∨ id = nodeID ∧ p.op ∈ ops

variable {m m₁ m₂ : Retention N} {ids : List N} {nodeID : N} {ops ops' : List WriteOperation}

theorem Acks.refl : Acks m m ids nodeID ops where
  kept := fun _ p h => ⟨p, h, rfl, fun _ hid => .inl hid⟩
  dropped := fun _ p h => .inl ⟨p, h, rfl⟩

theorem Acks.trans (h₁ : Acks m m₁ ids nodeID ops) (h₂ : Acks m₁ m₂ ids nodeID ops') :
    Acks m m₂ ids nodeID (ops ++ ops') where
  kept := by
    intro k p₂ hp₂
    obtain ⟨p₁, hp₁, hop₁, hacked₁⟩ := h₂.kept k p₂ hp₂
    obtain ⟨p, hp, hop, hacked⟩ := h₁.kept k p₁ hp₁
    refine ⟨p, hp, hop₁.trans hop, fun id hid => ?_⟩
    rcases hacked₁ id hid with hid | ⟨rfl, hmem⟩
    · exact (hacked id hid).imp_right (And.imp_right (mem_append_left _))
    · exact .inr ⟨rfl, mem_append_right _ (hop ▸ hmem)⟩
  dropped := by
    intro k p hp
    rcases h₁.dropped k p hp with ⟨p₁, hp₁, hop₁⟩ | hall
    · rcases h₂.dropped k p₁ hp₁ with ⟨p₂, hp₂, hop₂⟩ | hall
      · exact .inl ⟨p₂, hp₂, hop₂.trans hop₁⟩
      · -- Dropped by the second section: what it counts includes the first one's.
        refine .inr fun id hid => ?_
        obtain ⟨q, hq, hopq, hacked⟩ := h₁.kept k p₁ hp₁
        obtain rfl : q = p := Option.some.inj (hq.symm.trans hp)
        rcases hall id hid with hid | ⟨rfl, hmem⟩
        · exact (hacked id hid).imp_right (And.imp_right (mem_append_left _))
        · exact .inr ⟨rfl, mem_append_right _ (hop₁ ▸ hmem)⟩
    · exact .inr fun id hid => (hall id hid).imp_right (And.imp_right (mem_append_left _))

theorem Acks.all (h : Acks m m₁ ids nodeID ops) (hall : m.All P)
    (hP : ∀ p p' : PendingOp N, P p → p'.op = p.op →
      (∀ id ∈ p'.acked, id ∈ p.acked ∨ id = nodeID ∧ p.op ∈ ops) → P p') : m₁.All P := by
  intro k p' hp'
  obtain ⟨p, hp, hop, hacked⟩ := h.kept k p' hp'
  obtain ⟨hk, hp⟩ := hall k p hp
  exact ⟨hop ▸ hk, hP p p' hp hop hacked⟩

/-! ### Receiving and clearing -/

theorem clearPending_kept (e : ReplicationEngine N) {k : ℕ}
    (h : (e.clearPending ops).pendingWrites.lookup k = some p) :
    e.pendingWrites.lookup k = some p := by
  simp only [clearPending] at h
  revert h
  generalize e.pendingWrites = m
  induction ops generalizing m with
  | nil => exact id
  | cons op ops ih => exact fun h => (Retention.lookup_of_lookup_erase (ih _ h)).1

theorem clearPending_dropped (e : ReplicationEngine N) (ops : List WriteOperation) {k : ℕ}
    (h : e.pendingWrites.lookup k = some p) :
    (e.clearPending ops).pendingWrites.lookup k = some p ∨ ∃ op ∈ ops, op.seqNum = k := by
  simp only [clearPending]
  revert h
  generalize e.pendingWrites = m
  induction ops generalizing m with
  | nil => exact .inl
  | cons op ops ih =>
    intro h
    by_cases hk : op.seqNum = k
    · exact .inr ⟨op, mem_cons_self, hk⟩
    · refine (ih (m.erase op.seqNum) ((AList.lookup_erase_ne (Ne.symm hk)).trans h)).imp_right ?_
      rintro ⟨op', hmem, heq⟩
      exact ⟨op', mem_cons_of_mem _ hmem, heq⟩

section

variable (e : ReplicationEngine N) (op : WriteOperation) (rest : List WriteOperation)

theorem receive_replicaStates : (e.receive op rest).replicaStates = e.replicaStates := by
  simp only [receive]
  split <;> rfl

theorem receive_writeQueue : (e.receive op rest).writeQueue = rest := by
  simp only [receive]
  split <;> rfl

theorem receive_nextRef : (e.receive op rest).nextRef = e.nextRef := by
  simp only [receive]
  split <;> rfl

theorem receive_loaded : (e.receive op rest).loaded = e.loaded := by
  simp only [receive]
  split <;> rfl

end

theorem Retains.receive (h : e.Retains op) (op' : WriteOperation) (rest : List WriteOperation) :
    (e.receive op' rest).Retains op := by
  obtain ⟨p, hp, hop⟩ := h
  refine ⟨p, ?_, hop⟩
  simp only [ReplicationEngine.receive]
  split
  · exact hp
  next hnone =>
    refine (AList.lookup_insert_ne fun heq => hnone ?_).trans hp
    rw [← heq]
    exact Option.isSome_iff_exists.mpr ⟨p, hp⟩

section

variable (e : ReplicationEngine N)

theorem receive_all (hall : e.pendingWrites.All P) (hop : P ⟨op, ∅⟩) (rest : List WriteOperation) :
    (e.receive op rest).pendingWrites.All P := by
  simp only [receive]
  split
  · exact hall
  · exact hall.insert hop

theorem overflow_renews : Renews e e.overflow :=
  ⟨_, rfl, ReplicaInfo.markLagging_toHandle⟩

end

/-! ### The sections -/

variable [DecidableEq N] (cfg : ReplicationConfig) (e) {h : Handle N}

theorem fullyAcked_iff : e.fullyAcked p = true ↔ ∀ id ∈ e.nodeIDs, id ∈ p.acked := by
  simp [fullyAcked, nodeIDs]

theorem modify_nodeIDs {f : ReplicaInfo N → ReplicaInfo N} (hf : ∀ r, (f r).toHandle = r.toHandle) :
    (e.modify h f).nodeIDs = e.nodeIDs := by
  refine map_nodeIDs fun r _ => ?_
  split
  · exact hf r
  · rfl

theorem evict_spec (seq : ℕ) : ∃ f, Evicts e (e.evict seq) f := by
  cases hp : e.pendingWrites.lookup seq with
  | none =>
    refine ⟨fun _ => [], ?_⟩
    rw [show e.evict seq = e by unfold evict; rw [hp]]
    exact Evicts.refl e
  | some p =>
    refine ⟨fun r => if r.nodeID ∈ p.acked then [] else [p.op.timestamp], ?_, ?_, ?_, ?_, ?_⟩
    · simp only [evict, hp]
      refine map_congr_left fun r _ => ?_
      split <;> rfl
    · intro k q hq
      simp only [evict, hp] at hq
      exact (Retention.lookup_of_lookup_erase hq).1
    · intro k q hq
      simp only [evict, hp]
      by_cases hk : k = seq
      · subst hk
        obtain rfl : p = q := Option.some.inj (hp.symm.trans hq)
        refine .inr fun r _ => ?_
        by_cases hr : r.nodeID ∈ p.acked
        · exact .inl hr
        · rw [if_neg hr]
          exact .inr mem_cons_self
      · exact .inl ((AList.lookup_erase_ne hk).trans hq)
    · intro r _ ts hts
      split at hts
      · cases hts
      · exact ⟨seq, p, hp, (mem_singleton.mp hts).symm⟩
    · simp only [evict, hp]

/-- Evictions flag each replica for every operation it had not acknowledged. -/
theorem evictAll_spec (seqs : List ℕ) : ∃ f, Evicts e (seqs.foldl evict e) f := by
  induction seqs generalizing e with
  | nil => exact ⟨_, Evicts.refl e⟩
  | cons seq seqs ih =>
    obtain ⟨f, hf⟩ := evict_spec e seq
    obtain ⟨g, hg⟩ := ih (e.evict seq)
    exact ⟨_, hf.trans hg⟩

theorem onLocalWrite_spec (op : WriteOperation) :
    ∃ f, Evicts (e.retain op) (e.onLocalWrite cfg op) f := by
  unfold onLocalWrite
  split
  · exact evictAll_spec _ _
  · exact ⟨_, Evicts.refl _⟩

/-- What is registered is retained, or evicted at once and every replica is flagged. -/
theorem onLocalWrite_keeps (op : WriteOperation)
    (hr' : r' ∈ (e.onLocalWrite cfg op).replicaStates) :
    r'.Flagged op.timestamp ∨ (e.onLocalWrite cfg op).Retains op := by
  obtain ⟨f, hf⟩ := onLocalWrite_spec e cfg op
  have hp := AList.lookup_insert (a := op.seqNum) (b := (⟨op, ∅⟩ : PendingOp N)) e.pendingWrites
  rcases hf.dropped _ _ hp with hp | hall
  · exact .inr ⟨_, hp, rfl⟩
  · obtain ⟨r, hr, rfl⟩ := mem_map.mp (hf.replicas ▸ hr')
    rcases hall r hr with hid | hflag
    · cases hid
    · exact .inl (ReplicaInfo.flagged_flagAll r hflag)

theorem recordAck_eq (h : Handle N) (op : WriteOperation) : e.recordAck h op =
    { e with
      pendingWrites := (e.recordAck h op).pendingWrites
      replicaStates := (e.modify h fun r => r.ackSeq op).replicaStates } := by
  simp only [recordAck]
  split
  · rfl
  · split
    · split <;> rfl
    · rfl

theorem recordAck_spec (h : Handle N) (op : WriteOperation) :
    Acks e.pendingWrites (e.recordAck h op).pendingWrites e.nodeIDs h.nodeID [op] := by
  have hfull : ∀ p : PendingOp N, (e.modify h fun r => r.ackSeq op).fullyAcked p = true →
      ∀ id ∈ e.nodeIDs, id ∈ p.acked := fun p hp => by
    rw [← modify_nodeIDs e (h := h) fun r => (rfl : (r.ackSeq op).toHandle = r.toHandle)]
    exact (fullyAcked_iff _).mp hp
  cases hp : e.pendingWrites.lookup op.seqNum with
  | none =>
    simp only [recordAck, modify, hp]
    exact Acks.refl
  | some p =>
    simp only [recordAck, show (e.modify h fun r => r.ackSeq op).pendingWrites = e.pendingWrites
      from rfl, hp]
    split
    next hop =>
      have hinsert : ∀ id ∈ insert h.nodeID p.acked, id ∈ p.acked ∨ id = h.nodeID ∧ p.op ∈ [op] :=
        fun id hid => (Finset.mem_insert.mp hid).symm.imp_right fun heq =>
          ⟨heq, mem_singleton.mpr hop⟩
      split
      next hdrop =>
        constructor
        · intro k q hq
          exact ⟨q, (Retention.lookup_of_lookup_erase hq).1, rfl, fun _ hid => .inl hid⟩
        · intro k q hq
          by_cases hk : k = op.seqNum
          · subst hk
            obtain rfl : p = q := Option.some.inj (hp.symm.trans hq)
            exact .inr fun id hid => hinsert id (hfull _ hdrop id hid)
          · exact .inl ⟨q, (AList.lookup_erase_ne hk).trans hq, rfl⟩
      · constructor
        · intro k q hq
          by_cases hk : k = op.seqNum
          · subst hk
            rw [AList.lookup_insert, Option.some.injEq] at hq
            subst hq
            exact ⟨p, hp, rfl, hinsert⟩
          · rw [AList.lookup_insert_ne hk] at hq
            exact ⟨q, hq, rfl, fun _ hid => .inl hid⟩
        · intro k q hq
          by_cases hk : k = op.seqNum
          · subst hk
            obtain rfl : p = q := Option.some.inj (hp.symm.trans hq)
            exact .inl ⟨_, AList.lookup_insert _, rfl⟩
          · exact .inl ⟨q, (AList.lookup_insert_ne hk).trans hq, rfl⟩
    · exact Acks.refl

theorem modify_modify {f g : ReplicaInfo N → ReplicaInfo N}
    (hf : ∀ r, (f r).toHandle = r.toHandle) :
    (e.modify h f).modify h g = e.modify h fun r => g (f r) := by
  simp only [modify, map_map]
  congr 1
  refine map_congr_left fun r _ => ?_
  by_cases hr : r.toHandle = h
  · simp [hr, (hf r).trans hr]
  · simp [hr]

section

variable {e} {f : ReplicaInfo N → ReplicaInfo N}

theorem exists_of_mem_modify (hr : r' ∈ (e.modify h f).replicaStates) :
    ∃ r ∈ e.replicaStates, r.toHandle = h ∧ r' = f r ∨ r.toHandle ≠ h ∧ r' = r := by
  obtain ⟨r, hmem, rfl⟩ := mem_map.mp hr
  refine ⟨r, hmem, ?_⟩
  by_cases hh : r.toHandle = h
  · exact .inl ⟨hh, if_pos hh⟩
  · exact .inr ⟨hh, if_neg hh⟩

theorem Renews.modify (hf : ∀ r, (f r).toHandle = r.toHandle) : Renews e (e.modify h f) := by
  refine ⟨_, rfl, fun r => ?_⟩
  split
  · exact hf r
  · rfl

/-- Acknowledgements change only what is retained and the object of the replica. -/
structure Records (e e' : ReplicationEngine N) (h : Handle N) (ops : List WriteOperation)
    (f : ReplicaInfo N → ReplicaInfo N) : Prop where
  replicas : e'.replicaStates = (e.modify h f).replicaStates
  acks : Acks e.pendingWrites e'.pendingWrites e.nodeIDs h.nodeID ops
  rest : e' = { e with pendingWrites := e'.pendingWrites, replicaStates := e'.replicaStates }

variable (hrec : Records e e₁ h ops f)
include hrec

theorem Records.modify {g : ReplicaInfo N → ReplicaInfo N}
    (hf : ∀ r, (f r).toHandle = r.toHandle) : Records e (e₁.modify h g) h ops fun r => g (f r) where
  replicas := by
    rw [← modify_modify e hf]
    simp only [ReplicationEngine.modify, hrec.replicas]
  acks := hrec.acks
  rest := by
    simp only [ReplicationEngine.modify]
    rw [hrec.rest]

theorem Records.exists_of_mem (hr : r' ∈ e₁.replicaStates) :
    ∃ r ∈ e.replicaStates, r.toHandle = h ∧ r' = f r ∨ r.toHandle ≠ h ∧ r' = r :=
  exists_of_mem_modify (hrec.replicas ▸ hr)

theorem Records.nextRef : e₁.nextRef = e.nextRef := by rw [hrec.rest]

theorem Records.writeQueue : e₁.writeQueue = e.writeQueue := by rw [hrec.rest]

theorem Records.renews (hf : ∀ r, (f r).toHandle = r.toHandle) : Renews e e₁ := by
  obtain ⟨g, hg, hhandle⟩ := Renews.modify (e := e) (h := h) hf
  exact ⟨g, hrec.replicas.trans hg, hhandle⟩

end

theorem recordAckAll_spec (h : Handle N) (ops : List WriteOperation) :
    Records e (ops.foldl (fun e op => e.recordAck h op) e) h ops fun r => r.ackAll ops := by
  induction ops generalizing e with
  | nil => exact ⟨by simp [modify, ReplicaInfo.ackAll], Acks.refl, rfl⟩
  | cons op ops ih =>
    obtain ⟨hstates, hacks, hrest⟩ := ih (e.recordAck h op)
    have hfirst := recordAck_eq e h op
    have hids : (e.recordAck h op).nodeIDs = e.nodeIDs := by
      rw [hfirst]
      exact modify_nodeIDs e fun r => rfl
    refine ⟨?_, (recordAck_spec e h op).trans (hids ▸ hacks), ?_⟩
    · rw [foldl_cons, hstates, hfirst]
      have htwo := congrArg replicaStates (modify_modify e (h := h) (g := fun r => r.ackAll ops)
        fun r => (rfl : (r.ackSeq op).toHandle = r.toHandle))
      exact htwo
    · rw [foldl_cons, hrest, hfirst]

/-- `recordAcksLocked` drops an operation only when all have acknowledged it. -/
theorem recordAcks_spec (h : Handle N) (ops : List WriteOperation) (now : Int) :
    Records e (e.recordAcks h ops now) h ops fun r => { r.ackAll ops with lastAckAt := now } :=
  (recordAckAll_spec e h ops).modify fun r => by rw [ReplicaInfo.ackAll_eq]

theorem sendOk_spec (h : Handle N) (ops : List WriteOperation) (now : Int) :
    Records e (e.sendOk h ops now) h ops fun r =>
      { { r.ackAll ops with lastAckAt := now }.backInSync with lagBytes := 0 } :=
  (recordAcks_spec e h ops now).modify fun r => by rw [ReplicaInfo.ackAll_eq]

theorem delivered_spec (h : Handle N) (ops : List WriteOperation) (now : Int) :
    Records e (e.delivered h ops now) h ops fun r =>
      { r.ackAll ops with lastAckAt := now, lagBytes := 0 } :=
  (recordAcks_spec e h ops now).modify fun r => by rw [ReplicaInfo.ackAll_eq]

/-! ### The other sections -/

theorem backpressure_eq (hs : List (Handle N)) : e.backpressure cfg hs =
    { e with replicaStates := (e.backpressure cfg hs).replicaStates } := by
  unfold backpressure
  split <;> rfl

theorem backpressure_renews (hs : List (Handle N)) : Renews e (e.backpressure cfg hs) := by
  unfold backpressure
  split
  · refine ⟨_, rfl, fun r => ?_⟩
    split <;> rfl
  · exact Renews.refl e

theorem sendFailed_renews (h : Handle N) (ops : List WriteOperation) (now : Int) :
    Renews e (e.sendFailed cfg h ops now) :=
  Renews.modify fun _ => by simp

theorem exists_of_mem_backpressure {hs : List (Handle N)}
    (hr : r' ∈ (e.backpressure cfg hs).replicaStates) :
    ∃ r ∈ e.replicaStates, r' = r ∨ r.toHandle ∈ hs ∧ r' = { r with state := .lag } := by
  unfold backpressure at hr
  split at hr
  · obtain ⟨r, hmem, rfl⟩ := mem_map.mp hr
    refine ⟨r, hmem, ?_⟩
    split
    next hlag => exact .inr ⟨hlag.1, rfl⟩
    · exact .inl rfl
  · exact ⟨r', hr, .inl rfl⟩

theorem newReplica_toHandle (nodeID : N) (now : Int) :
    (e.newReplica cfg nodeID now).toHandle = ⟨e.nextRef, nodeID⟩ := by
  simp only [newReplica]
  split <;> rfl

theorem makeMember_renews (nodeID : N) : Renews e (e.makeMember cfg nodeID) := by
  refine ⟨_, rfl, fun r => ?_⟩
  split <;> rfl

/-! ### Removing a replica -/

theorem dropIfAcked_eq (seq : ℕ) : e.dropIfAcked seq =
    { e with pendingWrites := (e.dropIfAcked seq).pendingWrites } := by
  unfold dropIfAcked
  split
  · rfl
  · split <;> rfl

/-- What `RemoveReplica` drops has been acknowledged by all that are left. -/
structure Drops (e e' : ReplicationEngine N) : Prop where
  kept : ∀ k p, e'.pendingWrites.lookup k = some p → e.pendingWrites.lookup k = some p
  dropped : ∀ k p, e.pendingWrites.lookup k = some p → e'.pendingWrites.lookup k = some p ∨
    ∀ id ∈ e.nodeIDs, id ∈ p.acked
  rest : e' = { e with pendingWrites := e'.pendingWrites }

theorem dropIfAcked_spec (seq : ℕ) : Drops e (e.dropIfAcked seq) := by
  refine ⟨?_, ?_, dropIfAcked_eq e seq⟩
  · intro k p h
    unfold dropIfAcked at h
    split at h
    · exact h
    · split at h
      · exact (Retention.lookup_of_lookup_erase h).1
      · exact h
  · intro k p h
    unfold dropIfAcked
    split
    · exact .inl h
    next q hq =>
      split
      next hfull =>
        by_cases hk : k = seq
        · subst hk
          obtain rfl : q = p := Option.some.inj (hq.symm.trans h)
          exact .inr ((fullyAcked_iff e).mp hfull)
        · exact .inl ((AList.lookup_erase_ne hk).trans h)
      · exact .inl h

theorem dropAll_spec (seqs : List ℕ) : Drops e (seqs.foldl dropIfAcked e) := by
  induction seqs generalizing e with
  | nil => exact ⟨fun _ _ h => h, fun _ _ h => .inl h, rfl⟩
  | cons seq seqs ih =>
    have h₁ := dropIfAcked_spec e seq
    have h₂ := ih (e.dropIfAcked seq)
    have hids : (e.dropIfAcked seq).nodeIDs = e.nodeIDs := by rw [dropIfAcked_eq]; rfl
    refine ⟨fun k p h => h₁.kept k p (h₂.kept k p h), fun k p h => ?_, ?_⟩
    · rcases h₁.dropped k p h with h | h
      · exact hids ▸ h₂.dropped k p h
      · exact .inr h
    · rw [foldl_cons, h₂.rest, h₁.rest]

theorem removeReplica_spec (nodeID : N) :
    Drops { e with replicaStates := e.replicaStates.filter fun r => r.nodeID ≠ nodeID }
      (e.removeReplica nodeID) :=
  dropAll_spec _ _

theorem replicaStates_removeReplica (nodeID : N) : (e.removeReplica nodeID).replicaStates =
    e.replicaStates.filter fun r => r.nodeID ≠ nodeID := by
  rw [(removeReplica_spec e nodeID).rest]

theorem mem_of_mem_removeReplica {nodeID : N} {r : ReplicaInfo N}
    (h : r ∈ (e.removeReplica nodeID).replicaStates) : r ∈ e.replicaStates := by
  rw [replicaStates_removeReplica] at h
  exact (mem_filter.mp h).1

end ReplicationEngine

end VeltrixDB.Replication
