import VeltrixDB.Lib.Parties
import VeltrixDB.Replication.Engine
import Mathlib.Logic.Relation

/-!
# Runs of the replication engine

The goroutines of a node in replicated mode: writers, the replication worker, the sends
it starts, anti-entropy, recovery attempts, membership changes and the writers of the
state file (`replication/engine.go`, `replication/membership.go`,
`replication/state.go`).  Each is a `Task` whose value says where it stands;
a step lets one of them run to the end of its next critical section.  What the clock
gives is arbitrary, and so is what becomes of a send.

Beside the engine a state keeps its history: what was registered, acknowledged,
superseded by a catch-up, and which watermarks were given.

Main results:

- Theorem `Sys.WF.step`: what is retained, queued or being sent has been
  registered, and an acknowledgement that is recorded was given.
-/

namespace VeltrixDB.Replication

open List Parties ReplicaInfo

variable {N : Type}

/-! ## States -/

/-- An operation of the node, with the life of the process that registered it. -/
structure Registered where
  life : ℕ
  op : WriteOperation
deriving DecidableEq, Repr

/-- Where a goroutine stands. -/
inductive Task (N : Type) where
  /-- `OnLocalWrite` between its critical section and the queue. -/
  | offering (op : WriteOperation)
  | worker (batch : List WriteOperation)
  /-- `replicateBatch` with its view of the replicas. -/
  | batch (ops : List WriteOperation) (registered : ℕ) (replicas : List (Handle N))
  /-- `sendToReplica` during its call; whether all of the batch has arrived. -/
  | send (h : Handle N) (ops : List WriteOperation) (arrived : Bool)
  /-- `runAntiEntropy` with the replicas that it still has to visit. -/
  | antiEntropy (replicas : List (Handle N))
  /-- `recoverReplica` before the replica is marked. -/
  | probing (h : Handle N)
  /-- The replica is marked, and a catch-up from `since` is to come. -/
  | marked (h : Handle N) (since : Int)
  | catchUp (h : Handle N) (since sinceNs : Int) (before : List Registered)
  | looping (h : Handle N)
  /-- `deliver` of the next operations of a replay during its call. -/
  | replay (h : Handle N) (ops : List WriteOperation) (arrived : Bool)
  | failing (h : Handle N)
  /-- `AddMemberReplica` between its two sections. -/
  | joining (nodeID : N)
  /-- `persistStateIfChanged` with watermarks that were read before. -/
  | persist (marks : List (N × Int)) (gen : ℕ)
deriving DecidableEq

def Task.recovers : Task N → Option (Handle N)
  | .probing h | .marked h _ | .catchUp h _ _ _ | .looping h | .replay h _ _ | .failing h => some h
  | _ => none

/-- What was done so far.  The arrivals are the operations that replicas applied, in
their order; an operation was fed to a replica when it acknowledged a page of a catch-up
begun later that has the key. -/
structure History (N : Type) where
  registered : List Registered
  owed : List (Handle N × Registered)
  acks : List (N × Registered)
  superseded : List (N × Registered)
  fed : List (N × Registered)
  marks : List (N × Int)
  arrivals : List (N × WriteOperation)

/-- What `persistStateIfChanged` keeps, and the file; without a file there is
nothing in it. -/
structure StateFile (N : Type) where
  replicas : List (N × Int)
  lastPersisted : List (N × Int)
  lastPersistedGen : ℕ

/-- A node in replicated mode; the writers have an operation that is not registered
yet. -/
structure Sys (N : Type) where
  engine : ReplicationEngine N
  writers : List WriteOperation
  tasks : List (Task N)
  file : StateFile N
  life : ℕ
  reqSeq : ℕ
  history : History N

/-- A process that has just started, with what it read from the state file. -/
def ReplicationEngine.start (loaded : List (N × Int)) (corrupt : Bool) (nextRef : ℕ) :
    ReplicationEngine N where
  replicaStates := []
  pendingWrites := ∅
  writeQueue := []
  loaded := loaded
  stateCorrupt := corrupt
  markGen := 0
  nextRef := nextRef

def Sys.init : Sys N where
  engine := .start [] false 0
  writers := []
  tasks := [.worker [], .antiEntropy []]
  file := ⟨[], [], 0⟩
  life := 0
  reqSeq := 0
  history := ⟨[], [], [], [], [], [], []⟩

/-! ## Steps -/

inductive Event (N : Type) where
  | create (op : WriteOperation)
  | register (op : WriteOperation)
  | enqueue (op : WriteOperation)
  | overflow (op : WriteOperation)
  | receive (op : WriteOperation)
  | snapshot (ops : List WriteOperation)
  | clear (ops : List WriteOperation)
  | launch (ops : List WriteOperation)
  | arrive (nodeID : N) (ops : List WriteOperation)
  | sent (h : Handle N) (ops : List WriteOperation)
  | sendFailed (h : Handle N) (ops : List WriteOperation)
  | antiEntropy
  | visit (h : Handle N)
  | probe (h : Handle N)
  | probeEnds (h : Handle N)
  | mark (h : Handle N)
  | beginCatchUp (h : Handle N) (since : Int)
  | noSource (h : Handle N)
  | page (h : Handle N) (ops : List WriteOperation)
  | endCatchUp (h : Handle N) (ok : Bool)
  | look (h : Handle N)
  | replayed (h : Handle N) (ops : List WriteOperation)
  | recoveryFails (h : Handle N)
  | add (nodeID : N)
  | join (nodeID : N)
  | makeMember (nodeID : N)
  | remove (nodeID : N)
  | marks (nowNs : Int)
  | persist (marks : List (N × Int))
  | restart

def History.acked (hist : History N) (life : ℕ) (nodeID : N) (ops : List WriteOperation) :
    History N :=
  { hist with acks := ops.map (fun op => (nodeID, ⟨life, op⟩)) ++ hist.acks }

def History.register (hist : History N) (x : Registered) (rs : List (ReplicaInfo N)) : History N :=
  { hist with
    registered := x :: hist.registered
    owed := rs.map (fun r => (r.toHandle, x)) ++ hist.owed }

def History.arrive (hist : History N) (nodeID : N) (ops : List WriteOperation) : History N :=
  { hist with arrivals := hist.arrivals ++ ops.map fun op => (nodeID, op) }

/-- An entry of the feed for the key of `op` that is no older than it, up to the skew of
the stamps. -/
def feedBrings (entry op : WriteOperation) : Bool :=
  entry.key = op.key ∧ op.timestamp ≤ entry.timestamp + catchUpSkew

/-- `nodeID` acknowledges a page of a catch-up that had begun after `before`. -/
def History.page (hist : History N) (nodeID : N) (before : List Registered)
    (ops : List WriteOperation) : History N :=
  { hist.arrive nodeID ops with
    fed := (before.filter fun x => ops.any fun entry => feedBrings entry x.op).map
      (fun x => (nodeID, x)) ++ hist.fed }

/-- A feed that is read from `sinceNs` on has the state of the key of `op`: the
stamp of the store is at most `catchUpSkew` older than the one of the operation. -/
def feedCovers (sinceNs : Int) (op : WriteOperation) : Prop :=
  sinceNs ≤ 0 ∨ sinceNs + catchUpSkew ≤ op.timestamp

/-- A catch-up of `nodeID` is complete that had begun after `before`. -/
def History.caughtUp (hist : History N) (nodeID : N) (before : List Registered) : History N :=
  { hist with superseded := before.map (fun x => (nodeID, x)) ++ hist.superseded }

instance feedCoversDecidable (sinceNs : Int) (op : WriteOperation) :
    Decidable (feedCovers sinceNs op) :=
  inferInstanceAs (Decidable (_ ∨ _))

section
variable [DecidableEq N] (cfg : ReplicationConfig)

/-- `persistStateIfChanged` where the file could be written. -/
def StateFile.persist (f : StateFile N) (marks : List (N × Int)) (gen : ℕ) : StateFile N :=
  if gen < f.lastPersistedGen ∨ marks = f.lastPersisted then f
  else ⟨marks, marks, gen⟩

/-- One goroutine runs to the end of its next critical section; it goes on as the tasks
of the result. -/
inductive Task.Step (s : Sys N) : Task N → Event N → Sys N → List (Task N) → Prop where
  | enqueue (op : WriteOperation) (h : s.engine.writeQueue.length < writeQueueCap) :
      Step s (.offering op) (.enqueue op)
        { s with engine := { s.engine with writeQueue := s.engine.writeQueue ++ [op] } } []
  | overflow (op : WriteOperation) (h : writeQueueCap ≤ s.engine.writeQueue.length) :
      Step s (.offering op) (.overflow op) { s with engine := s.engine.overflow } []
  | receive (op : WriteOperation) (rest batch : List WriteOperation)
      (h : s.engine.writeQueue = op :: rest) :
      Step s (.worker batch) (.receive op) { s with engine := s.engine.receive op rest }
        [.worker (batch ++ [op])]
  | snapshot (batch : List WriteOperation) (h : batch ≠ []) :
      Step s (.worker batch) (.snapshot batch) s
        [.batch batch s.engine.replicaStates.length (s.engine.handles [.sync, .lag])]
  | clear (ops : List WriteOperation) (hs : List (Handle N)) :
      Step s (.batch ops 0 hs) (.clear ops) { s with engine := s.engine.clearPending ops }
        [.worker []]
  -- What the worker waits for after the launch changes nothing.
  | launch (ops : List WriteOperation) (n : ℕ) (hs : List (Handle N)) (hn : n ≠ 0) :
      Step s (.batch ops n hs) (.launch ops) { s with engine := s.engine.backpressure cfg hs }
        (.worker [] :: hs.map fun h => .send h ops false)
  | arrive (h : Handle N) (ops : List WriteOperation) (arrived : Bool) (n : ℕ) :
      Step s (.send h ops arrived) (.arrive h.nodeID (ops.take n))
        { s with history := s.history.arrive h.nodeID (ops.take n) }
        [.send h ops (arrived || decide (ops.length ≤ n))]
  | sent (h : Handle N) (ops : List WriteOperation) (now : Int) :
      Step s (.send h ops true) (.sent h ops)
        { s with
          engine := s.engine.sendOk h ops now
          history := s.history.acked s.life h.nodeID ops } []
  | sendFailed (h : Handle N) (ops : List WriteOperation) (arrived : Bool) (now : Int) :
      Step s (.send h ops arrived) (.sendFailed h ops)
        { s with engine := s.engine.sendFailed cfg h ops now } []
  | antiEntropy :
      Step s (.antiEntropy []) .antiEntropy s [.antiEntropy (s.engine.handles [.lag])]
  | visit (h : Handle N) (hs : List (Handle N)) :
      Step s (.antiEntropy (h :: hs)) (.visit h) s
        (if s.engine.unacked h.nodeID = [] then [.antiEntropy hs]
          else [.send h (s.engine.unacked h.nodeID) false, .antiEntropy hs])
  -- No transport, or the replica does not answer.
  | probeFails (h : Handle N) :
      Step s (.probing h) (.probeEnds h) s [.failing h]
  | probeEnds (h : Handle N)
      (hr : ∀ r ∈ s.engine.replicaStates, r.toHandle = h → r.state ≠ .failed) :
      Step s (.probing h) (.probeEnds h)
        { s with engine := s.engine.modify h fun r => { r with recovering := false } } []
  | mark (r : ReplicaInfo N) (hr : r ∈ s.engine.replicaStates) (hf : r.state = .failed) :
      Step s (.probing r.toHandle) (.mark r.toHandle)
        { s with engine := s.engine.modify r.toHandle fun r => { r with state := .syncPending } }
        [if r.needsResync then .marked r.toHandle r.resyncFromNs else .looping r.toHandle]
  | beginCatchUp (r : ReplicaInfo N) (hr : r ∈ s.engine.replicaStates) (since now : Int)
      (hsrc : cfg.catchUpSource = true) :
      Step s (.marked r.toHandle since) (.beginCatchUp r.toHandle since)
        { s with
          engine := s.engine.modify r.toHandle fun r =>
            r.beginCatchUp since (cfg.tooOld since now) }
        [.catchUp r.toHandle since (r.catchUpFrom since (cfg.tooOld since now))
          (s.history.registered.filter fun x =>
            feedCovers (r.catchUpFrom since (cfg.tooOld since now)) x.op)]
  -- The replica has been removed: what is written to its object is lost.
  | beginStale (h : Handle N) (hr : ∀ r ∈ s.engine.replicaStates, r.toHandle ≠ h)
      (since sinceNs : Int) (hsrc : cfg.catchUpSource = true)
      (hfrom : sinceNs = 0 ∨ sinceNs = since - catchUpSkew) :
      Step s (.marked h since) (.beginCatchUp h since) s
        [.catchUp h since sinceNs
          (s.history.registered.filter fun x => feedCovers sinceNs x.op)]
  | noSource (h : Handle N) (since : Int) (hsrc : cfg.catchUpSource = false) :
      Step s (.marked h since) (.noSource h)
        { s with engine := s.engine.modify h fun r => { r with needsResync := false } }
        [.looping h]
  | page (h : Handle N) (since sinceNs : Int) (before : List Registered)
      (ops : List WriteOperation) (hops : ∀ op ∈ ops, op.seqNum = 0) (now : Int) :
      Step s (.catchUp h since sinceNs before) (.page h ops)
        { s with
          engine := s.engine.delivered h ops now
          history := s.history.page h.nodeID before ops }
        [.catchUp h since sinceNs before]
  | pageFails (h : Handle N) (since sinceNs : Int) (before : List Registered)
      (ops : List WriteOperation) (hops : ∀ op ∈ ops, op.seqNum = 0) :
      Step s (.catchUp h since sinceNs before) (.page h ops)
        { s with
          engine := s.engine.modify h fun r => r.endCatchUp since false
          history := s.history.arrive h.nodeID ops }
        [.failing h]
  | endCatchUp (h : Handle N) (since sinceNs : Int) (before : List Registered) :
      Step s (.catchUp h since sinceNs before) (.endCatchUp h true)
        { s with
          engine := s.engine.modify h fun r => r.endCatchUp since true
          history := s.history.caughtUp h.nodeID before }
        [.looping h]
  | catchUpFails (h : Handle N) (since sinceNs : Int) (before : List Registered) :
      Step s (.catchUp h since sinceNs before) (.endCatchUp h false)
        { s with engine := s.engine.modify h fun r => r.endCatchUp since false }
        [.failing h]
  | look (h : Handle N) (hops : s.engine.unacked h.nodeID ≠ []) :
      Step s (.looping h) (.look h) s [.replay h (s.engine.unacked h.nodeID) false]
  | finish (h : Handle N) (hops : s.engine.unacked h.nodeID = []) :
      Step s (.looping h) (.look h)
        { s with engine := s.engine.modify h finishRecovery } []
  | replayArrives (h : Handle N) (ops : List WriteOperation) (arrived : Bool) (n : ℕ) :
      Step s (.replay h ops arrived) (.arrive h.nodeID ((ops.take cfg.replaySize).take n))
        { s with history := s.history.arrive h.nodeID ((ops.take cfg.replaySize).take n) }
        [.replay h ops (arrived || decide ((ops.take cfg.replaySize).length ≤ n))]
  | replayed (h : Handle N) (ops : List WriteOperation) (now : Int) :
      Step s (.replay h ops true) (.replayed h (ops.take cfg.replaySize))
        { s with
          engine := s.engine.delivered h (ops.take cfg.replaySize) now
          history := s.history.acked s.life h.nodeID (ops.take cfg.replaySize) }
        [if ops.drop cfg.replaySize = [] then .looping h
          else .replay h (ops.drop cfg.replaySize) false]
  | replayFails (h : Handle N) (ops : List WriteOperation) (arrived : Bool) :
      Step s (.replay h ops arrived) (.recoveryFails h) s [.failing h]
  | recoveryFails (h : Handle N) (now : Int) :
      Step s (.failing h) (.recoveryFails h)
        { s with engine := s.engine.modify h fun r => r.recoveryFailed cfg now } []
  | makeMember (nodeID : N) :
      Step s (.joining nodeID) (.makeMember nodeID)
        { s with engine := s.engine.makeMember cfg nodeID } []
  | persist (marks : List (N × Int)) (gen : ℕ) :
      Step s (.persist marks gen) (.persist marks) { s with file := s.file.persist marks gen } []
  | persistFails (marks : List (N × Int)) (gen : ℕ) :
      Step s (.persist marks gen) (.persist marks) s []

/-- A step of the node: one of its tasks runs, or something new begins. -/
inductive Sys.Step (s : Sys N) : Event N → Sys N → Prop where
  | task (pre post : List (Task N)) (t : Task N) (ht : s.tasks = pre ++ t :: post)
      (ev : Event N) (s' : Sys N) (ts : List (Task N)) (h : Task.Step cfg s t ev s' ts) :
      Step s ev { s' with tasks := pre ++ ts ++ post }
  -- `replicateWrite` draws a sequence number and reads the clock.
  | create (op : WriteOperation) (hseq : op.seqNum = s.reqSeq + 1) (hts : 0 < op.timestamp) :
      Step s (.create op)
        { s with reqSeq := s.reqSeq + 1, writers := op :: s.writers }
  | register (pre post : List WriteOperation) (op : WriteOperation)
      (h : s.writers = pre ++ op :: post) :
      Step s (.register op)
        { s with
          engine := s.engine.onLocalWrite cfg op
          writers := pre ++ post
          tasks := .offering op :: s.tasks
          history := s.history.register ⟨s.life, op⟩ s.engine.replicaStates }
  | probe (r : ReplicaInfo N) (hr : r ∈ s.engine.replicaStates) (hf : r.state = .failed)
      (hrec : r.recovering = false) (nowNs : Int) (hdue : r.nextProbeAt ≤ nowNs) :
      Step s (.probe r.toHandle)
        { s with
          engine := s.engine.modify r.toHandle fun r => { r with recovering := true }
          tasks := .probing r.toHandle :: s.tasks }
  | add (nodeID : N) (h : s.engine.hasReplica nodeID = false) (now : Int) :
      Step s (.add nodeID) { s with engine := s.engine.addReplica cfg nodeID now }
  | join (nodeID : N) (h : s.engine.hasReplica nodeID = false) (now : Int) :
      Step s (.join nodeID)
        { s with
          engine := s.engine.addReplica cfg nodeID now
          tasks := .joining nodeID :: s.tasks }
  | remove (nodeID : N) :
      Step s (.remove nodeID) { s with engine := s.engine.removeReplica nodeID }
  -- The lag monitor, and what adds or removes a replica, read the watermarks.
  | marks (nowNs : Int) :
      Step s (.marks nowNs)
        { s with
          engine := { s.engine with markGen := s.engine.markGen + 1 }
          tasks := .persist (s.engine.watermarks nowNs) (s.engine.markGen + 1) :: s.tasks
          history := { s.history with marks := s.engine.watermarks nowNs ++ s.history.marks } }
  -- The process ends at any point; a file that cannot be read counts as corrupt.
  | restart (corrupt : Bool) :
      Step s .restart
        { s with
          engine := .start (if corrupt then [] else s.file.replicas) corrupt s.engine.nextRef
          writers := []
          tasks := [.worker [], .antiEntropy []]
          file := ⟨s.file.replicas, [], 0⟩
          life := s.life + 1
          reqSeq := 0 }

abbrev Discipline (N : Type) := Sys N → Event N → Prop

def anyStep : Discipline N := fun _ _ => True

/-- A run whose steps all keep to `D`. -/
def Sys.Run (D : Discipline N) : Sys N → Sys N → Prop :=
  Relation.ReflTransGen fun s s' => ∃ ev, D s ev ∧ Sys.Step cfg s ev s'

variable {cfg} in
theorem Sys.Run.snoc {D : Discipline N} {s₀ s s' : Sys N} {ev : Event N}
    (h : Sys.Run cfg D s₀ s) (hstep : Sys.Step cfg s ev s') (hD : D s ev) : Sys.Run cfg D s₀ s' :=
  Relation.ReflTransGen.tail h ⟨ev, hD, hstep⟩

/-- What a goroutine does to the object of a replica. -/
inductive Task.Touches (s s' : Sys N) :
    List (Task N) → Task N → Event N → ReplicaInfo N → ReplicaInfo N → Prop where
  | same {ts t ev r} (hfail : ∀ ops, ev ≠ .sendFailed r.toHandle ops)
      (hover : ∀ op, ev ≠ .overflow op)
      (hcatch : ∀ since sinceNs before, t = .catchUp r.toHandle since sinceNs before → t ∈ ts) :
      Touches s s' ts t ev r r
  | overflow (op r) : Touches s s' [] (.offering op) (.overflow op) r r.markLagging
  | lagging {ts ops n hs} (r) :
      Touches s s' ts (.batch ops n hs) (.launch ops) r { r with state := .lag }
  | sent (ops now r) : Touches s s' [] (.send r.toHandle ops true) (.sent r.toHandle ops) r
      { { r.ackAll ops with lastAckAt := now }.backInSync with lagBytes := 0 }
  | sendFailed (ops arrived now r) : Touches s s' [] (.send r.toHandle ops arrived)
      (.sendFailed r.toHandle ops) r
      { (r.markFailed cfg now).flagAll
          ((ops.filter fun op => !s.engine.retains op).map WriteOperation.timestamp) with
        lagBytes := r.lagBytes + ReplicationEngine.batchBytes ops }
  | acked {ts t ev} (ops now r) (hfail : ∀ hd ops, ev ≠ .sendFailed hd ops)
      (hover : ∀ op, ev ≠ .overflow op)
      (hcatch : ∀ hd since sinceNs before, t = .catchUp hd since sinceNs before → t ∈ ts) :
      Touches s s' ts t ev r { r.ackAll ops with lastAckAt := now, lagBytes := 0 }
  | member (nodeID r) :
      Touches s s' [] (.joining nodeID) (.makeMember nodeID) r (r.makeMember cfg)
  | endCatchUp (since sinceNs before r)
      (hs : ∀ x ∈ before, (r.nodeID, x) ∈ s'.history.superseded) :
      Touches s s' [.looping r.toHandle] (.catchUp r.toHandle since sinceNs before)
        (.endCatchUp r.toHandle true) r (r.endCatchUp since true)
  | catchUpFails {ev} (since sinceNs before r) (hfail : ∀ hd ops, ev ≠ .sendFailed hd ops)
      (hover : ∀ op, ev ≠ .overflow op) :
      Touches s s' [.failing r.toHandle] (.catchUp r.toHandle since sinceNs before) ev r
        (r.endCatchUp since false)
  | finish (r) (hops : s.engine.unacked r.nodeID = []) (hs : s' = { s with engine := s'.engine }) :
      Touches s s' [] (.looping r.toHandle) (.look r.toHandle) r r.finishRecovery
  | probeEnds (r) : Touches s s' [] (.probing r.toHandle) (.probeEnds r.toHandle) r
      { r with recovering := false }
  | mark {ts} (r) : Touches s s' ts (.probing r.toHandle) (.mark r.toHandle) r
      { r with state := .syncPending }
  | beginCatchUp (since now r) :
      Touches s s' [.catchUp r.toHandle since (r.catchUpFrom since (cfg.tooOld since now))
          (s.history.registered.filter fun x =>
            feedCovers (r.catchUpFrom since (cfg.tooOld since now)) x.op)]
        (.marked r.toHandle since) (.beginCatchUp r.toHandle since) r
        (r.beginCatchUp since (cfg.tooOld since now))
  | noSource {ts} (since r) : Touches s s' ts (.marked r.toHandle since) (.noSource r.toHandle)
      r { r with needsResync := false }
  | recoveryFails (now r) : Touches s s' [] (.failing r.toHandle) (.recoveryFails r.toHandle) r
      (r.recoveryFailed cfg now)

end

/-! ## What every run keeps -/

def Task.ops : Task N → List WriteOperation
  | .offering op => [op]
  | .worker ops | .batch ops _ _ | .send _ ops _ | .replay _ ops _ => ops
  | _ => []

/-- Sequence numbers: each is given to one operation of a life. -/
structure Sys.Registry (s : Sys N) : Prop where
  life_le : ∀ x ∈ s.history.registered, x.life ≤ s.life
  seq_pos : ∀ x ∈ s.history.registered, 0 < x.op.seqNum
  seq_le : ∀ x ∈ s.history.registered, x.life = s.life → x.op.seqNum ≤ s.reqSeq
  seq_unique : ∀ x ∈ s.history.registered, ∀ y ∈ s.history.registered, x.life = y.life →
    x.op.seqNum = y.op.seqNum → x = y
  stamped : ∀ x ∈ s.history.registered, 0 < x.op.timestamp
  writers_pos : ∀ op ∈ s.writers, 0 < op.seqNum ∧ op.seqNum ≤ s.reqSeq ∧ 0 < op.timestamp
  writers_fresh : ∀ op ∈ s.writers, ∀ x ∈ s.history.registered, x.life = s.life →
    x.op.seqNum ≠ op.seqNum
  writers_nodup : (s.writers.map WriteOperation.seqNum).Nodup

/-- What is retained, queued or in the hands of a goroutine has been registered, and what
is recorded as acknowledged was. -/
structure Sys.Known (s : Sys N) : Prop where
  retained : s.engine.pendingWrites.All fun p => ⟨s.life, p.op⟩ ∈ s.history.registered ∧
    ∀ id ∈ p.acked, (id, ⟨s.life, p.op⟩) ∈ s.history.acks
  queued : ∀ op ∈ s.engine.writeQueue, ⟨s.life, op⟩ ∈ s.history.registered
  tasks : ∀ t ∈ s.tasks, ∀ op ∈ t.ops, ⟨s.life, op⟩ ∈ s.history.registered

/-- The registered objects and their recoveries: a replica has one object and at most one
recovery at a time. -/
structure Sys.Replicas (s : Sys N) : Prop where
  nodup : s.engine.nodeIDs.Nodup
  ref_lt : ∀ r ∈ s.engine.replicaStates, r.ref < s.engine.nextRef
  owed_lt : ∀ y ∈ s.history.owed, y.1.ref < s.engine.nextRef
  owed_registered : ∀ y ∈ s.history.owed, y.2 ∈ s.history.registered
  recovers_lt : ∀ h ∈ s.tasks.filterMap Task.recovers, h.ref < s.engine.nextRef
  recovers_nodup : (s.tasks.filterMap Task.recovers).Nodup
  recovering : ∀ r ∈ s.engine.replicaStates, r.recovering = false →
    r.toHandle ∉ s.tasks.filterMap Task.recovers

section
variable [DecidableEq N] {cfg : ReplicationConfig} {s s' : Sys N} {t : Task N} {ev : Event N}
  {ts : List (Task N)}

/-- No goroutine but a writer registers anything. -/
structure Sys.SameRegistry (s s' : Sys N) : Prop where
  life : s'.life = s.life
  reqSeq : s'.reqSeq = s.reqSeq
  writers : s'.writers = s.writers
  registered : s'.history.registered = s.history.registered
  owed : s'.history.owed = s.history.owed
  marks : s'.history.marks = s.history.marks
  acks : s.history.acks ⊆ s'.history.acks
  superseded : s.history.superseded ⊆ s'.history.superseded
  fed : s.history.fed ⊆ s'.history.fed
  tasks : s'.tasks = s.tasks

theorem Task.Step.sameRegistry (h : Task.Step cfg s t ev s' ts) : s.SameRegistry s' := by
  cases h <;> constructor <;>
    first
    | rfl
    | exact List.Subset.refl _
    | exact subset_append_right _ _

omit [DecidableEq N] in
theorem Sys.Registry.init : (Sys.init : Sys N).Registry := by
  constructor <;> simp [Sys.init]

omit [DecidableEq N] in
theorem Sys.Registry.of_same (h : s.Registry) (hsame : s.SameRegistry s') : s'.Registry := by
  obtain ⟨hl, hq, hw, hr, -, -, -, -, -, -⟩ := hsame
  constructor
  · rw [hl, hr]; exact h.life_le
  · rw [hr]; exact h.seq_pos
  · rw [hl, hr, hq]; exact h.seq_le
  · rw [hr]; exact h.seq_unique
  · rw [hr]; exact h.stamped
  · rw [hw, hq]; exact h.writers_pos
  · rw [hw, hr, hl]; exact h.writers_fresh
  · rw [hw]; exact h.writers_nodup

theorem Sys.Registry.step (h : s.Registry) (hstep : Sys.Step cfg s ev s') : s'.Registry := by
  cases hstep with
  | task pre post t ht ev s' ts hts =>
    have := h.of_same hts.sameRegistry
    exact ⟨this.life_le, this.seq_pos, this.seq_le, this.seq_unique, this.stamped,
      this.writers_pos, this.writers_fresh, this.writers_nodup⟩
  | create op hseq hts =>
    refine ⟨h.life_le, h.seq_pos, fun x hx hl => (h.seq_le x hx hl).trans (Nat.le_succ _),
      h.seq_unique, h.stamped, ?_, ?_, ?_⟩
    · refine forall_mem_cons.mpr ⟨⟨by omega, hseq.le, hts⟩, fun o ho => ?_⟩
      obtain ⟨hpos, hle, hts⟩ := h.writers_pos o ho
      exact ⟨hpos, hle.trans (Nat.le_succ _), hts⟩
    · refine forall_mem_cons.mpr ⟨fun x hx hl => ?_, h.writers_fresh⟩
      have := h.seq_le x hx hl
      omega
    · refine nodup_cons.mpr ⟨fun hmem => ?_, h.writers_nodup⟩
      obtain ⟨o, ho, heq⟩ := mem_map.mp hmem
      have := (h.writers_pos o ho).2.1
      omega
  | register pre post op hw =>
    have hmem : op ∈ s.writers := mem_middle hw
    obtain ⟨hpos, hle, hts⟩ := h.writers_pos op hmem
    have hnodup := h.writers_nodup
    rw [hw, map_append, map_cons, nodup_middle, nodup_cons, ← map_append] at hnodup
    constructor
    · exact forall_mem_cons.mpr ⟨le_rfl, h.life_le⟩
    · exact forall_mem_cons.mpr ⟨hpos, h.seq_pos⟩
    · exact forall_mem_cons.mpr ⟨fun _ => hle, h.seq_le⟩
    · intro x hx y hy hl hs
      rcases mem_cons.mp hx with rfl | hx <;> rcases mem_cons.mp hy with rfl | hy
      · rfl
      · exact absurd hs.symm (h.writers_fresh op hmem y hy hl.symm)
      · exact absurd hs (h.writers_fresh op hmem x hx hl)
      · exact h.seq_unique x hx y hy hl hs
    · exact forall_mem_cons.mpr ⟨hts, h.stamped⟩
    · exact fun o ho => h.writers_pos o (mem_rest hw ho)
    · intro o ho x hx hl
      rcases mem_cons.mp hx with rfl | hx
      · exact fun heq => hnodup.1 (mem_map.mpr ⟨o, ho, heq.symm⟩)
      · exact h.writers_fresh o (mem_rest hw ho) x hx hl
    · exact hnodup.2
  | restart =>
    refine ⟨fun x hx => (h.life_le x hx).trans (Nat.le_succ _), h.seq_pos, ?_, h.seq_unique,
      h.stamped, ?_, ?_, nodup_nil⟩
    · intro x hx hl
      have := h.life_le x hx
      simp only at hl
      omega
    · intro o ho
      cases ho
    · intro o ho
      cases ho
  | probe | add | join | remove | marks =>
    exact { h with }

open ReplicationEngine

section

variable (h : Task.Step cfg s t ev s' ts)
include h

theorem Task.Step.renews : Renews s.engine s'.engine := by
  cases h with
  | overflow => exact overflow_renews _
  | receive =>
    rw [Renews, receive_replicaStates]
    exact Renews.refl _
  | launch ops n hs => exact backpressure_renews _ cfg hs
  | sent h ops now => exact (sendOk_spec _ h ops now).renews fun r => by simp
  | sendFailed h ops arrived now => exact sendFailed_renews _ cfg h ops now
  | page h since sinceNs before ops hops now =>
    exact (delivered_spec _ h ops now).renews fun r => by simp
  | replayed h ops now => exact (delivered_spec _ h _ now).renews fun r => by simp
  | makeMember nodeID => exact makeMember_renews _ cfg nodeID
  | pageFails | endCatchUp | catchUpFails =>
    exact Renews.modify fun r => endCatchUp_toHandle ..
  | finish => exact Renews.modify finishRecovery_toHandle
  | probeEnds | mark | beginCatchUp | noSource | recoveryFails => exact Renews.modify fun _ => rfl
  | enqueue | snapshot | clear | arrive | antiEntropy | visit | probeFails | beginStale | look
  | replayArrives | replayFails | persist | persistFails => exact Renews.refl _

theorem Task.Step.nextRef : s'.engine.nextRef = s.engine.nextRef := by
  cases h with
  | receive op rest => exact receive_nextRef _ op rest
  | launch => rw [backpressure_eq]
  | sent h ops now => exact (sendOk_spec s.engine h ops now).nextRef
  | page h since sinceNs before ops hops now =>
    exact (delivered_spec s.engine h ops now).nextRef
  | replayed h ops now => exact (delivered_spec s.engine h _ now).nextRef
  | _ => rfl

/-- What a goroutine queues it had in hand. -/
theorem Task.Step.queued {op : WriteOperation} (hop : op ∈ s'.engine.writeQueue) :
    op ∈ s.engine.writeQueue ∨ op ∈ t.ops := by
  cases h with
  | enqueue => exact (mem_append.mp hop).imp_right id
  | receive op' rest batch hq =>
    rw [receive_writeQueue] at hop
    exact .inl (hq ▸ mem_cons_of_mem _ hop)
  | launch =>
    rw [backpressure_eq] at hop
    exact .inl hop
  | sent h ops now =>
    exact .inl ((sendOk_spec s.engine h ops now).writeQueue ▸ hop)
  | page h since sinceNs before ops hops now =>
    exact .inl ((delivered_spec s.engine h ops now).writeQueue ▸ hop)
  | replayed h ops now =>
    exact .inl ((delivered_spec s.engine h _ now).writeQueue ▸ hop)
  | _ => exact .inl hop

/-- What a goroutine goes on with it had in hand, took from the queue or found retained. -/
theorem Task.Step.ops {u : Task N} (hu : u ∈ ts) {op : WriteOperation} (hop : op ∈ u.ops) :
    op ∈ t.ops ∨ op ∈ s.engine.writeQueue ∨
      ∃ k p, s.engine.pendingWrites.lookup k = some p ∧ p.op = op := by
  have hunacked : ∀ {id : N}, op ∈ s.engine.unacked id →
      ∃ k p, s.engine.pendingWrites.lookup k = some p ∧ p.op = op := by
    intro id hmem
    obtain ⟨k, p, hp, -, heq⟩ := mem_unacked.mp hmem
    exact ⟨k, p, hp, heq⟩
  cases h with
  | receive op' rest batch hq =>
    obtain rfl := mem_singleton.mp hu
    refine (mem_append.mp hop).imp_right fun hmem => .inl ?_
    rw [hq, mem_singleton.mp hmem]
    exact mem_cons_self
  | snapshot | arrive | replayArrives =>
    obtain rfl := mem_singleton.mp hu
    exact .inl hop
  | launch =>
    rcases mem_cons.mp hu with rfl | hu
    · cases hop
    · obtain ⟨h, -, rfl⟩ := mem_map.mp hu
      exact .inl hop
  | visit =>
    split at hu
    · obtain rfl := mem_singleton.mp hu
      cases hop
    · rcases mem_cons.mp hu with rfl | hu
      · exact .inr (.inr (hunacked hop))
      · obtain rfl := mem_singleton.mp hu
        cases hop
  | look =>
    obtain rfl := mem_singleton.mp hu
    exact .inr (.inr (hunacked hop))
  | mark =>
    obtain rfl := mem_singleton.mp hu
    split at hop <;> cases hop
  | replayed =>
    obtain rfl := mem_singleton.mp hu
    split at hop
    · cases hop
    · exact .inl (mem_of_mem_drop hop)
  | enqueue | overflow | sent | sendFailed | probeEnds | finish | recoveryFails | makeMember
  | persist | persistFails => cases hu
  | _ =>
    obtain rfl := mem_singleton.mp hu
    cases hop

end

theorem Sys.Known.retained_step (hk : s.Known) (hreg : s.Registry)
    (h : Task.Step cfg s t ev s' ts) :
    s'.engine.pendingWrites.All fun p => ⟨s.life, p.op⟩ ∈ s.history.registered ∧
      ∀ id ∈ p.acked, (id, ⟨s.life, p.op⟩) ∈ s'.history.acks := by
  -- A section that records acknowledgements which are in the history.
  have hrec : ∀ {e' : ReplicationEngine N} {h : Handle N} {ops : List WriteOperation} {f}
      {acks : List (N × Registered)}, Records s.engine e' h ops f →
      s.history.acks ⊆ acks →
      (∀ op ∈ ops, ⟨s.life, op⟩ ∈ s.history.registered → (h.nodeID, ⟨s.life, op⟩) ∈ acks) →
      e'.pendingWrites.All fun p => ⟨s.life, p.op⟩ ∈ s.history.registered ∧
        ∀ id ∈ p.acked, (id, ⟨s.life, p.op⟩) ∈ acks := by
    intro e' h ops f acks hrec hsub hacks
    refine hrec.acks.all (hk.retained.mono fun p hp => ⟨hp.1, fun id hid => hsub (hp.2 id hid)⟩) ?_
    rintro p p' ⟨hmem, hp⟩ hop hacked
    rw [hop]
    refine ⟨hmem, fun id hid => ?_⟩
    rcases hacked id hid with hid | ⟨rfl, hop⟩
    · exact hp id hid
    · exact hacks _ hop hmem
  cases h with
  | receive op rest batch hq =>
    refine receive_all _ hk.retained ⟨hk.queued op (hq ▸ mem_cons_self), fun id hid => ?_⟩ rest
    cases hid
  | clear => exact fun k p hp => hk.retained k p (clearPending_kept _ hp)
  | launch =>
    rw [backpressure_eq]
    exact hk.retained
  | sent h ops now =>
    exact hrec (sendOk_spec _ h ops now) (subset_append_right _ _) fun op hop _ =>
      mem_append_left _ (mem_map_of_mem hop)
  | replayed h ops now =>
    exact hrec (delivered_spec _ h _ now) (subset_append_right _ _) fun op hop _ =>
      mem_append_left _ (mem_map_of_mem hop)
  | page h since sinceNs before ops hops now =>
    -- The operations of the feed have no number, so none of them is retained.
    refine hrec (delivered_spec _ h ops now) (List.Subset.refl _) fun op hop hmem => ?_
    exact absurd (hops op hop) (hreg.seq_pos _ hmem).ne'
  | _ => exact hk.retained

omit [DecidableEq N] in
theorem Sys.Known.init : (Sys.init : Sys N).Known := by
  refine ⟨fun k p hp => ?_, fun _ h => ?_, ?_⟩
  · cases hp
  · cases h
  · simp [Sys.init, Task.ops]

theorem Sys.Known.step (h : s.Known) (hreg : s.Registry) (hstep : Sys.Step cfg s ev s') :
    s'.Known := by
  cases hstep with
  | task pre post t ht ev s' ts hts =>
    have hsame := hts.sameRegistry
    have hmem : t ∈ s.tasks := mem_middle ht
    constructor
    · simp only [hsame.life, hsame.registered]
      exact h.retained_step hreg hts
    · simp only [hsame.life, hsame.registered]
      exact fun op hop => (hts.queued hop).elim (h.queued op) (h.tasks t hmem op)
    · simp only [hsame.life, hsame.registered]
      intro u hu op hop
      rcases mem_or_new ht hu with hu | hu
      · exact h.tasks u hu op hop
      · rcases hts.ops hu hop with hop | hop | ⟨k, p, hp, rfl⟩
        · exact h.tasks t hmem op hop
        · exact h.queued op hop
        · exact (h.retained k p hp).2.1
  | register pre post op =>
    obtain ⟨f, hf⟩ := onLocalWrite_spec s.engine cfg op
    have hold : s.engine.pendingWrites.All fun p =>
        ⟨s.life, p.op⟩ ∈ Registered.mk s.life op :: s.history.registered ∧
          ∀ id ∈ p.acked, (id, ⟨s.life, p.op⟩) ∈ s.history.acks :=
      h.retained.mono fun p hp => ⟨mem_cons_of_mem _ hp.1, hp.2⟩
    have hnew : (s.engine.retain op).pendingWrites.All fun p =>
        ⟨s.life, p.op⟩ ∈ Registered.mk s.life op :: s.history.registered ∧
          ∀ id ∈ p.acked, (id, ⟨s.life, p.op⟩) ∈ s.history.acks :=
      hold.insert (p := ⟨op, ∅⟩) ⟨mem_cons_self, fun id hid => by cases hid⟩
    refine ⟨hf.all hnew, fun o ho => ?_, fun u hu o ho => ?_⟩
    · rw [hf.rest] at ho
      exact mem_cons_of_mem _ (h.queued o ho)
    · rcases mem_cons.mp hu with rfl | hu
      · rw [mem_singleton.mp ho]
        exact mem_cons_self
      · exact mem_cons_of_mem _ (h.tasks u hu o ho)
  | create => exact { h with }
  | probe =>
    exact { h with tasks := forall_mem_cons.mpr ⟨by simp [Task.ops], h.tasks⟩ }
  | add => exact ⟨h.retained, h.queued, h.tasks⟩
  | join | marks =>
    exact ⟨h.retained, h.queued, forall_mem_cons.mpr ⟨by simp [Task.ops], h.tasks⟩⟩
  | remove nodeID =>
    have hdrop := removeReplica_spec s.engine nodeID
    refine ⟨fun k p hp => h.retained k p (hdrop.kept k p hp), fun o ho => ?_, h.tasks⟩
    rw [hdrop.rest] at ho
    exact h.queued o ho
  | restart =>
    refine ⟨fun k p hp => ?_, fun _ ho => ?_, ?_⟩
    · cases hp
    · cases ho
    · simp [Task.ops]

theorem Task.Step.recovers (h : Task.Step cfg s t ev s' ts) :
    ts.filterMap Task.recovers = [] ∨ ts.filterMap Task.recovers = t.recovers.toList := by
  cases h with
  | launch =>
    refine .inl (filterMap_eq_nil_iff.mpr fun u hu => ?_)
    rcases mem_cons.mp hu with rfl | hu
    · rfl
    · obtain ⟨h, -, rfl⟩ := mem_map.mp hu
      rfl
  | visit => split <;> exact .inl rfl
  | mark => split <;> exact .inr rfl
  | replayed => split <;> exact .inr rfl
  | probeFails | beginCatchUp | beginStale | noSource | page | pageFails | endCatchUp
  | catchUpFails | look | replayArrives | replayFails => exact .inr rfl
  | _ => exact .inl rfl

omit [DecidableEq N] in
/-- The registered objects are told apart by their handles. -/
theorem Sys.Replicas.eq_of_handle (h : s.Replicas) {r q : ReplicaInfo N}
    (hr : r ∈ s.engine.replicaStates) (hq : q ∈ s.engine.replicaStates)
    (heq : r.toHandle = q.toHandle) : r = q :=
  inj_on_of_nodup_map h.nodup hr hq (congrArg Handle.nodeID heq)

theorem Task.Step.touches (hrep : s.Replicas) (h : Task.Step cfg s t ev s' ts)
    {r' : ReplicaInfo N} (hr' : r' ∈ s'.engine.replicaStates) :
    ∃ r ∈ s.engine.replicaStates, Task.Touches cfg s s' ts t ev r r' := by
  -- A change of one object; the others stay as they are.
  have hmodify : ∀ {hd : Handle N} {f : ReplicaInfo N → ReplicaInfo N},
      r' ∈ (s.engine.modify hd f).replicaStates →
      (∀ r ∈ s.engine.replicaStates, r.toHandle = hd → Task.Touches cfg s s' ts t ev r (f r)) →
      (∀ r : ReplicaInfo N, r.toHandle ≠ hd → Task.Touches cfg s s' ts t ev r r) →
      ∃ r ∈ s.engine.replicaStates, Task.Touches cfg s s' ts t ev r r' := by
    intro hd f hr' hf hother
    obtain ⟨r, hr, ⟨hh, rfl⟩ | ⟨hne, rfl⟩⟩ := exists_of_mem_modify hr'
    · exact ⟨r, hr, hf r hr hh⟩
    · exact ⟨r', hr, hother r' hne⟩
  cases h with
  | overflow =>
    obtain ⟨r, hr, rfl⟩ := mem_map.mp hr'
    exact ⟨r, hr, .overflow _ r⟩
  | receive =>
    rw [receive_replicaStates] at hr'
    exact ⟨r', hr', .same (by simp) (by simp) (by simp)⟩
  | launch =>
    obtain ⟨r, hr, rfl | ⟨-, rfl⟩⟩ := exists_of_mem_backpressure _ cfg hr'
    · exact ⟨r', hr, .same (by simp) (by simp) (by simp)⟩
    · exact ⟨r, hr, .lagging r⟩
  | sent hd ops now =>
    rw [(sendOk_spec s.engine hd ops now).replicas] at hr'
    refine hmodify hr' ?_ fun _ _ => .same (by simp) (by simp) (by simp)
    rintro r - rfl
    exact .sent ops now r
  | sendFailed hd ops arrived now =>
    refine hmodify hr' ?_ fun r hne => .same ?_ (by simp) (by simp)
    · rintro r - rfl
      exact .sendFailed ops arrived now r
    · exact fun ops' heq => hne (Event.sendFailed.inj heq).1.symm
  | page hd since sinceNs before ops hops now =>
    rw [(delivered_spec s.engine hd ops now).replicas] at hr'
    exact hmodify hr' (fun r _ _ => .acked ops now r (by simp) (by simp) (by simp))
      fun _ _ => .same (by simp) (by simp) (by simp)
  | replayed hd ops now =>
    rw [(delivered_spec s.engine hd _ now).replicas] at hr'
    exact hmodify hr' (fun r _ _ => .acked _ now r (by simp) (by simp) (by simp))
      fun _ _ => .same (by simp) (by simp) (by simp)
  | makeMember nodeID =>
    obtain ⟨r, hr, rfl⟩ := mem_map.mp hr'
    refine ⟨r, hr, ?_⟩
    split
    · exact .member nodeID r
    · exact .same (by simp) (by simp) (by simp)
  | endCatchUp hd since sinceNs before =>
    refine hmodify hr' ?_ fun r hne => .same (by simp) (by simp) ?_
    · rintro r - rfl
      exact .endCatchUp since sinceNs before r fun x hx => mem_append_left _ (mem_map_of_mem hx)
    · exact fun _ _ _ heq => absurd (Task.catchUp.inj heq).1.symm hne
  | pageFails hd since sinceNs before | catchUpFails hd since sinceNs before =>
    refine hmodify hr' ?_ fun r hne => .same (by simp) (by simp) ?_
    · rintro r - rfl
      exact .catchUpFails since sinceNs before r (by simp) (by simp)
    · exact fun _ _ _ heq => absurd (Task.catchUp.inj heq).1.symm hne
  | finish hd hops =>
    refine hmodify hr' ?_ fun _ _ => .same (by simp) (by simp) (by simp)
    rintro r - rfl
    exact .finish r hops rfl
  | probeEnds =>
    refine hmodify hr' ?_ fun _ _ => .same (by simp) (by simp) (by simp)
    rintro r - rfl
    exact .probeEnds r
  | mark =>
    refine hmodify hr' (fun r _ hh => ?_) fun _ _ => .same (by simp) (by simp) (by simp)
    rw [← hh]
    exact .mark r
  | beginCatchUp q hq since now =>
    refine hmodify hr' (fun r hr hh => ?_) fun _ _ => .same (by simp) (by simp) (by simp)
    obtain rfl := hrep.eq_of_handle hr hq hh
    exact .beginCatchUp since now r
  | noSource hd since =>
    refine hmodify hr' ?_ fun _ _ => .same (by simp) (by simp) (by simp)
    rintro r - rfl
    exact .noSource since r
  | recoveryFails hd now =>
    refine hmodify hr' ?_ fun _ _ => .same (by simp) (by simp) (by simp)
    rintro r - rfl
    exact .recoveryFails now r
  | _ => exact ⟨r', hr', .same (by simp) (by simp) (by simp)⟩

theorem Task.Touches.recovering {r r' : ReplicaInfo N} (h : Task.Touches cfg s s' ts t ev r r')
    (hrec : r'.recovering = false) :
    r'.toHandle = r.toHandle ∧ (r.recovering = false ∨
      t.recovers = some r.toHandle ∧ ts.filterMap Task.recovers = []) := by
  cases h with
  | probeEnds | recoveryFails => exact ⟨rfl, .inr ⟨rfl, rfl⟩⟩
  | finish => exact ⟨finishRecovery_toHandle _, .inr ⟨rfl, rfl⟩⟩
  | overflow =>
    rw [markLagging_eq] at hrec ⊢
    exact ⟨rfl, .inl hrec⟩
  | sent =>
    rw [backInSync_eq, ackAll_eq] at hrec ⊢
    exact ⟨rfl, .inl hrec⟩
  | sendFailed =>
    rw [flagAll_eq, markFailed_eq] at hrec ⊢
    exact ⟨rfl, .inl hrec⟩
  | acked =>
    rw [ackAll_eq] at hrec ⊢
    exact ⟨rfl, .inl hrec⟩
  | endCatchUp | catchUpFails =>
    rw [endCatchUp_eq] at hrec ⊢
    exact ⟨rfl, .inl hrec⟩
  | same | lagging | member | mark | beginCatchUp | noSource => exact ⟨rfl, .inl hrec⟩

omit [DecidableEq N] in
theorem Sys.Replicas.init : (Sys.init : Sys N).Replicas := by
  constructor
  case recovers_nodup => exact nodup_nil
  all_goals simp [Sys.init, ReplicationEngine.start, ReplicationEngine.nodeIDs, Task.recovers]

theorem Sys.Replicas.add (h : s.Replicas) {nodeID : N}
    (hnew : s.engine.hasReplica nodeID = false) (now : Int) :
    Sys.Replicas { s with engine := s.engine.addReplica cfg nodeID now } := by
  have hhandle := newReplica_toHandle s.engine cfg nodeID now
  refine ⟨?_, ?_, fun y hy => (h.owed_lt y hy).trans (Nat.lt_succ_self _), h.owed_registered,
    fun h' hh => (h.recovers_lt h' hh).trans (Nat.lt_succ_self _), h.recovers_nodup, ?_⟩
  · refine nodup_cons.mpr ⟨fun hmem => ?_, h.nodup⟩
    obtain ⟨r, hr, heq⟩ := mem_map.mp hmem
    simp only [hasReplica, any_eq_false, decide_eq_true_eq] at hnew
    exact hnew r hr (heq.trans (congrArg Handle.nodeID hhandle))
  · refine forall_mem_cons.mpr ⟨?_, fun r hr => (h.ref_lt r hr).trans (Nat.lt_succ_self _)⟩
    rw [hhandle]
    exact Nat.lt_succ_self _
  · refine forall_mem_cons.mpr ⟨fun _ hmem => ?_, h.recovering⟩
    have := h.recovers_lt _ hmem
    rw [hhandle] at this
    exact this.false

theorem Sys.Replicas.step (h : s.Replicas) (hstep : Sys.Step cfg s ev s') : s'.Replicas := by
  cases hstep with
  | task pre post t ht ev s' ts hts =>
    have hsame := hts.sameRegistry
    have hold : s.tasks.filterMap Task.recovers =
        pre.filterMap Task.recovers ++ t.recovers.toList ++ post.filterMap Task.recovers := by
      rw [ht, filterMap_append, append_assoc, filterMap_cons]
      cases t.recovers <;> rfl
    have hnew : (pre ++ ts ++ post).filterMap Task.recovers =
        pre.filterMap Task.recovers ++ ts.filterMap Task.recovers ++
          post.filterMap Task.recovers := by
      simp only [filterMap_append]
    have hsub : ((pre ++ ts ++ post).filterMap Task.recovers).Sublist
        (s.tasks.filterMap Task.recovers) := by
      rw [hnew, hold]
      refine ((List.Sublist.refl _).append ?_).append (List.Sublist.refl _)
      rcases hts.recovers with hnil | heq
      · rw [hnil]
        exact nil_sublist _
      · rw [heq]
    refine ⟨?_, ?_, ?_, ?_, ?_, hsub.nodup h.recovers_nodup, ?_⟩
    · rw [hts.renews.nodeIDs]
      exact h.nodup
    · intro r' hr'
      obtain ⟨r, hr, heq⟩ := hts.renews.exists_of_mem hr'
      rw [heq, hts.nextRef]
      exact h.ref_lt r hr
    · rw [hsame.owed, hts.nextRef]
      exact h.owed_lt
    · rw [hsame.owed, hsame.registered]
      exact h.owed_registered
    · rw [hts.nextRef]
      exact fun h' hh => h.recovers_lt h' (hsub.subset hh)
    · intro r' hr' hrec
      obtain ⟨r, hr, hto⟩ := hts.touches h hr'
      obtain ⟨heq, hrec | ⟨hrecovers, hnil⟩⟩ := hto.recovering hrec
      · exact fun hmem => h.recovering r hr hrec (heq ▸ hsub.subset hmem)
      · -- The recovery was the only one of this object.
        have hnodup := h.recovers_nodup
        rw [hold, hrecovers, Option.toList_some, append_assoc, singleton_append,
          nodup_middle, nodup_cons] at hnodup
        rw [hnew, hnil, append_nil, heq]
        exact hnodup.1
  | register pre post op =>
    obtain ⟨f, hf⟩ := onLocalWrite_spec s.engine cfg op
    have hrenews : Renews s.engine (s.engine.onLocalWrite cfg op) := hf.renews
    have hnext : (s.engine.onLocalWrite cfg op).nextRef = s.engine.nextRef := by
      rw [hf.rest]
      rfl
    have hrecovers : (Task.offering op :: s.tasks).filterMap Task.recovers =
        s.tasks.filterMap Task.recovers := rfl
    refine ⟨hrenews.nodeIDs ▸ h.nodup, ?_, ?_, ?_, ?_, hrecovers ▸ h.recovers_nodup, ?_⟩
    · intro r' hr'
      obtain ⟨r, hr, heq⟩ := hrenews.exists_of_mem hr'
      rw [heq, hnext]
      exact h.ref_lt r hr
    · rw [hnext]
      refine forall_mem_append.mpr ⟨forall_mem_map.mpr fun r hr => h.ref_lt r hr, ?_⟩
      exact h.owed_lt
    · refine forall_mem_append.mpr ⟨forall_mem_map.mpr fun r _ => mem_cons_self, ?_⟩
      exact fun y hy => mem_cons_of_mem _ (h.owed_registered y hy)
    · rw [hnext]
      exact h.recovers_lt
    · intro r' hr' hrec
      rw [hf.replicas] at hr'
      obtain ⟨r, hr, rfl⟩ := mem_map.mp hr'
      rw [ReplicaInfo.flagAll_recovering] at hrec
      rw [ReplicaInfo.flagAll_toHandle]
      exact h.recovering r hr hrec
  | create | marks => exact { h with }
  | probe r hr hf hrec =>
    have hrenews : Renews s.engine (s.engine.modify r.toHandle
        fun r => { r with recovering := true }) := Renews.modify fun _ => rfl
    have hrecovers : (Task.probing r.toHandle :: s.tasks).filterMap Task.recovers =
        r.toHandle :: s.tasks.filterMap Task.recovers := rfl
    refine ⟨hrenews.nodeIDs ▸ h.nodup, ?_, h.owed_lt, h.owed_registered, ?_, ?_, ?_⟩
    · intro r' hr'
      obtain ⟨q, hq, heq⟩ := hrenews.exists_of_mem hr'
      rw [heq]
      exact h.ref_lt q hq
    · exact forall_mem_cons.mpr ⟨h.ref_lt r hr, h.recovers_lt⟩
    · exact nodup_cons.mpr ⟨h.recovering r hr hrec, h.recovers_nodup⟩
    · intro r' hr' hrec'
      obtain ⟨q, hq, ⟨-, rfl⟩ | ⟨hne, rfl⟩⟩ := exists_of_mem_modify hr'
      · cases hrec'
      · exact fun hmem => (mem_cons.mp hmem).elim hne (h.recovering _ hq hrec')
  | add nodeID hnew now => exact h.add hnew now
  | join nodeID hnew now =>
    have : Sys.Replicas { s with engine := s.engine.addReplica cfg nodeID now } :=
      h.add hnew now
    exact ⟨this.nodup, this.ref_lt, this.owed_lt, this.owed_registered, this.recovers_lt,
      this.recovers_nodup, this.recovering⟩
  | remove nodeID =>
    have hdrop := removeReplica_spec s.engine nodeID
    have hstates := s.engine.replicaStates_removeReplica nodeID
    have hnext : (s.engine.removeReplica nodeID).nextRef = s.engine.nextRef := by rw [hdrop.rest]
    refine ⟨?_, ?_, hnext ▸ h.owed_lt, h.owed_registered, hnext ▸ h.recovers_lt,
      h.recovers_nodup, ?_⟩
    · unfold nodeIDs
      rw [hstates]
      exact (filter_sublist.map _).nodup h.nodup
    · rw [hstates, hnext]
      exact fun r hr => h.ref_lt r (mem_filter.mp hr).1
    · rw [hstates]
      exact fun r hr => h.recovering r (mem_filter.mp hr).1
  | restart =>
    refine ⟨nodup_nil, fun _ hr => ?_, h.owed_lt, h.owed_registered, fun _ hr => ?_,
      nodup_nil, fun _ hr => ?_⟩
    all_goals cases hr

/-- What every run keeps, whatever its steps. -/
structure Sys.WF (s : Sys N) : Prop where
  registry : s.Registry
  known : s.Known
  replicas : s.Replicas

omit [DecidableEq N] in
theorem Sys.WF.init : (Sys.init : Sys N).WF := ⟨.init, .init, .init⟩

theorem Sys.WF.step (h : s.WF) (hstep : Sys.Step cfg s ev s') : s'.WF :=
  ⟨h.registry.step hstep, h.known.step h.registry hstep, h.replicas.step hstep⟩

end

end VeltrixDB.Replication
