import VeltrixDB.Cluster.PartitionMap
import Mathlib.Logic.Relation

/-!
# The failure detector

The detection of failed nodes and their way back, following
`cluster/failure_detection.go`.  Heartbeats and health checks hold the lock of
the detector and change the states of the members through the partition map; the
recovery worker pings failed and recovering nodes without the lock.  A step runs one
of these activities to the end of its next critical section, so that the worker may
come between the sections of the others.

Beside the detector a state keeps a history: which nodes were marked FAILED and not
set ACTIVE since, how many recovery pings in a row they answered since, and every
update to ACTIVE.

Main results:

- Theorem `FdSys.Run.failed_tracked`: a node whose state is FAILED is among the
  failed nodes of the detector.
- Theorem `FdSys.Run.confirmed`: in runs in which no failed node is suspected on
  its way back and no confirmation is counted across a failure, a failed node is set
  ACTIVE again only by the recovery worker after enough pings.
- Theorem `shortcut_suspect`: a failed node that is suspected on its way back is
  set ACTIVE by the next heartbeat.
-/

namespace VeltrixDB.Cluster

open Function PartitionMap Option

open scoped Bytes

/-! ## The detector -/

structure FailureDetectorConfig where
  suspectThreshold : Int
  failureThreshold : Int
  recoveryConfirmations : ℕ

def FailureDetectorConfig.need (cfg : FailureDetectorConfig) : ℕ :=
  if cfg.recoveryConfirmations = 0 then 2 else cfg.recoveryConfirmations

/-- The state of a detector; a time of zero is no heartbeat. -/
structure FailureDetector where
  localNodeID : NodeID
  nodeHeartbeats : NodeID → Int
  suspectedNodes : NodeID → Bool
  failedNodes : NodeID → Bool
  recoveryOK : NodeID → ℕ
  partitionMap : PartitionMap

variable (pm : PartitionMap)

def PartitionMap.stateOf (nodeID : NodeID) : Option NodeState :=
  (pm.node? nodeID).map Node.state

def PartitionMap.setState (nodeID : NodeID) (newState : NodeState) : PartitionMap :=
  match pm.updateNodeState nodeID newState with
  | .ok pm' => pm'
  | .error _ => pm

namespace FailureDetector

def new (localNodeID : NodeID) : FailureDetector where
  localNodeID := localNodeID
  nodeHeartbeats := fun _ => 0
  suspectedNodes := fun _ => false
  failedNodes := fun _ => false
  recoveryOK := fun _ => 0
  partitionMap := pm

variable (fd : FailureDetector) (nodeID : NodeID)

def update (newState : NodeState) : FailureDetector :=
  { fd with partitionMap := fd.partitionMap.setState nodeID newState }

/-- The first part of a heartbeat: the time is recorded and a suspicion is cleared. -/
def clearSuspect (nowNs : Int) : FailureDetector :=
  let fd := { fd with nodeHeartbeats := Function.update fd.nodeHeartbeats nodeID nowNs }
  if fd.suspectedNodes nodeID then
    { fd with suspectedNodes := Function.update fd.suspectedNodes nodeID false }.update nodeID
      .active
  else fd

/-- The second part of a heartbeat: a failed node is recovering. -/
def clearFailed : FailureDetector :=
  if fd.failedNodes nodeID then
    { fd with failedNodes := Function.update fd.failedNodes nodeID false }.update nodeID
      .recovering
  else fd

/-- The time of the last heartbeat: the one recorded here, or the one in the map. -/
def lastHeartbeat (fallback : Int) : Int :=
  if fd.nodeHeartbeats nodeID = 0 then fallback else fd.nodeHeartbeats nodeID

def verdict (cfg : FailureDetectorConfig) (nowNs : Int) (node : Node) : Option NodeState :=
  let timeSinceHeartbeat := nowNs - fd.lastHeartbeat node.id node.lastHeartbeat
  if cfg.failureThreshold < timeSinceHeartbeat then
    if node.state ≠ .failed then some .failed else none
  else if cfg.suspectThreshold < timeSinceHeartbeat then
    if node.state ≠ .suspect ∧ node.state ≠ .failed then some .suspect else none
  else if node.state = .suspect ∧ timeSinceHeartbeat < cfg.suspectThreshold then some .active
  else none

/-- Carry out a verdict: the state is updated, then the sets of the detector. -/
def mark : NodeState → FailureDetector
  | .failed =>
    { fd.update nodeID .failed with
      failedNodes := Function.update fd.failedNodes nodeID true
      suspectedNodes := Function.update fd.suspectedNodes nodeID false }
  | .suspect =>
    { fd.update nodeID .suspect with
      suspectedNodes := Function.update fd.suspectedNodes nodeID true }
  | newState =>
    { fd.update nodeID newState with
      suspectedNodes := Function.update fd.suspectedNodes nodeID false }

/-- Whether the last heartbeat is younger than the suspect threshold. -/
def fresh (cfg : FailureDetectorConfig) (nowNs : Int) (nodeID : NodeID) (lastHB : Int) : Bool :=
  nowNs - fd.lastHeartbeat nodeID lastHB < cfg.suspectThreshold

/-- The nodes that the recovery worker pings, with their heartbeats of the map. -/
def recovering (fd : FailureDetector) : List (NodeID × Int) :=
  (fd.partitionMap.nodes.filter fun n => n.state = .recovering).map fun n =>
    (n.id, n.lastHeartbeat)

def triggerRebalance : FailureDetector :=
  if 0 < (fd.partitionMap.nodes.filter fun n => n.state = .active).length then
    match fd.partitionMap.rebalance fd.partitionMap.configuredPartitions with
    | .ok pm => { fd with partitionMap := pm }
    | .error _ => fd
  else fd

end FailureDetector

/-! ## States of the activities -/

/-- Who holds the lock of the detector. -/
inductive Holder where
  | free
  | heartbeat (nodeID : NodeID)
  | checking (nowNs : Int) (rest : List NodeID)
  | marking (nowNs : Int) (nodeID : NodeID) (newState : NodeState) (rest : List NodeID)
deriving DecidableEq

/-- Where the recovery worker stands. -/
inductive Worker where
  | idle
  /-- `attemptNodeRecovery` during its ping. -/
  | pinging (nodeID : NodeID)
  | answered (nodeID : NodeID)
  | rebalancing
  /-- `promoteRecoveredNodes` found no recovering node. -/
  | clearing
  /-- `promoteRecoveredNodes` with the nodes that it has not pinged. -/
  | promoting (targets : List (NodeID × Int)) (promoted : Bool)
  | confirmed (nodeID : NodeID) (targets : List (NodeID × Int)) (promoted : Bool)
  | activating (nodeID : NodeID) (targets : List (NodeID × Int)) (promoted : Bool)
deriving DecidableEq

def Worker.promotes : Worker → Option NodeID
  | .confirmed nodeID _ _ | .activating nodeID _ _ => some nodeID
  | _ => none

/-- The activities that set a node ACTIVE. -/
inductive Activity where
  | recordHeartbeat
  | checkNodeHealth
  | promoteRecoveredNodes
deriving DecidableEq

/-- An update to ACTIVE: whether the node had been marked FAILED and not set ACTIVE
since, how many recovery pings in a row it answered since, and whether its heartbeat
was fresh at the last of them. -/
structure Activation where
  nodeID : NodeID
  actor : Activity
  marked : Bool
  pings : ℕ
  fresh : Bool
deriving DecidableEq

/-- The detector with its activities, and what was done so far. -/
structure FdSys where
  fd : FailureDetector
  holder : Holder
  worker : Worker
  marked : NodeID → Bool
  pings : NodeID → ℕ
  fresh : NodeID → Bool
  activations : List Activation

def FdSys.init (localNodeID : NodeID) : FdSys where
  fd := .new pm localNodeID
  holder := .free
  worker := .idle
  marked := fun _ => false
  pings := fun _ => 0
  fresh := fun _ => false
  activations := []

def FdSys.activated (s : FdSys) (nodeID : NodeID) (actor : Activity) : FdSys :=
  { s with
    activations := ⟨nodeID, actor, s.marked nodeID, s.pings nodeID, s.fresh nodeID⟩ :: s.activations
    marked := update s.marked nodeID false }

def FdSys.failed (s : FdSys) (nodeID : NodeID) : FdSys :=
  { s with
    marked := update s.marked nodeID true
    pings := update s.pings nodeID 0
    fresh := update s.fresh nodeID false }

def FdSys.noted (s : FdSys) (nodeID : NodeID) : NodeState → FdSys
  | .failed => s.failed nodeID
  | .active => s.activated nodeID .checkNodeHealth
  | _ => s

def FdSys.pinged (s : FdSys) (nodeID : NodeID) (ok fresh : Bool) : FdSys :=
  { s with
    pings := update s.pings nodeID (if ok then s.pings nodeID + 1 else 0)
    fresh := update s.fresh nodeID (ok && fresh) }

/-! ## Steps -/

variable {cfg : FailureDetectorConfig}

/-- What a step does to a node that matters for its way back. -/
inductive FdEvent where
  | mark (nodeID : NodeID) (newState : NodeState)
  | other
deriving DecidableEq

inductive FdSys.Step (cfg : FailureDetectorConfig) (s : FdSys) : FdEvent → FdSys → Prop where
  /-- `RecordHeartbeat` takes the lock and clears a suspicion. -/
  | heartbeat (nodeID : NodeID) (nowNs : Int) (hfree : s.holder = .free) :
      Step cfg s .other
        { (if s.fd.suspectedNodes nodeID then s.activated nodeID .recordHeartbeat else s) with
          fd := s.fd.clearSuspect nodeID nowNs
          holder := .heartbeat nodeID }
  | heartbeatEnds (nodeID : NodeID) (h : s.holder = .heartbeat nodeID) :
      Step cfg s .other { s with fd := s.fd.clearFailed nodeID, holder := .free }
  /-- `checkNodeHealth` takes the lock; the nodes are visited in any order. -/
  | check (nowNs : Int) (order : List NodeID) (hfree : s.holder = .free)
      (horder : order.Perm (s.fd.partitionMap.nodes.map Node.id)) :
      Step cfg s .other { s with holder := .checking nowNs order }
  | checkSkips (nowNs : Int) (nodeID : NodeID) (rest : List NodeID)
      (h : s.holder = .checking nowNs (nodeID :: rest))
      (hskip : nodeID = s.fd.localNodeID ∨
        ∃ node, s.fd.partitionMap.node? nodeID = some node ∧ s.fd.verdict cfg nowNs node = none) :
      Step cfg s .other { s with holder := .checking nowNs rest }
  | checkDecides (nowNs : Int) (nodeID : NodeID) (rest : List NodeID)
      (h : s.holder = .checking nowNs (nodeID :: rest)) (hlocal : nodeID ≠ s.fd.localNodeID)
      (node : Node) (hnode : s.fd.partitionMap.node? nodeID = some node) (newState : NodeState)
      (hverdict : s.fd.verdict cfg nowNs node = some newState) :
      Step cfg s .other { s with holder := .marking nowNs nodeID newState rest }
  | checkMarks (nowNs : Int) (nodeID : NodeID) (newState : NodeState) (rest : List NodeID)
      (h : s.holder = .marking nowNs nodeID newState rest) :
      Step cfg s (.mark nodeID newState)
        { s.noted nodeID newState with
          fd := s.fd.mark nodeID newState
          holder := .checking nowNs rest }
  | checkEnds (nowNs : Int) (h : s.holder = .checking nowNs []) :
      Step cfg s .other { s with holder := .free }
  /-- `attemptNodeRecovery` of a member. -/
  | attempt (nodeID : NodeID) (hidle : s.worker = .idle)
      (hnode : (s.fd.partitionMap.node? nodeID).isSome = true) :
      Step cfg s .other { s with worker := .pinging nodeID }
  | attemptPing (nodeID : NodeID) (h : s.worker = .pinging nodeID) (ok : Bool) :
      Step cfg s .other { s with worker := if ok then .answered nodeID else .idle }
  | attemptMarks (nodeID : NodeID) (h : s.worker = .answered nodeID) :
      Step cfg s .other
        { s with fd := s.fd.update nodeID .recovering, worker := .rebalancing }
  | rebalance (h : s.worker = .rebalancing) :
      Step cfg s .other { s with fd := s.fd.triggerRebalance, worker := .idle }
  /-- `promoteRecoveredNodes` collects the recovering nodes, in any order. -/
  | promote (hidle : s.worker = .idle) (targets : List (NodeID × Int))
      (htargets : targets.Perm s.fd.recovering) :
      Step cfg s .other
        { s with worker := if targets = [] then .clearing else .promoting targets false }
  | promoteClears (h : s.worker = .clearing) (hfree : s.holder = .free) :
      Step cfg s .other
        { s with fd := { s.fd with recoveryOK := fun _ => 0 }, worker := .idle }
  | promoteFails (nodeID : NodeID) (lastHB : Int) (targets : List (NodeID × Int))
      (promoted : Bool) (h : s.worker = .promoting ((nodeID, lastHB) :: targets) promoted)
      (hfree : s.holder = .free) :
      Step cfg s .other
        { s.pinged nodeID false false with
          fd := { s.fd with recoveryOK := update s.fd.recoveryOK nodeID 0 }
          worker := .promoting targets promoted }
  | promoteCounts (nodeID : NodeID) (lastHB nowNs : Int) (targets : List (NodeID × Int))
      (promoted : Bool) (h : s.worker = .promoting ((nodeID, lastHB) :: targets) promoted)
      (hfree : s.holder = .free)
      (hfew : s.fd.recoveryOK nodeID + 1 < cfg.need ∨ s.fd.fresh cfg nowNs nodeID lastHB = false) :
      Step cfg s .other
        { s.pinged nodeID true (s.fd.fresh cfg nowNs nodeID lastHB) with
          fd := { s.fd with
            recoveryOK := update s.fd.recoveryOK nodeID (s.fd.recoveryOK nodeID + 1) }
          worker := .promoting targets promoted }
  | promoteConfirms (nodeID : NodeID) (lastHB nowNs : Int) (targets : List (NodeID × Int))
      (promoted : Bool) (h : s.worker = .promoting ((nodeID, lastHB) :: targets) promoted)
      (hfree : s.holder = .free) (henough : cfg.need ≤ s.fd.recoveryOK nodeID + 1)
      (hfresh : s.fd.fresh cfg nowNs nodeID lastHB = true) :
      Step cfg s .other
        { s.pinged nodeID true true with
          fd := { s.fd with recoveryOK := update s.fd.recoveryOK nodeID 0 }
          worker := .confirmed nodeID targets promoted }
  | promoteRechecks (nodeID : NodeID) (targets : List (NodeID × Int)) (promoted : Bool)
      (h : s.worker = .confirmed nodeID targets promoted) :
      Step cfg s .other
        { s with
          worker :=
            if s.fd.partitionMap.stateOf nodeID = some .recovering then
              .activating nodeID targets promoted
            else .promoting targets promoted }
  | promoteActivates (nodeID : NodeID) (targets : List (NodeID × Int)) (promoted : Bool)
      (h : s.worker = .activating nodeID targets promoted) :
      Step cfg s .other
        { s.activated nodeID .promoteRecoveredNodes with
          fd := s.fd.update nodeID .active
          worker := .promoting targets true }
  | promoteEnds (promoted : Bool) (h : s.worker = .promoting [] promoted) :
      Step cfg s .other { s with worker := if promoted then .rebalancing else .idle }

def FdSys.Run (cfg : FailureDetectorConfig) (D : FdSys → FdEvent → Prop) : FdSys → FdSys → Prop :=
  Relation.ReflTransGen fun s s' => ∃ ev, FdSys.Step cfg s ev s' ∧ D s ev

theorem FdSys.Run.snoc {D : FdSys → FdEvent → Prop} {s s' s'' : FdSys} {ev : FdEvent}
    (h : FdSys.Run cfg D s s') (hstep : FdSys.Step cfg s' ev s'') (hD : D s' ev) :
    FdSys.Run cfg D s s'' :=
  Relation.ReflTransGen.tail h ⟨ev, hstep, hD⟩

def anyFdStep (_ : FdSys) (_ : FdEvent) : Prop := True

/-! ## States of the members -/

namespace PartitionMap

variable {pm : PartitionMap} {nodeID x : NodeID}

theorem node?_modifyNode {f : Node → Node} (hf : ∀ n, (f n).id = n.id) :
    (pm.modifyNode nodeID f).node? x =
      (pm.node? x).map fun n => if n.id = nodeID then f n else n := by
  have hid : ∀ n : Node, (if n.id = nodeID then f n else n).id = n.id := by
    intro n
    split
    · exact hf n
    · rfl
  simp only [node?, modifyNode, List.find?_map, comp_def, hid]

theorem stateOf_setState (newState : NodeState) : (pm.setState nodeID newState).stateOf x =
    if x = nodeID then (pm.stateOf x).map fun _ => newState else pm.stateOf x := by
  unfold setState updateNodeState
  cases hnode : pm.node? nodeID with
  | none =>
    by_cases hx : x = nodeID
    · simp [stateOf, hx, hnode]
    · simp [hx]
  | some node =>
    show Option.map Node.state ((pm.modifyNode nodeID _).node? x) = _
    rw [node?_modifyNode (f := fun n => { n with state := newState }) fun _ => rfl, stateOf,
      Option.map_map]
    cases hx : pm.node? x with
    | none => simp
    | some n =>
      obtain rfl : n.id = x := by simpa using List.find?_some hx
      by_cases hid : n.id = nodeID
      · simp [hid]
      · simp [hid]

end PartitionMap

variable {newState : NodeState}

namespace FailureDetector

variable {fd : FailureDetector} {nodeID x : NodeID}

@[simp] theorem stateOf_update (newState : NodeState) :
    (fd.update nodeID newState).partitionMap.stateOf x =
      if x = nodeID then (fd.partitionMap.stateOf x).map fun _ => newState
      else fd.partitionMap.stateOf x :=
  stateOf_setState newState

/-- Rebuilding the table leaves the members and the detector as they are. -/
theorem triggerRebalance_eq (fd : FailureDetector) :
    ∃ pm, fd.triggerRebalance = { fd with partitionMap := pm } ∧
      pm.stateOf = fd.partitionMap.stateOf := by
  unfold triggerRebalance
  split
  · split
    next pm hpm =>
      refine ⟨pm, rfl, ?_⟩
      unfold rebalance at hpm
      split at hpm
      · cases hpm
      · split at hpm
        · cases hpm
        · split at hpm
          · cases hpm
          · cases hpm
            rfl
    · exact ⟨fd.partitionMap, rfl, rfl⟩
  · exact ⟨fd.partitionMap, rfl, rfl⟩

theorem verdict_cases {nowNs : Int} {node : Node} (h : fd.verdict cfg nowNs node = some newState) :
    newState = .failed ∨ newState = .suspect ∨ newState = .active ∧ node.state = .suspect := by
  unfold verdict at h
  dsimp only at h
  split at h
  · split at h
    · exact .inl (some.inj h).symm
    · cases h
  · split at h
    · split at h
      · exact .inr (.inl (some.inj h).symm)
      · cases h
    · split at h
      next hsuspect => exact .inr (.inr ⟨(some.inj h).symm, hsuspect.1⟩)
      · cases h

end FailureDetector

/-! ## Failed nodes are tracked -/

/-- A node whose state is FAILED is among the failed nodes. -/
def FailureDetector.Tracks (fd : FailureDetector) : Prop :=
  ∀ x, fd.partitionMap.stateOf x = some .failed → fd.failedNodes x = true

open FailureDetector

namespace FailureDetector

variable {fd : FailureDetector}

theorem Tracks.update (h : fd.Tracks) (nodeID : NodeID) (hne : newState ≠ .failed) :
    (fd.update nodeID newState).Tracks := by
  intro x hx
  rw [stateOf_update] at hx
  split at hx
  · obtain ⟨_, -, heq⟩ := map_eq_some_iff.mp hx
    exact absurd heq hne
  · exact h x hx

theorem Tracks.mark (h : fd.Tracks) (nodeID : NodeID) (newState : NodeState) :
    (fd.mark nodeID newState).Tracks := by
  cases newState with
  | failed =>
    intro x hx
    show Function.update fd.failedNodes nodeID true x = true
    rw [Function.update_apply]
    split
    · rfl
    next hne =>
      have hx' : (fd.update nodeID .failed).partitionMap.stateOf x = some .failed := hx
      rw [stateOf_update, if_neg hne] at hx'
      exact h x hx'
  | active | suspect | recovering | draining => exact h.update nodeID (by decide)

/-- A heartbeat that removes a node from the failed ones makes it RECOVERING. -/
theorem Tracks.clearFailed (h : fd.Tracks) (nodeID : NodeID) : (fd.clearFailed nodeID).Tracks := by
  unfold FailureDetector.clearFailed
  split
  · intro x hx
    rw [stateOf_update] at hx
    show Function.update fd.failedNodes nodeID false x = true
    split at hx
    · obtain ⟨_, -, heq⟩ := map_eq_some_iff.mp hx
      cases heq
    next hne =>
      rw [Function.update_of_ne hne]
      exact h x hx
  · exact h

theorem Tracks.clearSuspect (h : fd.Tracks) (nodeID : NodeID) (nowNs : Int) :
    (fd.clearSuspect nodeID nowNs).Tracks := by
  unfold FailureDetector.clearSuspect
  dsimp only
  split
  · have h' : FailureDetector.Tracks
        { fd with
          nodeHeartbeats := Function.update fd.nodeHeartbeats nodeID nowNs
          suspectedNodes := Function.update fd.suspectedNodes nodeID false } := h
    exact h'.update nodeID (by decide)
  · exact h

end FailureDetector

theorem FdSys.Step.tracks {s s' : FdSys} {ev : FdEvent} (hstep : FdSys.Step cfg s ev s')
    (h : s.fd.Tracks) : s'.fd.Tracks := by
  cases hstep with
  | heartbeat nodeID nowNs => exact h.clearSuspect nodeID nowNs
  | heartbeatEnds nodeID => exact h.clearFailed nodeID
  | checkMarks nowNs nodeID newState => exact h.mark nodeID newState
  | attemptMarks nodeID => exact h.update nodeID (by decide)
  | promoteActivates nodeID => exact h.update nodeID (by decide)
  | rebalance =>
    obtain ⟨pm, heq, hstates⟩ := s.fd.triggerRebalance_eq
    intro x hx
    simp only [heq, hstates] at hx ⊢
    exact h x hx
  | check | checkSkips | checkDecides | checkEnds | attempt | attemptPing | promote
  | promoteClears | promoteFails | promoteCounts | promoteConfirms | promoteRechecks
  | promoteEnds => exact h

/-- From a map without failed members, a node whose state is FAILED is among the
failed nodes of the detector after every step. -/
theorem FdSys.Run.failed_tracked {D : FdSys → FdEvent → Prop} {pm : PartitionMap}
    {localNodeID : NodeID} (hpm : ∀ x, pm.stateOf x ≠ some .failed) {s : FdSys}
    (hrun : FdSys.Run cfg D (.init pm localNodeID) s) : s.fd.Tracks := by
  induction hrun with
  | refl => exact fun x hx => absurd hx (hpm x)
  | tail _ hstep ih =>
    obtain ⟨ev, hstep, -⟩ := hstep
    exact hstep.tracks ih

/-! ## The way back of a failed node -/

/-- The condition on the health check: it does not suspect a node that was marked
FAILED and not set ACTIVE since, and it does not mark a node FAILED while confirmations
are counted for it. -/
def calmMarks (s : FdSys) : FdEvent → Prop
  | .mark nodeID .suspect => s.marked nodeID = false
  | .mark nodeID .failed => s.fd.recoveryOK nodeID = 0 ∧ s.worker.promotes ≠ some nodeID
  | _ => True

/-- The node was pinged often enough, and its heartbeat was fresh. -/
def Activation.Confirmed (cfg : FailureDetectorConfig) (a : Activation) : Prop :=
  a.actor = .promoteRecoveredNodes ∧ cfg.need ≤ a.pings ∧ a.fresh = true

/-- A node that was marked FAILED is not suspected, it is FAILED or RECOVERING, the
pings counted for it came since, and nobody but the worker is about to set it ACTIVE. -/
structure FdSys.Confirming (cfg : FailureDetectorConfig) (s : FdSys) : Prop where
  unsuspected : ∀ x, s.marked x = true → s.fd.suspectedNodes x = false
  states : ∀ x, s.marked x = true → ∀ st, s.fd.partitionMap.stateOf x = some st →
    st = .failed ∨ st = .recovering
  counted : ∀ x, s.marked x = true → s.fd.recoveryOK x ≤ s.pings x
  verdicts : ∀ nowNs x st rest, s.holder = .marking nowNs x st rest →
    st = .failed ∨ st = .suspect ∨ st = .active ∧ s.marked x = false
  promoted : ∀ x, s.worker.promotes = some x → s.marked x = true →
    cfg.need ≤ s.pings x ∧ s.fresh x = true
  activations : ∀ a ∈ s.activations, a.marked = true → a.Confirmed cfg

section Confirming

variable {cfg : FailureDetectorConfig} {s s' : FdSys} {nodeID : NodeID} {worker : Worker}

def Holder.NoVerdict (holder : Holder) : Prop :=
  ∀ nowNs x st rest, holder ≠ .marking nowNs x st rest

namespace FdSys

section

variable (h : s.Confirming cfg)
include h

/-- A step that only concerns nodes which are not marked. -/
theorem Confirming.frame (hmarked : s'.marked = s.marked)
    (hsuspected : ∀ x, s.marked x = true → s'.fd.suspectedNodes x = s.fd.suspectedNodes x)
    (hstates : ∀ x, s.marked x = true →
      s'.fd.partitionMap.stateOf x = s.fd.partitionMap.stateOf x)
    (hcounts : s'.fd.recoveryOK = s.fd.recoveryOK) (hpings : s'.pings = s.pings)
    (hfresh : s'.fresh = s.fresh) (hworker : s'.worker = s.worker) (hholder : s'.holder.NoVerdict)
    (hactivations : ∀ a ∈ s'.activations, a.marked = true → a ∈ s.activations) :
    s'.Confirming cfg where
  unsuspected := by
    intro x hx
    rw [hmarked] at hx
    rw [hsuspected x hx]
    exact h.unsuspected x hx
  states := by
    intro x hx st hst
    rw [hmarked] at hx
    rw [hstates x hx] at hst
    exact h.states x hx st hst
  counted := by rw [hmarked, hcounts, hpings]; exact h.counted
  verdicts := fun nowNs x st rest hv => absurd hv (hholder nowNs x st rest)
  promoted := by rw [hworker, hmarked, hpings, hfresh]; exact h.promoted
  activations := fun a ha hm => h.activations a (hactivations a ha hm) hm

theorem Confirming.activated {actor : Activity} (hnode : s.marked nodeID = false)
    (fd : FailureDetector) {holder : Holder}
    (hsuspected : ∀ x, x ≠ nodeID → fd.suspectedNodes x = s.fd.suspectedNodes x)
    (hstates : fd.partitionMap.stateOf = (s.fd.update nodeID .active).partitionMap.stateOf)
    (hcounts : fd.recoveryOK = s.fd.recoveryOK) (hholder : holder.NoVerdict) :
    Confirming cfg { s.activated nodeID actor with fd := fd, holder := holder } := by
  have hother : ∀ x, s.marked x = true → x ≠ nodeID := by
    rintro x hx rfl
    rw [hnode] at hx
    cases hx
  refine h.frame ?_ (fun x hx => hsuspected x (hother x hx)) (fun x hx => ?_) hcounts rfl rfl rfl
    hholder fun a ha hm => ?_
  · show update s.marked nodeID false = s.marked
    rw [← hnode, update_eq_self]
  · rw [hstates, stateOf_update, if_neg (hother x hx)]
  · rcases List.mem_cons.mp ha with rfl | ha
    · exact absurd (hm.symm.trans hnode) (by decide)
    · exact ha

/-- The first part of a heartbeat sets no marked node ACTIVE, since a marked node is
not suspected. -/
theorem Confirming.heartbeat (nodeID : NodeID) (nowNs : Int) :
    Confirming cfg
      { (if s.fd.suspectedNodes nodeID then s.activated nodeID .recordHeartbeat else s) with
        fd := s.fd.clearSuspect nodeID nowNs
        holder := .heartbeat nodeID } := by
  have hholder : (Holder.heartbeat nodeID).NoVerdict := by
    intro _ _ _ _ hv
    cases hv
  by_cases hsusp : s.fd.suspectedNodes nodeID = true
  · have hnode : s.marked nodeID = false := by
      by_contra hm
      rw [h.unsuspected nodeID (by simpa using hm)] at hsusp
      cases hsusp
    rw [if_pos hsusp, clearSuspect, if_pos hsusp]
    exact h.activated hnode _ (fun x hx => update_of_ne hx _ _) rfl rfl hholder
  · rw [if_neg hsusp, clearSuspect, if_neg hsusp]
    exact h.frame rfl (fun _ _ => rfl) (fun _ _ => rfl) rfl rfl rfl rfl hholder fun _ ha _ => ha

theorem Confirming.recovering (nodeID : NodeID) {x : NodeID} (hx : s.marked x = true)
    {st : NodeState} (hst : (s.fd.update nodeID .recovering).partitionMap.stateOf x = some st) :
    st = .failed ∨ st = .recovering := by
  rw [stateOf_update] at hst
  split at hst
  · obtain ⟨_, -, rfl⟩ := map_eq_some_iff.mp hst
    exact .inr rfl
  · exact h.states x hx st hst

theorem Confirming.heartbeatEnds (nodeID : NodeID) :
    Confirming cfg { s with fd := s.fd.clearFailed nodeID, holder := .free } := by
  have hholder : Holder.free.NoVerdict := by
    intro _ _ _ _ hv
    cases hv
  unfold clearFailed
  split
  · exact { h with
        states := fun x hx st hst => h.recovering nodeID hx hst
        verdicts := fun nowNs x st rest hv => absurd hv (hholder nowNs x st rest) }
  · exact h.frame rfl (fun _ _ => rfl) (fun _ _ => rfl) rfl rfl rfl rfl hholder fun _ ha _ => ha

theorem Confirming.failed {holder : Holder} (hzero : s.fd.recoveryOK nodeID = 0)
    (hworker : s.worker.promotes ≠ some nodeID) (hholder : holder.NoVerdict) :
    Confirming cfg
      { s.failed nodeID with fd := s.fd.mark nodeID .failed, holder := holder } := by
  have hold : ∀ x, x ≠ nodeID → (s.failed nodeID).marked x = true → s.marked x = true := by
    intro x hne hx
    have hx' : update s.marked nodeID true x = true := hx
    rwa [update_of_ne hne] at hx'
  constructor
  · intro x hx
    show update s.fd.suspectedNodes nodeID false x = false
    rw [update_apply]
    split
    · rfl
    next hne => exact h.unsuspected x (hold x hne hx)
  · intro x hx st hst
    have hst' : (s.fd.update nodeID .failed).partitionMap.stateOf x = some st := hst
    rw [stateOf_update] at hst'
    split at hst'
    · obtain ⟨_, -, rfl⟩ := map_eq_some_iff.mp hst'
      exact .inl rfl
    next hne => exact h.states x (hold x hne hx) st hst'
  · intro x hx
    show s.fd.recoveryOK x ≤ update s.pings nodeID 0 x
    rw [update_apply]
    split
    next heq => rw [heq, hzero]
    next hne => exact h.counted x (hold x hne hx)
  · exact fun nowNs x st rest hv => absurd hv (hholder nowNs x st rest)
  · intro x hpromotes hx
    have hne : x ≠ nodeID := by
      rintro rfl
      exact hworker hpromotes
    show cfg.need ≤ update s.pings nodeID 0 x ∧
      update s.fresh nodeID false x = true
    rw [update_of_ne hne, update_of_ne hne]
    exact h.promoted x hpromotes (hold x hne hx)
  · exact h.activations

theorem Confirming.marks {nowNs : Int} {rest : List NodeID}
    (hmarking : s.holder = .marking nowNs nodeID newState rest)
    (hcalm : calmMarks s (.mark nodeID newState)) :
    Confirming cfg
      { s.noted nodeID newState with
        fd := s.fd.mark nodeID newState
        holder := .checking nowNs rest } := by
  have hholder : (Holder.checking nowNs rest).NoVerdict := by
    intro _ _ _ _ hv
    cases hv
  rcases h.verdicts _ _ _ _ hmarking with rfl | rfl | ⟨rfl, hnode⟩
  · exact h.failed hcalm.1 hcalm.2 hholder
  · have hother : ∀ x, s.marked x = true → x ≠ nodeID := by
      rintro x hx rfl
      exact absurd (hx.symm.trans hcalm) (by decide)
    refine h.frame rfl (fun x hx => update_of_ne (hother x hx) _ _) (fun x hx => ?_)
      rfl rfl rfl rfl hholder fun _ ha _ => ha
    show (s.fd.update nodeID .suspect).partitionMap.stateOf x = _
    rw [stateOf_update, if_neg (hother x hx)]
  · exact h.activated hnode _ (fun x hx => update_of_ne hx _ _) rfl rfl hholder

theorem Confirming.pinged (nodeID : NodeID) (ok fresh : Bool) {count : ℕ}
    (hcount : s.marked nodeID = true → count ≤ if ok then s.pings nodeID + 1 else 0)
    (hworker : ∀ x, worker.promotes = some x → x = nodeID ∧ (s.marked x = true →
      ok = true ∧ fresh = true ∧ cfg.need ≤ s.pings nodeID + 1)) :
    Confirming cfg
      { s.pinged nodeID ok fresh with
        fd := { s.fd with recoveryOK := update s.fd.recoveryOK nodeID count }
        worker := worker } := by
  refine { h with counted := fun x hx => ?_, promoted := fun x hpromotes hx => ?_ }
  · show update s.fd.recoveryOK nodeID count x ≤ update s.pings nodeID _ x
    rw [update_apply, update_apply]
    split
    next heq => exact hcount (heq ▸ hx)
    · exact h.counted x hx
  · obtain ⟨rfl, hneed⟩ := hworker x hpromotes
    obtain ⟨rfl, rfl, hle⟩ := hneed hx
    show cfg.need ≤ update s.pings x _ x ∧ update s.fresh x _ x = true
    rw [update_self, update_self]
    exact ⟨hle, rfl⟩

theorem Confirming.move (hworker : ∀ x, worker.promotes = some x → s.worker.promotes = some x) :
    Confirming cfg { s with worker := worker } :=
  { h with promoted := fun x hx => h.promoted x (hworker x hx) }

theorem Confirming.activates (hpromotes : s.worker.promotes = some nodeID)
    (hworker : worker.promotes = none) :
    Confirming cfg
      { s.activated nodeID .promoteRecoveredNodes with
        fd := s.fd.update nodeID .active
        worker := worker } := by
  have hold : ∀ x, update s.marked nodeID false x = true →
      x ≠ nodeID ∧ s.marked x = true := by
    intro x hx
    have hne : x ≠ nodeID := by
      rintro rfl
      rw [update_self] at hx
      cases hx
    exact ⟨hne, by rwa [update_of_ne hne] at hx⟩
  refine ⟨fun x hx => h.unsuspected x (hold x hx).2, fun x hx st hst => ?_,
    fun x hx => h.counted x (hold x hx).2, fun nowNs x st rest hv => ?_, fun x hx => ?_,
    fun a ha hm => ?_⟩
  · rw [stateOf_update, if_neg (hold x hx).1] at hst
    exact h.states x (hold x hx).2 st hst
  · refine (h.verdicts nowNs x st rest hv).imp_right (Or.imp_right fun hv => ⟨hv.1, ?_⟩)
    show update s.marked nodeID false x = false
    rw [update_apply]
    split
    · rfl
    · exact hv.2
  · rw [show worker.promotes = none from hworker] at hx
    cases hx
  · rcases List.mem_cons.mp ha with rfl | ha
    · exact ⟨rfl, h.promoted nodeID hpromotes hm⟩
    · exact h.activations a ha hm

end

theorem Step.confirming {ev : FdEvent} (hstep : Step cfg s ev s')
    (hcalm : calmMarks s ev) (h : s.Confirming cfg) : s'.Confirming cfg := by
  cases hstep with
  | heartbeat nodeID nowNs => exact h.heartbeat nodeID nowNs
  | heartbeatEnds nodeID => exact h.heartbeatEnds nodeID
  | check | checkSkips | checkEnds =>
    exact h.frame rfl (fun _ _ => rfl) (fun _ _ => rfl) rfl rfl rfl rfl
      (fun _ _ _ _ hv => by cases hv) fun _ ha _ => ha
  | checkDecides nowNs nodeID rest _ _ node hnode newState hverdict =>
    refine { h with verdicts := fun nowNs' x st rest' hv => ?_ }
    obtain ⟨-, rfl, rfl, -⟩ := Holder.marking.inj hv
    refine (verdict_cases hverdict).imp_right (Or.imp_right fun hv => ?_)
    refine ⟨hv.1, ?_⟩
    -- A suspected node is not marked.
    by_contra hm
    have hst : s.fd.partitionMap.stateOf nodeID = some .suspect := by
      rw [stateOf, hnode, map_some, hv.2]
    rcases h.states nodeID (by simpa using hm) _ hst with hst | hst <;> cases hst
  | checkMarks nowNs nodeID newState rest hmarking => exact h.marks hmarking hcalm
  | attempt nodeID _ _ => exact h.move fun _ hx => by cases hx
  | attemptPing nodeID _ ok => exact h.move fun _ hx => by cases ok <;> cases hx
  | attemptMarks nodeID _ =>
    exact { h with
        states := fun x hx st hst => h.recovering nodeID hx hst
        promoted := fun _ hx => (by cases hx) }
  | rebalance _ =>
    obtain ⟨pm, heq, hstates⟩ := s.fd.triggerRebalance_eq
    rw [heq]
    refine { h with states := fun x hx st hst => ?_, promoted := fun _ hx => (by cases hx) }
    exact h.states x hx st (by rw [← hstates]; exact hst)
  | promote _ targets _ =>
    refine h.move fun x hx => ?_
    split at hx <;> cases hx
  | promoteClears _ _ =>
    exact { h with counted := fun _ _ => Nat.zero_le _, promoted := fun _ hx => (by cases hx) }
  | promoteFails nodeID lastHB targets promoted _ _ =>
    exact h.pinged nodeID false false (fun _ => le_rfl) fun _ hx => by cases hx
  | promoteCounts nodeID lastHB nowNs targets promoted _ _ _ =>
    exact h.pinged nodeID true _ (fun hm => Nat.succ_le_succ (h.counted nodeID hm))
      fun _ hx => by cases hx
  | promoteConfirms nodeID lastHB nowNs targets promoted _ _ henough _ =>
    refine h.pinged nodeID true true (fun _ => Nat.zero_le _) fun x hx => ?_
    obtain rfl := some.inj hx
    exact ⟨rfl, fun hm =>
      ⟨rfl, rfl, henough.trans (Nat.succ_le_succ (h.counted nodeID hm))⟩⟩
  | promoteRechecks nodeID targets promoted hworker =>
    refine h.move fun x hx => ?_
    rw [hworker]
    split at hx
    · exact hx
    · cases hx
  | promoteActivates nodeID targets promoted hworker =>
    exact h.activates (by rw [hworker]; rfl) rfl
  | promoteEnds promoted _ => exact h.move fun _ hx => by cases promoted <;> cases hx

end FdSys

end Confirming

/-- From a map without failed members: after every step a node whose state is FAILED
is among the failed nodes; and in runs whose health checks meet the condition, a node
that was marked FAILED is set ACTIVE again only by `promoteRecoveredNodes`, after
enough answered pings in a row since it was marked, with a fresh heartbeat. -/
theorem FdSys.Run.confirmed (cfg : FailureDetectorConfig) (pm : PartitionMap)
    (localNodeID : NodeID) (hpm : ∀ x, pm.stateOf x ≠ some .failed) :
    (∀ s, FdSys.Run cfg anyFdStep (.init pm localNodeID) s → ∀ x,
      s.fd.partitionMap.stateOf x = some .failed → s.fd.failedNodes x = true) ∧
    ∀ s, FdSys.Run cfg calmMarks (.init pm localNodeID) s → ∀ a ∈ s.activations,
      a.marked = true →
        a.actor = .promoteRecoveredNodes ∧ cfg.need ≤ a.pings ∧ a.fresh = true := by
  refine ⟨fun s hrun => hrun.failed_tracked hpm, fun s hrun => ?_⟩
  have hinit : (FdSys.init pm localNodeID).Confirming cfg :=
    ⟨fun _ hx => (by cases hx), fun _ hx => (by cases hx), fun _ hx => (by cases hx),
      fun _ _ _ _ hv => (by cases hv), fun _ hx => (by cases hx), fun _ ha => (by cases ha)⟩
  suffices h : s.Confirming cfg from h.activations
  induction hrun with
  | refl => exact hinit
  | tail _ hstep ih =>
    obtain ⟨ev, hstep, hcalm⟩ := hstep
    exact hstep.confirming hcalm ih

def oneNode : PartitionMap :=
  { PartitionMap.new 1 1 4 with nodes := [⟨[97], [], .active, 0⟩] }

def smallThresholds : FailureDetectorConfig := ⟨3, 10, 0⟩

theorem oneNode_not_failed (x : NodeID) : oneNode.stateOf x ≠ some .failed := by
  by_cases hx : [97] = x
  · subst hx
    decide
  · simp [stateOf, node?, oneNode]

/-- The node fails, comes back with a heartbeat, answers two pings and is set ACTIVE. -/
theorem confirmed_two_pings :
    ∃ s, FdSys.Run smallThresholds calmMarks (.init oneNode [98]) s ∧
      ∃ a ∈ s.activations, a.marked = true ∧ a.actor = .promoteRecoveredNodes ∧
        smallThresholds.need ≤ a.pings ∧ a.fresh = true := by
  have h₀ : FdSys.Run smallThresholds calmMarks (.init oneNode [98]) (.init oneNode [98]) := .refl
  have h₁ := h₀.snoc (.check 20 [[97]] rfl (.refl _)) trivial
  have h₂ := h₁.snoc (.checkDecides 20 [97] [] rfl (by decide) _ rfl .failed rfl) trivial
  have h₃ := h₂.snoc (.checkMarks 20 [97] .failed [] rfl) ⟨rfl, by decide⟩
  have h₄ := h₃.snoc (.checkEnds 20 rfl) trivial
  have h₅ := h₄.snoc (.heartbeat [97] 21 rfl) trivial
  have h₆ := h₅.snoc (.heartbeatEnds [97] rfl) trivial
  have h₇ := h₆.snoc (.promote rfl [([97], 0)] (.refl _)) trivial
  have h₈ := h₇.snoc (.promoteCounts [97] 0 22 [] false rfl rfl (.inl (by decide))) trivial
  have h₉ := h₈.snoc (.promoteEnds false rfl) trivial
  have h₁₀ := h₉.snoc (.promote rfl [([97], 0)] (.refl _)) trivial
  have h₁₁ := h₁₀.snoc (.promoteConfirms [97] 0 23 [] false rfl rfl (by decide) rfl) trivial
  have h₁₂ := h₁₁.snoc (.promoteRechecks [97] [] false rfl) trivial
  have h₁₃ := h₁₂.snoc (.promoteActivates [97] [] false rfl) trivial
  exact ⟨_, h₁₃, _, List.mem_cons_self, rfl,
    (FdSys.Run.confirmed smallThresholds oneNode [98] oneNode_not_failed).2 _ h₁₃ _
      List.mem_cons_self rfl⟩

/-- The node fails, comes back with a heartbeat, is suspected, and the next heartbeat
sets it ACTIVE, without a single ping. -/
theorem shortcut_suspect :
    ∃ s, FdSys.Run smallThresholds anyFdStep (.init oneNode [98]) s ∧
      ∃ a ∈ s.activations, a.marked = true ∧ a.actor = .recordHeartbeat ∧ a.pings = 0 := by
  have h₀ : FdSys.Run smallThresholds anyFdStep (.init oneNode [98]) (.init oneNode [98]) := .refl
  have h₁ := h₀.snoc (.check 20 [[97]] rfl (.refl _)) trivial
  have h₂ := h₁.snoc (.checkDecides 20 [97] [] rfl (by decide) _ rfl .failed rfl) trivial
  have h₃ := h₂.snoc (.checkMarks 20 [97] .failed [] rfl) trivial
  have h₄ := h₃.snoc (.checkEnds 20 rfl) trivial
  have h₅ := h₄.snoc (.heartbeat [97] 21 rfl) trivial
  have h₆ := h₅.snoc (.heartbeatEnds [97] rfl) trivial
  have h₇ := h₆.snoc (.check 25 [[97]] rfl (.refl _)) trivial
  have h₈ := h₇.snoc (.checkDecides 25 [97] [] rfl (by decide) _ rfl .suspect rfl) trivial
  have h₉ := h₈.snoc (.checkMarks 25 [97] .suspect [] rfl) trivial
  have h₁₀ := h₉.snoc (.checkEnds 25 rfl) trivial
  have h₁₁ := h₁₀.snoc (.heartbeat [97] 26 rfl) trivial
  exact ⟨_, h₁₁, ⟨[97], .recordHeartbeat, true, 0, false⟩, List.mem_cons_self, rfl, rfl, rfl⟩

end VeltrixDB.Cluster
