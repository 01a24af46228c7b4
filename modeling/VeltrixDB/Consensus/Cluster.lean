import VeltrixDB.Consensus.Membership

/-!
# Clusters of Raft nodes

A cluster is its nodes and the messages ever sent.  A message stays in the
network, so it may be delivered late, out of order, several times or never.
Every action is one critical section of one node, or a crash with restart; the
outcome of its file operations is part of the action.

Main definitions:

- `Action` and `exec`: the transitions, as a function.
- `Reachable`: the clusters reached by runs whose steps meet a condition.
-/

namespace VeltrixDB.Consensus

/-- A cluster: the nodes, and every message ever sent. -/
structure Cluster (ι κ : Type) where
  nodes : ι → RaftNode ι κ
  net : List (Message ι κ)
  /-- History: indices of the entries acknowledged to clients. -/
  acked : List Nat

inductive Action (ι κ : Type) where
  /-- Deliver message `i`; the outcomes are those of persisting a term (twice)
  and a vote; `round` is the pre-vote round an answer belongs to. -/
  | deliver (i : Nat) (o o' o'' : ReplaceOutcome) (round : Nat)
  | appendError (i : Nat)
  | preVote (z : ι)
  | preVoteDone (z : ι) (round : Nat)
  | startElection (z : ι) (round : Nat) (o : ReplaceOutcome)
  | replicate (z : ι) (uid : Nat)
  | sendSnapshot (z : ι) (uid : Nat) (legacy : Bool)
  | endTransfer (z : ι) (uid : Nat)
  | heartbeat (z : ι) (slow : List ι)
  | submit (z : ι) (batch : List κ)
  | submitTimeout (z : ι) (idx chan : Nat)
  | syncCapture (z : ι)
  | syncWrite (z : ι) (o : NodeCore.WriteOutcome)
  | syncFsync (z : ι) (ok : Bool)
  | syncFinish (z : ι)
  | gather (z : ι)
  | applySome (z : ι)
  | finishApplied (z : ι)
  | captureFence (z : ι) (snapshotID : Nat)
  | captureInstall (z : ι) (o : ReplaceOutcome)
  | captureCompact (z : ι) (o : LogStore.RewriteOutcome)
  | installBegin (z : ι) (valid : Bool)
  | installRename (z : ι) (o : ReplaceOutcome)
  | installLog (z : ι) (o : LogStore.RewriteOutcome)
  | installRestored (z : ι)
  | readIndex (z : ι)
  | confirmRead (z : ι) (call : Nat)
  | returnRead (z : ι) (call : Nat)
  | addMember (z : ι) (call : AddCall ι)
  | resumeAdd (z : ι) (i : Nat)
  | giveUpAdd (z : ι) (i : Nat)
  | removeMember (z : ι) (id : ι)
  | resumeRemove (z : ι) (i : Nat)
  | giveUpRemove (z : ι) (i : Nat)
  /-- Time passes: contacts with the leader and with `peers` grow old. -/
  | timePasses (z : ι) (peers : List ι)
  | stop (z : ι)
  | closeStore (z : ι)
  /-- The process crashes and starts again: the first `kept` log records
  survived and the state machine reports `applied`. -/
  | restart (z : ι) (f : LogStore.CrashedLog) (applied : Option AppliedIndexState) (o : ReplaceOutcome)
      (rw : LogStore.RewriteOutcome)
  /-- The process crashes, its data directory is wiped, and it starts again
  waiting to be added. -/
  | wipe (z : ι)

namespace RaftNode

variable {ι κ : Type} [DecidableEq ι]

structure Options (ι : Type) where
  boot : Configuration ι
  pipelineWindow : Nat
  batchSM : Bool
  appliedSM : Bool

def freshCore (id : ι) (boot : Configuration ι) (batchSM appliedSM : Bool) : NodeCore ι κ where
  id := id
  boot := boot
  batchSM := batchSM
  appliedSM := appliedSM
  stopped := false
  currentTerm := 0
  votedFor := none
  log := []
  store := { recs := [], synced := 0, found := 0, renamed := [], failed := false, closed := false
             gen := 0
             savedMeta := { currentTerm := 0, votedFor := none }
             metaFile := { currentTerm := 0, votedFor := none } }
  durableIndex := 0
  lastIncludedIndex := 0
  lastIncludedTerm := 0
  snapFile := none
  config := boot
  configIndex := 0
  baseConfig := boot
  baseConfigIndex := 0
  commitIndex := 0
  lastApplied := 0
  role := .follower
  matchIndex := fun _ => 0
  votes := []
  awaiting := []
  needed := 0
  aeWaiters := []
  sync := .idle
  gathered := []
  applying := []
  capture := .idle
  recv := none
  install := none
  records := []
  granted := []
  led := []
  applied := []
  marked := []
  proposed := []

def fresh (id : ι) (opts : Options ι) : RaftNode ι κ where
  toNodeCore := freshCore id opts.boot opts.batchSM opts.appliedSM
  pipelineWindow := opts.pipelineWindow
  nextIndex := fun _ => 0
  repl := []
  nextUid := 0
  lastAck := []
  learnerRounds := []
  leaderContact := false
  preVotes := []
  waiters := []
  nextChan := 0
  reads := []
  nextRead := 0
  adds := []
  removes := []
  submitted := []
  signalled := []
  readsDone := []

/-- The core of a server whose data directory was wiped, started to join: only the
history remains. -/
def wipedCore (n : NodeCore ι κ) : NodeCore ι κ :=
  { (freshCore n.id Configuration.empty n.batchSM n.appliedSM : NodeCore ι κ) with
    granted := n.granted
    led := n.led
    applied := n.applied
    marked := n.marked
    proposed := n.proposed }

def wiped (n : RaftNode ι κ) : RaftNode ι κ :=
  { n with
    toNodeCore := wipedCore n.toNodeCore
    nextIndex := fun _ => 0
    repl := []
    lastAck := []
    learnerRounds := []
    leaderContact := false
    preVotes := []
    waiters := []
    reads := []
    adds := []
    removes := [] }

/-- Indices acknowledged to clients by a step from `n` to `n'`. -/
def freshAcks (n n' : RaftNode ι κ) : List Nat :=
  n'.signalled.filterMap fun s =>
    if s.2 = .ok ∧ s ∉ n.signalled then (n'.submitted.lookup s.1).map LogEntry.index else none

end RaftNode

namespace Cluster

variable {ι κ : Type} [DecidableEq ι] [CommandCodec ι κ] {P : Cluster ι κ → Action ι κ → Prop}
  {opts : ι → RaftNode.Options ι}

def init (opts : ι → RaftNode.Options ι) : Cluster ι κ where
  nodes := fun z => RaftNode.fresh z (opts z)
  net := []
  acked := []

variable (c : Cluster ι κ)

def put (z : ι) (n : RaftNode ι κ) (out : List (Message ι κ)) : Cluster ι κ where
  nodes := Function.update c.nodes z n
  net := c.net ++ out
  acked := (c.nodes z).freshAcks n ++ c.acked

def onCoreSend (z : ι) (f : NodeCore ι κ → NodeCore ι κ × List (Message ι κ)) : Cluster ι κ :=
  let r := f (c.nodes z).toNodeCore
  c.put z { c.nodes z with toNodeCore := r.1 } r.2

def onCore (z : ι) (f : NodeCore ι κ → NodeCore ι κ) : Cluster ι κ :=
  c.onCoreSend z fun n => (f n, [])

def deliver (msg : Message ι κ) (o o' o'' : ReplaceOutcome) (round : Nat) : Cluster ι κ :=
  match msg with
  | .requestVote dest args =>
    let (n, reply) := (c.nodes dest).handleRequestVote args o o' o''
    c.put dest n [.voteReply dest args reply]
  | .voteReply source args reply =>
    let n := c.nodes args.candidateID
    if args.preVote then c.put args.candidateID (n.onPreVoteReply round source reply o) []
    else c.put args.candidateID (n.onVoteReply source args reply o) []
  | .append dest req =>
    let (n, replies) := (c.nodes dest).handleAppendEntries req o o'
    c.put dest n (replies.map fun r => .appendReply dest r.1 r.2)
  | .appendReply source req reply =>
    let n := c.nodes req.source
    match req.tag with
    | .replicator .. => c.put req.source (n.onAppendReply source req reply o) []
    | .readIndex call => c.put req.source (n.onReadReply source call reply o) []
  | .snapshot dest req =>
    let (n, reply) := (c.nodes dest).handleInstallSnapshot req o o'
    c.put dest n (reply.toList.map fun r => .snapshotReply dest req r.1 r.2)
  | .snapshotReply source req term status =>
    c.put req.source ((c.nodes req.source).onSnapshotReply source req term status o) []

/-- The effect of an action, if it is enabled. -/
def exec : Action ι κ → Option (Cluster ι κ)
  | .deliver i o o' o'' round => (c.net[i]?).map fun msg => c.deliver msg o o' o'' round
  | .appendError i =>
    match c.net[i]? with
    | some (.append _ req) => some (c.put req.source ((c.nodes req.source).onAppendError req) [])
    | _ => none
  | .preVote z =>
    if (c.nodes z).stopped then none
    else some (c.put z (c.nodes z).preVote.1 (c.nodes z).preVote.2)
  | .preVoteDone z round => some (c.put z ((c.nodes z).preVoteDone round) [])
  | .startElection z round o =>
    let r := (c.nodes z).startElection round o
    some (c.put z r.1 r.2)
  | .replicate z uid =>
    if (c.nodes z).stopped then none
    else some (c.put z ((c.nodes z).replicate uid).1 ((c.nodes z).replicate uid).2)
  | .sendSnapshot z uid legacy =>
    if (c.nodes z).stopped then none
    else some (c.put z ((c.nodes z).sendSnapshot uid legacy).1
      ((c.nodes z).sendSnapshot uid legacy).2)
  | .endTransfer z uid => some (c.put z ((c.nodes z).endTransfer uid) [])
  | .heartbeat z slow =>
    if (c.nodes z).stopped then none else some (c.put z ((c.nodes z).heartbeat slow) [])
  | .submit z batch =>
    if (c.nodes z).stopped then none else some (c.put z ((c.nodes z).flushBatch batch) [])
  | .submitTimeout z idx chan => some (c.put z ((c.nodes z).removeWaiter idx chan) [])
  | .syncCapture z =>
    match (c.nodes z).sync with
    | .idle => some (c.onCore z (·.syncCapture))
    | _ => none
  | .syncWrite z o =>
    match (c.nodes z).sync with
    | .captured idx term => some (c.onCore z (·.syncWrite idx term o))
    | _ => none
  | .syncFsync z ok =>
    match (c.nodes z).sync with
    | .written idx term covered gen =>
      some (c.onCore z (·.syncFsync idx term covered gen ok))
    | _ => none
  | .syncFinish z =>
    match (c.nodes z).sync with
    | .flushed idx term result =>
      let r := (c.nodes z).syncFinish idx term result
      some (c.put z r.1 (r.2.map fun r => .appendReply z r.1 r.2))
    | _ => none
  | .gather z => some (c.onCore z (·.gather))
  | .applySome z => some (c.onCore z (·.applySome))
  | .finishApplied z => some (c.put z (c.nodes z).finishApplied [])
  | .captureFence z snapshotID => some (c.onCore z (·.captureFence snapshotID))
  | .captureInstall z o => some (c.onCore z (·.captureInstall o))
  | .captureCompact z o => some (c.onCore z (·.captureCompact o))
  | .installBegin z valid =>
    some (c.onCoreSend z (·.installBegin valid))
  | .installRename z o =>
    some (c.onCoreSend z (·.installRename o))
  | .installLog z o =>
    let r := (c.nodes z).installLog o
    some (c.put z r.1 (r.2.map fun r => .appendReply z r.1 r.2))
  | .installRestored z =>
    some (c.onCoreSend z (·.installRestored))
  | .readIndex z =>
    let r := (c.nodes z).readIndex c.acked
    some (c.put z r.1 (if (c.nodes z).stopped then [] else r.2))
  | .confirmRead z call => some (c.put z ((c.nodes z).confirmRead call) [])
  | .returnRead z call => some (c.put z ((c.nodes z).returnRead call) [])
  | .addMember z call => some (c.put z ((c.nodes z).addMember call) [])
  | .resumeAdd z i => some (c.put z ((c.nodes z).resumeAdd i) [])
  | .giveUpAdd z i => some (c.put z ((c.nodes z).giveUpAdd i) [])
  | .removeMember z id => some (c.put z ((c.nodes z).removeMember id) [])
  | .resumeRemove z i => some (c.put z ((c.nodes z).resumeRemove i) [])
  | .giveUpRemove z i => some (c.put z ((c.nodes z).giveUpRemove i) [])
  | .timePasses z peers =>
    some (c.put z { c.nodes z with
      leaderContact := false
      lastAck := (c.nodes z).lastAck.filter (· ∉ peers) } [])
  | .stop z => some (c.onCore z fun n => { n with stopped := true })
  | .closeStore z =>
    if (c.nodes z).stopped then
      some (c.onCoreSend z fun n =>
        ({ n.takeDecidedWaiters.1 with store := { n.store with closed := true } },
          n.takeDecidedWaiters.2.map fun r => .appendReply z r.1 r.2))
    else none
  | .restart z f applied o rw =>
    let n := c.nodes z
    if ∀ a ∈ applied, a.restoring = true ∨ a ∈ n.records then
      (n.restart f applied o rw).map fun n => c.put z n []
    else none
  | .wipe z => some (c.put z (c.nodes z).wiped [])

/-- Execute actions one after another, as long as each meets the condition
`P`. -/
def run (P : Cluster ι κ → Action ι κ → Prop) [∀ c a, Decidable (P c a)] (c : Cluster ι κ) :
    List (Action ι κ) → Option (Cluster ι κ)
  | [] => some c
  | a :: as => if P c a then (c.exec a).bind fun c' => c'.run P as else none

def AnyStep (_ : Cluster ι κ) (_ : Action ι κ) : Prop := True

instance instDecidableAnyStep (a : Action ι κ) : Decidable (AnyStep c a) :=
  isTrue trivial

/-- The clusters reached from a fresh start by steps that all meet the condition
`P`. -/
inductive Reachable (opts : ι → RaftNode.Options ι) (P : Cluster ι κ → Action ι κ → Prop) :
    Cluster ι κ → Prop where
  | init : Reachable opts P (Cluster.init opts)
  | step {c c' : Cluster ι κ} {a : Action ι κ} (h : Reachable opts P c) (hP : P c a)
      (hexec : c.exec a = some c') : Reachable opts P c'

/-- What holds of the fresh cluster and is kept by every step that meets the
condition holds of every reachable cluster. -/
theorem Reachable.induct {Inv : Cluster ι κ → Prop} (hinit : Inv (Cluster.init opts))
    (hstep : ∀ c c' a, Inv c → P c a → c.exec a = some c' → Inv c') {c : Cluster ι κ}
    (h : Reachable opts P c) : Inv c := by
  induction h with
  | init => exact hinit
  | step _ hP hexec ih => exact hstep _ _ _ ih hP hexec

theorem Reachable.of_run [∀ c a, Decidable (P c a)] {c c' : Cluster ι κ} (h : Reachable opts P c)
    (as : List (Action ι κ)) (hrun : c.run P as = some c') : Reachable opts P c' := by
  induction as generalizing c with
  | nil =>
    cases hrun
    exact h
  | cons a as ih =>
    rw [run] at hrun
    split at hrun
    next hP =>
      obtain ⟨c₁, hexec, hrest⟩ := Option.bind_eq_some_iff.1 hrun
      exact ih (h.step hP hexec) hrest
    · cases hrun

theorem exists_reachable [∀ c a, Decidable (P c a)] (as : List (Action ι κ))
    (Q : Cluster ι κ → Prop) [DecidablePred Q]
    (h : (((Cluster.init opts).run P as).any fun c => Q c) = true) :
    ∃ c, Reachable opts P c ∧ Q c := by
  obtain ⟨c, hrun, hQ⟩ := (Option.any_eq_true _ _).1 h
  exact ⟨c, .of_run .init as hrun, by simpa using hQ⟩

instance instNeZeroThree : NeZero 3 := ⟨Nat.succ_ne_zero 2⟩

def recv (i : Nat) : Action ι κ := .deliver i .done .done .done 0

def syncAll (z : ι) : List (Action ι κ) :=
  [.syncCapture z, .syncWrite z .done, .syncFsync z true, .syncFinish z]

end Cluster

end VeltrixDB.Consensus
