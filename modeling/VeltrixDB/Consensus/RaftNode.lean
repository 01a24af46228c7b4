import VeltrixDB.Consensus.Snapshot

/-!
# The whole node

The full node record of `consensus/raft.go`: the core together with leader
bookkeeping, commit waiters and calls in progress, and the critical sections
that touch them.

Main definitions:

- `RaftNode`, which extends `NodeCore`.
- `becomeFollower`, `becomeLeader`, `stepDown` and
  `flushBatch`.
-/

namespace VeltrixDB.Consensus

/-! ## Calls in progress -/

structure PeerRepl (ι : Type) where
  peer : ι
  term : Nat
  uid : Nat
  inflight : Nat
  probing : Bool
  epoch : Nat
  hbDue : Bool
  snapshotting : Bool
deriving DecidableEq, Repr

structure PreVoteRound (ι : Type) where
  myTerm : Nat
  needed : Nat
  granted : Nat
  awaiting : List ι
  ready : Bool
deriving DecidableEq, Repr

structure ReadCall (ι : Type) where
  call : Nat
  term : Nat
  readIdx : Nat
  quorum : Nat
  selfVote : Bool
  acks : List ι
  awaiting : List ι
  confirmed : Bool
  /-- History: indices acknowledged to any client before the call started. -/
  ackedBefore : List Nat
deriving DecidableEq, Repr

/-- A ReadIndex call that returned: its fence, how far the state machine had
applied, and the indices acknowledged before the call started. -/
structure ReadDone where
  readIdx : Nat
  lastApplied : Nat
  ackedBefore : List Nat
deriving DecidableEq, Repr

/-- An AddMember call that waits for a reachable quorum. -/
structure AddCall (ι : Type) where
  member : ι
  addr : String
  known : List (ι × String)
deriving DecidableEq, Repr

inductive SubmitResult where
  | ok
  | notLeader
  | persistError
deriving DecidableEq, Repr

/-! ## The record -/

structure RaftNode (ι κ : Type) extends NodeCore ι κ where
  pipelineWindow : Nat
  nextIndex : ι → Nat
  repl : List (PeerRepl ι)
  nextUid : Nat
  lastAck : List ι
  learnerRounds : List (ι × Nat)
  leaderContact : Bool
  preVotes : List (PreVoteRound ι)
  waiters : List (Nat × Nat)
  nextChan : Nat
  reads : List (ReadCall ι)
  nextRead : Nat
  adds : List (AddCall ι)
  removes : List ι
  /-- History: entry appended for each Submit channel. -/
  submitted : List (Nat × LogEntry κ)
  /-- History: what each channel was told. -/
  signalled : List (Nat × SubmitResult)
  /-- History: ReadIndex calls that returned. -/
  readsDone : List ReadDone

namespace RaftNode

variable {ι κ : Type} [DecidableEq ι]

/-! ## Replicators and waiters -/

def startReplicators (n : RaftNode ι κ) : List ι → RaftNode ι κ
  | [] => n
  | p :: ps =>
    if n.repl.any (·.peer == p) then startReplicators n ps
    else
      startReplicators
        { n with
          repl := n.repl ++
            [{ peer := p, term := n.currentTerm, uid := n.nextUid, inflight := 0
               probing := true, epoch := 0, hbDue := false, snapshotting := false }]
          nextUid := n.nextUid + 1 } ps

variable (n : RaftNode ι κ)

/-- Make the replicators match role and configuration: one per peer for the
current term on a leader, none otherwise. -/
def syncReplicators : RaftNode ι κ :=
  if n.role = .leader then
    startReplicators
      { n with
        repl := n.repl.filter (fun pr => pr.peer ∈ n.peers ∧ pr.term = n.currentTerm) } n.peers
  else { n with repl := [] }

def failWaiters (r : SubmitResult) : RaftNode ι κ :=
  { n with
    signalled := n.waiters.map (fun w => (w.2, r)) ++ n.signalled
    waiters := [] }

/-- Take over a changed core.  When the term rose, every commit waiter is told
that leadership was lost; a node that is not leader runs no replicators. -/
def withCore (c : NodeCore ι κ) : RaftNode ι κ :=
  let n' : RaftNode ι κ :=
    { n with toNodeCore := c, repl := if c.role = .leader then n.repl else [] }
  if n.currentTerm < c.currentTerm then n'.failWaiters .notLeader else n'

/-! ## Role changes -/

def becomeFollower (n : RaftNode ι κ) (term : Nat) (o : ReplaceOutcome) : RaftNode ι κ :=
  n.withCore (n.toNodeCore.becomeFollower term o)

/-- Become leader: reset the leader state, append the no-op and start the
replicators. -/
def becomeLeader [CommandCodec ι κ] (n : RaftNode ι κ) : RaftNode ι κ :=
  ({ n with
      toNodeCore := n.toNodeCore.becomeLeader
      nextIndex := fun p => if p ∈ n.peers then n.lastLogIndex + 1 else n.nextIndex p
      lastAck := []
      learnerRounds := [] } : RaftNode ι κ).syncReplicators

/-! ## Client commands -/

/-- Append entries as leader with one commit waiter each.  When the store refuses
the records the append is undone: nobody has seen it. -/
def appendEntries (entries : List (LogEntry κ)) : RaftNode ι κ × Bool :=
  match n.toNodeCore.leaderAppend entries with
  | some c =>
    ({ n with
        toNodeCore := c
        waiters := n.waiters ++ entries.mapIdx (fun i e => (e.index, n.nextChan + i))
        submitted := entries.mapIdx (fun i e => (n.nextChan + i, e)) ++ n.submitted
        nextChan := n.nextChan + entries.length }, true)
  | none =>
    ({ n with
        waiters := n.waiters.filter (fun w => w.1 ∉ entries.map LogEntry.index)
        nextChan := n.nextChan + entries.length }, false)

def flushBatch (batch : List κ) : RaftNode ι κ :=
  if n.role ≠ .leader then n
  else (n.appendEntries (batch.mapIdx (n.toNodeCore.newEntry entryNormal))).1

def removeWaiter (idx chan : Nat) : RaftNode ι κ :=
  { n with waiters := n.waiters.filter (· ≠ (idx, chan)) }

/-! ## The syncer and the applier -/

variable [CommandCodec ι κ]

/-- The last critical section of a sync.  A leader that failed to persist fails
the commit waiters it cannot vouch for. -/
def syncFinish (n : RaftNode ι κ) (idx term : Nat) (result : Option Bool) :
    RaftNode ι κ × List (AppendRequest ι κ × AppendEntriesReply) :=
  let (c, replies) := n.toNodeCore.syncFinish idx term result
  let n' : RaftNode ι κ := { n with toNodeCore := c }
  if result = some false ∧ n.role = .leader then
    ({ n' with
        signalled := (n.waiters.filter (fun w => n.durableIndex < w.1)).map
          (fun w => (w.2, SubmitResult.persistError)) ++ n.signalled
        waiters := n.waiters.filter (fun w => w.1 ≤ n.durableIndex) }, replies)
  else (n', replies)

/-- Finish one applied entry: advance, wake its waiters, and run the hook of a
configuration entry. -/
def finishApplied (n : RaftNode ι κ) : RaftNode ι κ :=
  match n.applying with
  | [] => n
  | e :: _ =>
    let n' : RaftNode ι κ :=
      { n with
        toNodeCore := n.toNodeCore.finishApplied
        signalled := (n.waiters.filter (·.1 = e.index)).map (fun w => (w.2, SubmitResult.ok)) ++
          n.signalled
        waiters := n.waiters.filter (·.1 ≠ e.index) }
    -- the hook demoted a leader that committed its own removal
    if n.role = .leader ∧ n'.role ≠ .leader then
      { n'.failWaiters .notLeader with repl := [] }
    else n'

end RaftNode

end VeltrixDB.Consensus
