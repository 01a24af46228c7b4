import VeltrixDB.Consensus.RaftNode

/-!
# Replicators, elections and reads

The leader side of replication (`consensus/pipeline.go`), elections with
their pre-vote rounds (`consensus/raft.go`) and linearizable reads
(`consensus/read_index.go`).  Functions that send return the messages next
to the new state.

Main definitions:

- `replicate` and `onAppendReply`.
- `handleAppendEntries`, `handleInstallSnapshot` and `restart`.
- `handleRequestVote`, `preVote`, `startElection` and
  `onVoteReply`.
- `readIndex`, `onReadReply`, `confirmRead` and
  `returnRead`.
-/

namespace VeltrixDB.Consensus

open Function

namespace RaftNode

variable {ι κ : Type} [DecidableEq ι] [CommandCodec ι κ]

/-! ## Replicators -/

def maxAppendEntries : Nat := 1024

def maxAppendBytes : Nat := 4 * 2 ^ 20

variable (ι) in
/-- How many entries one AppendEntries takes: at least one, then as many as both
limits allow. -/
def batchLen (n bytes : Nat) : List (LogEntry κ) → Nat
  | [] => n
  | e :: es =>
    let len := CommandCodec.len ι e.command
    if n < maxAppendEntries ∧ (n = 0 ∨ bytes + len ≤ maxAppendBytes) then
      batchLen (n + 1) (bytes + len) es
    else n

variable (n : RaftNode ι κ)

/-- Build an AppendEntries for the entries after `prev`. -/
def appendArgs (prev : Nat) (entries : List (LogEntry κ)) : AppendEntriesArgs ι κ :=
  { term := n.currentTerm, leaderID := n.id, prevLogIndex := prev, prevLogTerm := n.logTerm prev
    entries := entries, leaderCommit := n.commitIndex, wantMatch := true }

variable (pr : PeerRepl ι)

def setRepl : RaftNode ι κ :=
  { n with repl := n.repl.map fun q => if q.uid = pr.uid then pr else q }

/-- The next index to send to a peer: a peer added after the last election
starts at the log tail. -/
def nextFor : Nat :=
  if n.nextIndex pr.peer = 0 ∧ pr.snapshotting = false then n.lastLogIndex + 1
  else n.nextIndex pr.peer

def nextBatch (next : Nat) : List (LogEntry κ) :=
  (n.entriesFrom next).take (batchLen ι 0 0 (n.entriesFrom next))

/-- The send loop of a replicator, at most `fuel` requests. -/
def sendLoop (window : Nat) :
    Nat → RaftNode ι κ → PeerRepl ι → RaftNode ι κ × PeerRepl ι × List (Message ι κ)
  | 0, n, pr => (n, pr, [])
  | fuel + 1, n, pr =>
    let next := n.nextFor pr
    if pr.snapshotting ∨ next ≤ n.lastIncludedIndex ∨ n.lastLogIndex < next ∨
        window ≤ pr.inflight then
      ({ n with nextIndex := update n.nextIndex pr.peer next }, pr, [])
    else
      let r := sendLoop window fuel
        { n with
          nextIndex := update n.nextIndex pr.peer (next + (n.nextBatch next).length) }
        { pr with inflight := pr.inflight + 1 }
      (r.1, r.2.1, .append pr.peer
        { source := n.id, args := n.appendArgs (next - 1) (n.nextBatch next)
          tag := .replicator pr.uid true pr.epoch false } :: r.2.2)

/-- The heartbeat to a peer: at its next index, or at the snapshot while it needs
or receives one. -/
def heartbeatTo : List (Message ι κ) :=
  if pr.snapshotting = false ∧ n.lastIncludedIndex < n.nextIndex pr.peer then
    [.append pr.peer
      { source := n.id, args := n.appendArgs (n.nextIndex pr.peer - 1) []
        tag := .replicator pr.uid false pr.epoch false }]
  else if 0 < n.lastIncludedIndex then
    [.append pr.peer
      { source := n.id, args := n.appendArgs n.lastIncludedIndex []
        tag := .replicator pr.uid false pr.epoch true }]
  else []

/-- Requests allowed in flight: one while probing. -/
def sendWindow : Nat :=
  if pr.probing then 1 else n.pipelineWindow

/-- Send whatever the window allows, or a heartbeat if one is due and nothing
else went out. -/
def replicate (uid : Nat) : RaftNode ι κ × List (Message ι κ) :=
  match n.repl.find? (·.uid = uid) with
  | none => (n, [])
  | some pr =>
    if n.role ≠ .leader ∨ n.currentTerm ≠ pr.term then (n, [])
    else
      let r := sendLoop (n.sendWindow pr) (n.sendWindow pr + 1) n { pr with hbDue := false }
      (r.1.setRepl r.2.1,
        if pr.hbDue ∧ r.2.2.isEmpty then r.1.heartbeatTo r.2.1 else r.2.2)

/-- Start a snapshot transfer to a peer whose next entry was compacted, once its
pipeline has drained: the transfer sends the file that is on disk now. -/
def sendSnapshot (uid : Nat) (legacy : Bool) : RaftNode ι κ × List (Message ι κ) :=
  match n.repl.find? (·.uid = uid), n.snapFile with
  | some pr, some m =>
    if n.role ≠ .leader ∨ n.currentTerm ≠ pr.term ∨ pr.inflight ≠ 0 ∨ pr.snapshotting ∨
        n.lastIncludedIndex < n.nextIndex pr.peer then (n, [])
    else
      (n.setRepl { pr with snapshotting := true },
        [.snapshot pr.peer { source := n.id, term := pr.term, header := m, uid := uid
                             legacy := legacy }])
  | _, _ => (n, [])

/-- A transfer ends, however: the pipeline restarts in probing mode. -/
def endTransfer (uid : Nat) : RaftNode ι κ :=
  match n.repl.find? (·.uid = uid) with
  | none => n
  | some pr =>
    n.setRepl { pr with snapshotting := false, epoch := pr.epoch + 1, probing := true }

/-- An answer to a snapshot transfer: a confirmed or single-shot transfer raises
the match index. -/
def onSnapshotReply (source : ι) (req : SnapshotRequest ι) (term : Nat)
    (status : SnapshotStatus) (o : ReplaceOutcome) : RaftNode ι κ :=
  if n.currentTerm < term then n.becomeFollower term o
  else
    let installed := req.legacy ∨ status = .installed
    let n : RaftNode ι κ :=
      if installed ∧ n.role = .leader ∧ n.currentTerm = req.term ∧ n.stopped = false then
        { n with
          toNodeCore := n.toNodeCore.raiseMatch source req.header.index
          nextIndex := update n.nextIndex source
            (max (n.nextIndex source) (req.header.index + 1)) }
      else n
    if installed ∨ status = .failed then n.endTransfer req.uid else n

def noteAck (peer : ι) : RaftNode ι κ :=
  { n with lastAck := if peer ∈ n.lastAck then n.lastAck else peer :: n.lastAck }

/-- A transport error: resend from the failed batch, once per epoch. -/
def onAppendError (req : AppendRequest ι κ) : RaftNode ι κ :=
  match req.tag with
  | .readIndex _ => n
  | .replicator uid entries epoch _ =>
    match n.repl.find? (·.uid = uid) with
    | none => n
    | some pr =>
      let pr := if entries then { pr with inflight := pr.inflight - 1 } else pr
      if entries ∧ epoch = pr.epoch then
        { n.setRepl { pr with epoch := pr.epoch + 1, probing := true } with
          nextIndex := update n.nextIndex pr.peer
            (min (req.args.prevLogIndex + 1) (n.nextIndex pr.peer)) }
      else n.setRepl pr

def onAppendSuccess (req : AppendRequest ι κ)
    (reply : AppendEntriesReply) (entries : Bool) (epoch : Nat) : RaftNode ι κ :=
  let n : RaftNode ι κ :=
    if n.matchIndex pr.peer < req.matched reply then
      { n with toNodeCore := n.toNodeCore.raiseMatch pr.peer (req.matched reply) }
    else n
  let n : RaftNode ι κ :=
    if n.nextIndex pr.peer ≤ req.matched reply then
      { n with nextIndex := update n.nextIndex pr.peer (req.matched reply + 1) }
    else n
  n.setRepl { pr with probing := pr.probing && !(entries && epoch = pr.epoch) }

/-- A rejection: back off with the conflict hint, unless the request was sent
before the last pipeline reset. -/
def onAppendReject (req : AppendRequest ι κ)
    (reply : AppendEntriesReply) (epoch : Nat) : RaftNode ι κ :=
  if epoch ≠ pr.epoch then n.setRepl pr
  else
    let next := if 0 < reply.conflictIndex then reply.conflictIndex else req.args.prevLogIndex
    { n.setRepl { pr with epoch := pr.epoch + 1, probing := true } with
      nextIndex := update n.nextIndex pr.peer (max next 1) }

/-- One AppendEntries reply to a replicator.  The request went to the
replicator's peer, so the reply comes from it. -/
def onAppendReply (source : ι) (req : AppendRequest ι κ)
    (reply : AppendEntriesReply) (o : ReplaceOutcome) : RaftNode ι κ :=
  match req.tag with
  | .readIndex _ => n
  | .replicator uid entries epoch snapHB =>
    if n.currentTerm < reply.term then n.becomeFollower reply.term o
    else
      let n := if n.role = .leader ∧ reply.term = n.currentTerm then n.noteAck source else n
      match n.repl.find? (fun pr => pr.uid = uid ∧ pr.peer = source) with
      | none => n
      | some pr =>
        let pr := if entries then { pr with inflight := pr.inflight - 1 } else pr
        if snapHB ∨ n.role ≠ .leader ∨ n.currentTerm ≠ req.args.term then n.setRepl pr
        else if reply.success then n.onAppendSuccess pr req reply entries epoch
        else n.onAppendReject pr req reply epoch

/-! ## Follower side -/

/-- AppendEntries.  A leader contact is noted unless the request was refused for
its term. -/
def handleAppendEntries (n : RaftNode ι κ) (req : AppendRequest ι κ) (o o' : ReplaceOutcome) :
    RaftNode ι κ × List (AppendRequest ι κ × AppendEntriesReply) :=
  let (c, replies) := n.toNodeCore.handleAppendEntries req o o'
  ({ n.withCore c with
      leaderContact := n.leaderContact || (n.toNodeCore.acceptLeader req.args.term o o').2 },
    replies)

def handleInstallSnapshot (n : RaftNode ι κ) (req : SnapshotRequest ι) (o o' : ReplaceOutcome) :
    RaftNode ι κ × Option (Nat × SnapshotStatus) :=
  let (c, reply) := n.toNodeCore.handleInstallSnapshot req o o'
  ({ n.withCore c with
      leaderContact := n.leaderContact || (n.toNodeCore.acceptLeader req.term o o').2 }, reply)

/-- Stage 2 of an install, with the replicators brought in line with the
configuration. -/
def installLog (n : RaftNode ι κ) (o : LogStore.RewriteOutcome) :
    RaftNode ι κ × List (AppendRequest ι κ × AppendEntriesReply) :=
  let (c, replies) := n.toNodeCore.installLog o
  (({ n with toNodeCore := c } : RaftNode ι κ).syncReplicators, replies)

def restart (n : RaftNode ι κ) (f : LogStore.CrashedLog) (a : Option AppliedIndexState)
    (o : ReplaceOutcome) (rw : LogStore.RewriteOutcome) : Option (RaftNode ι κ) :=
  (n.toNodeCore.crashRestart f a o rw).map fun c =>
    { n with
      toNodeCore := c
      nextIndex := fun _ => 0
      repl := []
      lastAck := []
      learnerRounds := []
      leaderContact := false
      preVotes := []
      waiters := []
      reads := []
      adds := []
      removes := [] }

/-! ## Elections -/

def handleRequestVote (n : RaftNode ι κ) (args : RequestVoteArgs ι) (o o' o'' : ReplaceOutcome) :
    RaftNode ι κ × RequestVoteReply :=
  let (c, reply) := n.toNodeCore.handleRequestVote args n.leaderContact o o' o''
  (n.withCore c, reply)

def preVote (n : RaftNode ι κ) : RaftNode ι κ × List (Message ι κ) :=
  if n.removed ∨ !n.config.contains n.id ∨ n.role = .leader then (n, [])
  else
    let round : PreVoteRound ι :=
      { myTerm := n.currentTerm, needed := n.config.quorumSize, granted := 1
        awaiting := n.voterPeers, ready := n.config.quorumSize ≤ 1 }
    ({ n with preVotes := n.preVotes ++ [round] },
      if n.config.quorumSize ≤ 1 then []
      else n.voterPeers.map fun p => .requestVote p
        { term := n.currentTerm + 1, candidateID := n.id, lastLogIndex := n.lastLogIndex
          lastLogTerm := n.lastLogTerm, preVote := true })

/-- An answer to a pre-vote of round `i`. -/
def onPreVoteReply (i : Nat) (source : ι) (reply : RequestVoteReply)
    (o : ReplaceOutcome) : RaftNode ι κ :=
  match n.preVotes[i]? with
  | none => n
  | some r =>
    if source ∈ r.awaiting then
      let r := { r with awaiting := r.awaiting.erase source }
      if reply.voteGranted then
        { n with preVotes := n.preVotes.set i { r with granted := r.granted + 1 } }
      else
        let n := { n with preVotes := n.preVotes.set i r }
        if n.currentTerm < reply.term then n.becomeFollower reply.term o else n
    else n

/-- The re-check after a won pre-vote: still the same term, and no leader was
heard from meanwhile. -/
def preVoteDone (i : Nat) : RaftNode ι κ :=
  match n.preVotes[i]? with
  | none => n
  | some r =>
    if r.needed ≤ r.granted ∧ n.currentTerm = r.myTerm ∧ n.role ≠ .leader ∧
        n.leaderContact = false then
      { n with preVotes := n.preVotes.set i { r with ready := true } }
    else n

/-- The election proper, after a won pre-vote round. -/
def startElection (i : Nat) (o : ReplaceOutcome) : RaftNode ι κ × List (Message ι κ) :=
  match n.preVotes[i]? with
  | none => (n, [])
  | some r =>
    if !r.ready then (n, [])
    else
      let n := { n with preVotes := n.preVotes.eraseIdx i }
      if n.removed ∨ !n.config.contains n.id ∨ n.role = .leader then (n, [])
      else
        let (c, ok) := n.toNodeCore.campaign o
        let n : RaftNode ι κ := { n with toNodeCore := c }
        -- not durable: stay in the bumped term without soliciting votes
        if !ok then (n, [])
        else if n.needed ≤ 1 then (n.becomeLeader, [])
        else
          (n, n.voterPeers.map fun p => .requestVote p
            { term := n.currentTerm, candidateID := n.id, lastLogIndex := n.lastLogIndex
              lastLogTerm := n.lastLogTerm, preVote := false })

/-- An answer to a RequestVote of the election in `args.term`. -/
def onVoteReply (source : ι) (args : RequestVoteArgs ι)
    (reply : RequestVoteReply) (o : ReplaceOutcome) : RaftNode ι κ :=
  if n.currentTerm < reply.term then n.becomeFollower reply.term o
  else if reply.voteGranted ∧ n.currentTerm = args.term ∧ n.role = .candidate ∧
      source ∈ n.awaiting then
    let n : RaftNode ι κ := { n with toNodeCore := n.toNodeCore.countVote source }
    if n.needed ≤ n.votes.length then n.becomeLeader else n
  else n

/-! ## Linearizable reads -/

/-- Start a ReadIndex call: capture the fence and send a heartbeat round. -/
def readIndex (n : RaftNode ι κ) (ackedBefore : List Nat) : RaftNode ι κ × List (Message ι κ) :=
  if n.role ≠ .leader then (n, [])
  else if n.commitIndex = 0 ∨ n.logTerm n.commitIndex ≠ n.currentTerm then (n, [])
  else
    let quorum := n.config.quorumSize
    let selfVote := n.config.contains n.id
    let single : Bool := quorum ≤ 1 ∧ selfVote
    let call : ReadCall ι :=
      { call := n.nextRead, term := n.currentTerm, readIdx := n.commitIndex, quorum := quorum
        selfVote := selfVote, acks := [], awaiting := if single then [] else n.voterPeers
        confirmed := single, ackedBefore := ackedBefore }
    ({ n with reads := call :: n.reads, nextRead := n.nextRead + 1 },
      if single then []
      else n.voterPeers.map fun p => .append p
        { source := n.id
          args := { term := n.currentTerm, leaderID := n.id, prevLogIndex := n.lastLogIndex
                    prevLogTerm := n.logTerm n.lastLogIndex, entries := []
                    leaderCommit := n.commitIndex, wantMatch := true }
          tag := .readIndex n.nextRead })

/-- A reply to a ReadIndex heartbeat: any reply whose term does not exceed the
captured one acknowledges the leadership. -/
def onReadReply (source : ι) (call : Nat) (reply : AppendEntriesReply)
    (o : ReplaceOutcome) : RaftNode ι κ :=
  match n.reads.find? (·.call = call) with
  | none => n
  | some r =>
    if r.term < reply.term then
      if n.currentTerm < reply.term then n.becomeFollower reply.term o else n
    else if source ∈ r.awaiting then
      { n with reads := n.reads.map fun q =>
          if q.call = call then
            { q with acks := source :: q.acks, awaiting := q.awaiting.erase source }
          else q }
    else n

/-- The round is over: the node must still lead in the captured term. -/
def confirmRead (call : Nat) : RaftNode ι κ :=
  match n.reads.find? (·.call = call) with
  | none => n
  | some r =>
    if r.quorum ≤ r.acks.length + (if r.selfVote then 1 else 0) then
      if n.role = .leader ∧ n.currentTerm = r.term then
        { n with reads := n.reads.map fun q => if q.call = call then { q with confirmed := true } else q }
      else { n with reads := n.reads.filter (·.call ≠ call) }
    else n

def returnRead (call : Nat) : RaftNode ι κ :=
  match n.reads.find? (·.call = call) with
  | none => n
  | some r =>
    if r.confirmed ∧ r.readIdx ≤ n.lastApplied then
      { n with
        reads := n.reads.filter (·.call ≠ call)
        readsDone := { readIdx := r.readIdx, lastApplied := n.lastApplied
                       ackedBefore := r.ackedBefore } :: n.readsDone }
    else n

end RaftNode

end VeltrixDB.Consensus
