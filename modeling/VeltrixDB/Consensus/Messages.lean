import VeltrixDB.Consensus.Configuration

/-!
# Messages between nodes

Arguments and replies of the RPCs of `consensus/raft.go` and
`consensus/snapshot.go`, and the message type of the network.  A request
carries what its sender remembers until the reply.
-/

namespace VeltrixDB.Consensus

structure RequestVoteArgs (ι : Type) where
  term : Nat
  candidateID : ι
  lastLogIndex : Nat
  lastLogTerm : Nat
  preVote : Bool
deriving DecidableEq, Repr

structure RequestVoteReply where
  term : Nat
  voteGranted : Bool
deriving DecidableEq, Repr

structure AppendEntriesArgs (ι κ : Type) where
  term : Nat
  leaderID : ι
  prevLogIndex : Nat
  prevLogTerm : Nat
  entries : List (LogEntry κ)
  leaderCommit : Nat
  wantMatch : Bool
deriving DecidableEq, Repr

structure AppendEntriesReply where
  term : Nat
  success : Bool
  conflictIndex : Nat
  conflictTerm : Nat
  hasMatch : Bool
  matchIndex : Nat
deriving DecidableEq, Repr

/-- Why an AppendEntries was sent: by a replicator, with what it must remember
until the reply, or by the heartbeat round of a ReadIndex call. -/
inductive SendTag where
  /-- A replicator's request: its identity, whether it carries entries, the
  pipeline epoch, and whether it is a keep-alive during a snapshot transfer. -/
  | replicator (uid : Nat) (entries : Bool) (epoch : Nat) (snapHB : Bool)
  | readIndex (call : Nat)
deriving DecidableEq, Repr

/-- An AppendEntries request as the follower has to answer it. -/
structure AppendRequest (ι κ : Type) where
  source : ι
  args : AppendEntriesArgs ι κ
  tag : SendTag
deriving DecidableEq, Repr

/-- The index a successful reply vouches for; a follower that sets no match index
acknowledges the whole request. -/
def AppendRequest.matched {ι κ : Type} (req : AppendRequest ι κ) (reply : AppendEntriesReply) :
    Nat :=
  if reply.hasMatch then reply.matchIndex else req.args.prevLogIndex + req.args.entries.length

/-- An accepted AppendEntries whose reply waits for durability. -/
structure AeWaiter (ι κ : Type) where
  term : Nat
  target : Nat
  targetTerm : Nat
  request : AppendRequest ι κ
deriving DecidableEq, Repr

structure SnapshotMeta (ι : Type) where
  index : Nat
  term : Nat
  config : Configuration ι
  configIndex : Nat
  snapshotID : Nat
deriving DecidableEq, Repr

inductive SnapshotStatus where
  | refused
  | installing
  | installed
  | busy
  | failed
deriving DecidableEq, Repr

/-- A snapshot transfer: sender, its term, the header, the replicator it serves,
and whether the single-shot wire format is used. -/
structure SnapshotRequest (ι : Type) where
  source : ι
  term : Nat
  header : SnapshotMeta ι
  uid : Nat
  legacy : Bool
deriving DecidableEq, Repr

inductive Message (ι κ : Type) where
  | requestVote (dest : ι) (args : RequestVoteArgs ι)
  | voteReply (source : ι) (args : RequestVoteArgs ι) (reply : RequestVoteReply)
  | append (dest : ι) (req : AppendRequest ι κ)
  | appendReply (source : ι) (req : AppendRequest ι κ) (reply : AppendEntriesReply)
  | snapshot (dest : ι) (req : SnapshotRequest ι)
  | snapshotReply (source : ι) (req : SnapshotRequest ι) (term : Nat) (status : SnapshotStatus)
deriving DecidableEq, Repr

end VeltrixDB.Consensus
