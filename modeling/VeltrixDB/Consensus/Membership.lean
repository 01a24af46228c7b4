import VeltrixDB.Consensus.Replication

/-!
# Membership changes

Single-server configuration changes on a leader, following
`consensus/membership.go`.  A call may give up the node's mutex while it
waits for a reachable quorum; it is then parked and resumed later.

Main definitions:

- `addMember` and `resumeAdd`.
- `removeMember` and `resumeRemove`.
- `maybePromoteLearners`.
-/

namespace VeltrixDB.Consensus

namespace Configuration

variable {ι : Type} [DecidableEq ι]

/-- The configuration AddMember appends: a new learner, with the addresses that
are known. -/
def addLearner (c : Configuration ι) (call : AddCall ι) : Configuration ι :=
  let c := { c with learners := c.learners ++ [call.member] }
  let c := call.known.foldl
    (fun c p => if c.isMember p.1 ∧ c.addr p.1 = "" ∧ p.2 ≠ "" then c.setAddr p.1 p.2 else c) c
  if call.addr ≠ "" then c.setAddr call.member call.addr else c

def remove (c : Configuration ι) (id : ι) : Configuration ι where
  servers := removeID c.servers id
  learners := removeID c.learners id
  addrs := c.addrs.filter (fun p => p.1 ≠ id)

def promote (c : Configuration ι) (id : ι) : Configuration ι :=
  { c with servers := c.servers ++ [id], learners := removeID c.learners id }

end Configuration

namespace RaftNode

variable {ι κ : Type} [DecidableEq ι] [CommandCodec ι κ]

/-- Largest encoded configuration, so that it fits a snapshot header. -/
def maxConfigBytes : Nat := (4096 - 4) - 72 - 64

variable (n : RaftNode ι κ)

/-- Preconditions of a change: leader, and no change pending. -/
def beginChange : Bool :=
  n.role == .leader && n.configIndex ≤ n.commitIndex

/-- The leader heard from a majority of the voters of `cfg` recently. -/
def reachableQuorum (cfg : Configuration ι) : Bool :=
  cfg.quorumSize ≤ (cfg.servers.filter (fun s => s = n.id ∨ s ∈ n.lastAck)).length

def proposeConfig (next : Configuration ι) : RaftNode ι κ × Bool :=
  let cmd : κ := CommandCodec.encodeConfiguration next
  if maxConfigBytes < CommandCodec.len ι cmd then (n, false)
  else
    let e := n.toNodeCore.newEntry entryConfig 0 cmd
    let (n', ok) := n.appendEntries [e]
    if ok then
      (({ n' with toNodeCore := n'.toNodeCore.adoptConfig next e.index } :
        RaftNode ι κ).syncReplicators, true)
    else (n', false)

/-- The end of AddMember, with the mutex held since the quorum was reachable. -/
def addNow (call : AddCall ι) : RaftNode ι κ :=
  if n.beginChange then (n.proposeConfig (n.config.addLearner call)).1 else n

/-- AddMember: check, then append at once or wait for a reachable quorum. -/
def addMember (call : AddCall ι) : RaftNode ι κ :=
  if !n.beginChange then n
  else if n.config.isMember call.member then n
  else if n.reachableQuorum n.config then n.addNow call
  else { n with adds := n.adds ++ [call] }

/-- A waiting AddMember looks again.  Only the leadership and the pending change
are checked once more. -/
def resumeAdd (i : Nat) : RaftNode ι κ :=
  match n.adds[i]? with
  | none => n
  | some call =>
    if n.reachableQuorum n.config then
      ({ n with adds := n.adds.eraseIdx i } : RaftNode ι κ).addNow call
    else if n.role ≠ .leader then { n with adds := n.adds.eraseIdx i }
    else n

/-- The end of RemoveMember, with the mutex held since the quorum was reachable. -/
def removeNow (id : ι) : RaftNode ι κ :=
  if n.beginChange ∧ n.config.isMember id then (n.proposeConfig (n.config.remove id)).1 else n

/-- RemoveMember: check, then append at once or wait for a reachable quorum of
the remaining voters. -/
def removeMember (id : ι) : RaftNode ι κ :=
  if !n.beginChange then n
  else if !n.config.isMember id then n
  else if n.config.contains id ∧ n.config.servers.length = 1 then n
  else if n.config.contains id ∧ !n.reachableQuorum (n.config.remove id) then
    { n with removes := n.removes ++ [id] }
  else n.removeNow id

def resumeRemove (i : Nat) : RaftNode ι κ :=
  match n.removes[i]? with
  | none => n
  | some id =>
    if n.reachableQuorum (n.config.remove id) then
      ({ n with removes := n.removes.eraseIdx i } : RaftNode ι κ).removeNow id
    else if n.role ≠ .leader then { n with removes := n.removes.eraseIdx i }
    else n

def giveUpAdd (i : Nat) : RaftNode ι κ :=
  { n with adds := n.adds.eraseIdx i }

def giveUpRemove (i : Nat) : RaftNode ι κ :=
  { n with removes := n.removes.eraseIdx i }

def startRound (id : ι) : RaftNode ι κ :=
  { n with
    learnerRounds := (id, n.lastLogIndex) :: n.learnerRounds.filter (fun p => p.1 ≠ id) }

/-- The loop over the learners: promote the first one that caught up within a
short round and whose promotion keeps a reachable quorum. -/
def promoteLoop (n : RaftNode ι κ) (slow : List ι) : List ι → RaftNode ι κ
  | [] => n
  | id :: ids =>
    if id = n.id then promoteLoop n slow ids
    else
      match n.learnerRounds.lookup id with
      | none => promoteLoop (n.startRound id) slow ids
      | some target =>
        if n.matchIndex id < target then promoteLoop n slow ids
        else if id ∈ slow ∨ !n.reachableQuorum (n.config.promote id) then
          promoteLoop (n.startRound id) slow ids
        else
          let (n', ok) := n.proposeConfig (n.config.promote id)
          if ok then
            { n' with learnerRounds := n'.learnerRounds.filter (fun p => p.1 ≠ id) }
          else n'

/-- Promote one caught-up learner.  `slow` are the learners whose round took
too long. -/
def maybePromoteLearners (slow : List ι) : RaftNode ι κ :=
  if n.role ≠ .leader then n
  else if n.config.learners.isEmpty then { n with learnerRounds := [] }
  else
    let n := { n with learnerRounds := n.learnerRounds.filter (fun p => n.config.isLearner p.1) }
    if n.commitIndex < n.configIndex then n
    else promoteLoop n slow n.config.learners

def heartbeat (slow : List ι) : RaftNode ι κ :=
  if n.role ≠ .leader then n
  else
    ({ n with repl := n.repl.map fun pr => { pr with hbDue := true } } :
      RaftNode ι κ).maybePromoteLearners slow

end RaftNode

end VeltrixDB.Consensus
