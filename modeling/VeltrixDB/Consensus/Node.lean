import VeltrixDB.Consensus.Messages
import VeltrixDB.Consensus.Store
import Mathlib.Logic.Function.Basic

/-!
# The core of a Raft node

The part of `RaftNode` (`consensus/raft.go`) that the safety of the
replicated log rests on: persistent state and its store, snapshot and
configuration bookkeeping, votes, match indices, and the positions of the
node's background goroutines.  Every function is the body of a critical
section of the node's mutex, or a part of one.

Main definitions:

- `NodeCore`: the record.
- `maybeAdvanceCommit`, `markDurable` and `rewriteLog`.
- `becomeFollower`, `acceptTerm`, `handleRequestVote`,
  `campaign`, `countVote` and `becomeLeader`.
-/

namespace VeltrixDB.Consensus

/-! ## Background work -/

/-- Where the syncer goroutine is inside `syncOnce`. -/
inductive SyncPhase where
  | idle
  | captured (idx term : Nat)
  /-- The queue was written; `covered` records await the fsync. -/
  | written (idx term covered gen : Nat)
  | flushed (idx term : Nat) (result : Option Bool)
deriving DecidableEq, Repr

/-- Where the snapshot capture goroutine is. -/
inductive CapturePhase (ι : Type) where
  | idle
  | fenced (m : SnapshotMeta ι)
  | installed (m : SnapshotMeta ι)
deriving DecidableEq, Repr

inductive InstallStage where
  | verified
  | renamed
  | logReplaced
deriving DecidableEq, Repr

/-- What the state machine recorded as applied, with its durable data. -/
structure AppliedIndexState where
  index : Nat
  term : Nat
  restoring : Bool
deriving DecidableEq, Repr

inductive RaftRole where
  | follower
  | candidate
  | leader
deriving DecidableEq, Repr

/-! ## The record -/

/-- The part of a node that the safety of the replicated log rests on. -/
structure NodeCore (ι κ : Type) where
  id : ι
  boot : Configuration ι
  batchSM : Bool
  appliedSM : Bool
  stopped : Bool
  currentTerm : Nat
  votedFor : Option ι
  log : List (LogEntry κ)
  store : LogStore ι κ
  durableIndex : Nat
  lastIncludedIndex : Nat
  lastIncludedTerm : Nat
  snapFile : Option (SnapshotMeta ι)
  config : Configuration ι
  configIndex : Nat
  baseConfig : Configuration ι
  baseConfigIndex : Nat
  commitIndex : Nat
  lastApplied : Nat
  role : RaftRole
  matchIndex : ι → Nat
  votes : List ι
  awaiting : List ι
  needed : Nat
  aeWaiters : List (AeWaiter ι κ)
  sync : SyncPhase
  gathered : List (LogEntry κ)
  applying : List (LogEntry κ)
  capture : CapturePhase ι
  recv : Option (SnapshotRequest ι × Option Bool)
  install : Option (SnapshotMeta ι × InstallStage)
  records : List AppliedIndexState
  /-- History: votes granted, as (term, candidate). -/
  granted : List (Nat × ι)
  /-- History: terms in which the node became leader. -/
  led : List Nat
  /-- History: entries handed to the state machine, newest first. -/
  applied : List (LogEntry κ)
  /-- History: entries marked committed as leader, with the leader's term. -/
  marked : List (Nat × LogEntry κ)
  /-- History: configurations appended as leader, with the replaced ones. -/
  proposed : List (Configuration ι × Configuration ι)

namespace NodeCore

variable {ι κ : Type} [DecidableEq ι]

/-! ## The log -/

variable (n : NodeCore ι κ)

/-- Index of the first retained entry, one past the snapshot if there is none. -/
def logFirstIndex : Nat :=
  match n.log.head? with
  | none => n.lastIncludedIndex + 1
  | some e => e.index

def lastLogIndex : Nat :=
  match n.log.getLast? with
  | none => n.lastIncludedIndex
  | some e => e.index

def lastLogTerm : Nat :=
  match n.log.getLast? with
  | none => n.lastIncludedTerm
  | some e => e.term

def entryAt (idx : Nat) : Option (LogEntry κ) :=
  match n.log.head? with
  | none => none
  | some e => if idx < e.index ∨ n.lastLogIndex < idx then none else n.log[idx - e.index]?

/-- Term of the entry at an index, of the snapshot for the virtual log head, 0
if the index is 0 or out of bounds. -/
def logTerm (idx : Nat) : Nat :=
  if idx = 0 then 0
  else if idx = n.lastIncludedIndex then n.lastIncludedTerm
  else ((n.entryAt idx).map LogEntry.term).getD 0

def entriesFrom (idx : Nat) : List (LogEntry κ) :=
  match n.log.head? with
  | none => []
  | some e => if n.lastLogIndex < idx then [] else n.log.drop (idx - e.index)

def logUpToDate (lastTerm lastIdx : Nat) : Bool :=
  if lastTerm ≠ n.lastLogTerm then n.lastLogTerm < lastTerm else n.lastLogIndex ≤ lastIdx

/-! ## Members -/

def peers : List ι :=
  n.config.members.filter (· ≠ n.id)

def voterPeers : List ι :=
  n.config.servers.filter (· ≠ n.id)

def removed : Bool :=
  !n.config.isMember n.id

/-! ## Commit and durability -/

/-- How many voters hold index `i`: the leader counts itself only up to its
durable index. -/
def replicas (i : Nat) : Nat :=
  (n.config.servers.filter
    (fun s => if s = n.id then i ≤ n.durableIndex else i ≤ n.matchIndex s)).length

/-- The scan of `maybeAdvanceCommit`, from `commitIndex + k` down. -/
def commitScan (n : NodeCore ι κ) : Nat → Option Nat
  | 0 => none
  | k + 1 =>
    if n.logTerm (n.commitIndex + (k + 1)) ≠ n.currentTerm then n.commitScan k
    else if n.config.quorumSize ≤ n.replicas (n.commitIndex + (k + 1)) then
      some (n.commitIndex + (k + 1))
    else n.commitScan k

/-- Advance the commit index to the highest entry of the current term that a
quorum of the current configuration holds. -/
def maybeAdvanceCommit : NodeCore ι κ :=
  match n.commitScan (n.lastLogIndex - n.commitIndex) with
  | none => n
  | some i =>
    { n with
      commitIndex := i
      marked := (n.log.filter (fun e => n.commitIndex < e.index ∧ e.index ≤ i)).map
        (fun e => (n.currentTerm, e)) ++ n.marked }

/-- Record that the log through `idx`, an entry of `term`, has been
fsynced, unless the entry there changed its term. -/
def markDurable (idx term : Nat) : NodeCore ι κ :=
  if idx ≤ n.durableIndex ∨ n.logTerm idx ≠ term then n
  else
    let n := { n with durableIndex := idx }
    if n.role = .leader then n.maybeAdvanceCommit else n

/-- Replace the log file by the in-memory log. -/
def rewriteLog (o : LogStore.RewriteOutcome) : NodeCore ι κ :=
  let (store, ok) := n.store.rewrite n.log o
  let n := { n with store := store }
  if ok then
    let n := { n with durableIndex := n.lastLogIndex }
    if n.role = .leader then n.maybeAdvanceCommit else n
  else
    { n with durableIndex := min n.durableIndex n.lastLogIndex }

/-- A rewrite changes the store and how far the log is durable, and may advance the
commit index. -/
theorem exists_rewriteLog (o : LogStore.RewriteOutcome) : ∃ store d i mk,
      n.rewriteLog o = { n with store := store, durableIndex := d, commitIndex := i, marked := mk } ∧
        (store = n.store ∨
          store = { n.store.replaced n.log with failed := false, gen := n.store.gen + 1 } ∨
          store = { n.store.replaced n.log with failed := true } ∨
          (o = .failedRenamed ∧
            store = { n.store with renamed := n.log :: n.store.renamed })) := by
  simp only [rewriteLog]
  rcases n.store.rewrite_cases n.log o with h | h | h | ⟨ho, h⟩
  · rw [h]
    exact ⟨_, _, _, _, rfl, .inl rfl⟩
  · rw [h]
    rw [if_pos rfl]
    split
    · rw [maybeAdvanceCommit]
      split
      · exact ⟨_, _, _, _, rfl, .inr (.inl rfl)⟩
      · exact ⟨_, _, _, _, rfl, .inr (.inl rfl)⟩
    · exact ⟨_, _, _, _, rfl, .inr (.inl rfl)⟩
  · rw [h]
    exact ⟨_, _, _, _, rfl, .inr (.inr (.inl rfl))⟩
  · rw [h]
    exact ⟨_, _, _, _, rfl, .inr (.inr (.inr ⟨ho, rfl⟩))⟩

/-! ## Configuration -/

def setConfig (cfg : Configuration ι) (index : Nat) : NodeCore ι κ :=
  { n with config := cfg, configIndex := index }

section Configured

variable [CommandCodec ι κ]

def configEntry (e : LogEntry κ) : Option (Configuration ι × Nat) :=
  if e.type = entryConfig then
    (CommandCodec.decodeConfiguration e.command).map fun c => (c, e.index)
  else none

def latestConfig (log : List (LogEntry κ)) : Option (Configuration ι × Nat) :=
  log.reverse.findSome? configEntry

/-- Derive the effective configuration: the latest configuration entry of the
retained log, else the base configuration. -/
def refreshConfigFromLog (n : NodeCore ι κ) : NodeCore ι κ :=
  match latestConfig n.log with
  | some (c, i) => n.setConfig c i
  | none => n.setConfig n.baseConfig n.baseConfigIndex

omit [DecidableEq ι] in
/-- Deriving the configuration changes nothing else. -/
theorem exists_refreshConfigFromLog (n : NodeCore ι κ) :
    ∃ cfg i, n.refreshConfigFromLog = { n with config := cfg, configIndex := i } := by
  rw [refreshConfigFromLog]
  split <;> exact ⟨_, _, rfl⟩

def configAt (n : NodeCore ι κ) (idx : Nat) : Configuration ι × Nat :=
  (latestConfig (n.log.takeWhile (fun e => e.index ≤ idx))).getD
    (n.baseConfig, n.baseConfigIndex)

end Configured

/-! ## Terms and votes -/

def persistMeta (o : ReplaceOutcome) : NodeCore ι κ × Bool :=
  let (store, ok) := n.store.saveMeta { currentTerm := n.currentTerm, votedFor := n.votedFor } o
  ({ n with store := store }, ok)

/-- Revert to follower in the given term.  A failure to persist the term is
left to the caller. -/
def becomeFollower (term : Nat) (o : ReplaceOutcome) : NodeCore ι κ :=
  (({ n with currentTerm := term, votedFor := none, role := .follower } :
    NodeCore ι κ).persistMeta o).1

/-- Demote a leader within its term. -/
def stepDown : NodeCore ι κ :=
  { n with role := .follower }

/-- What every RPC does with a newer term: follow it, and refuse to go on when it
cannot be persisted. -/
def acceptTerm (term : Nat) (o o' : ReplaceOutcome) : NodeCore ι κ × Bool :=
  if n.currentTerm < term then (n.becomeFollower term o).persistMeta o' else (n, true)

/-- The common term handling of AppendEntries and of a snapshot RPC. -/
def acceptLeader (term : Nat) (o o' : ReplaceOutcome) : NodeCore ι κ × Bool :=
  if n.stopped ∨ term < n.currentTerm then (n, false)
  else
    let (n, ok) := n.acceptTerm term o o'
    if ok then ({ n with role := .follower }, true) else (n, false)

/-- Vote for a candidate: the vote is on disk before it is granted, and rolled
back in memory when it cannot be written. -/
def castVote (candidate : ι) (o : ReplaceOutcome) : NodeCore ι κ × Bool :=
  let (c, ok) := ({ n with votedFor := some candidate } : NodeCore ι κ).persistMeta o
  if ok then ({ c with granted := (n.currentTerm, candidate) :: c.granted }, true)
  else ({ c with votedFor := n.votedFor }, false)

/-- RequestVote.  `contact` tells whether a leader was heard from within the
election timeout; the outcomes are those of persisting a newer term (twice)
and of persisting the vote. -/
def handleRequestVote (args : RequestVoteArgs ι) (contact : Bool)
    (o o' o'' : ReplaceOutcome) : NodeCore ι κ × RequestVoteReply :=
  let reply : RequestVoteReply := { term := n.currentTerm, voteGranted := false }
  if !n.config.contains args.candidateID then (n, reply)
  else if args.preVote then
    if args.term ≤ n.currentTerm ∨ n.role = .leader ∨ contact ∨
        !n.logUpToDate args.lastLogTerm args.lastLogIndex then (n, reply)
    else (n, { term := args.term, voteGranted := true })
  else if args.term < n.currentTerm then (n, reply)
  else
    let (n, ok) := n.acceptTerm args.term o o'
    if !ok then (n, reply)
    else if (n.votedFor = none ∨ n.votedFor = some args.candidateID) ∧
        n.logUpToDate args.lastLogTerm args.lastLogIndex then
      let (n, granted) := n.castVote args.candidateID o''
      (n, { term := n.currentTerm, voteGranted := granted })
    else (n, { term := n.currentTerm, voteGranted := false })

/-- Campaign in the next term: term and self-vote must be durable before votes
are solicited.  On failure the node stays in the bumped term. -/
def campaign (o : ReplaceOutcome) : NodeCore ι κ × Bool :=
  let (c, ok) := ({ n with currentTerm := n.currentTerm + 1, votedFor := some n.id } :
    NodeCore ι κ).persistMeta o
  if ok then
    ({ c with
        role := .candidate
        votes := [c.id]
        awaiting := c.voterPeers
        needed := c.config.quorumSize
        granted := (c.currentTerm, c.id) :: c.granted }, true)
  else (c, false)

def countVote (source : ι) : NodeCore ι κ :=
  { n with votes := source :: n.votes, awaiting := n.awaiting.erase source }

def noop [CommandCodec ι κ] (n : NodeCore ι κ) : LogEntry κ :=
  { term := n.currentTerm, index := n.lastLogIndex + 1, type := entryNormal
    command := CommandCodec.nilCommand ι }

/-- Become leader: reset the match indices of the peers and append the no-op.  A
store that has failed leaves the no-op in memory only. -/
def becomeLeader [CommandCodec ι κ] (n : NodeCore ι κ) : NodeCore ι κ :=
  { n with
    role := .leader
    matchIndex := fun p => if p ∈ n.peers then 0 else n.matchIndex p
    log := n.log ++ [n.noop]
    led := n.currentTerm :: n.led
    store := (n.store.enqueue [n.noop]).getD n.store }

/-- The entry a leader appends for a command, `i` places after the log
tail. -/
def newEntry (typ : EntryType) (i : Nat) (command : κ) : LogEntry κ :=
  { term := n.currentTerm, index := n.lastLogIndex + 1 + i, type := typ, command := command }

/-- Append entries to a leader's own log, unless the store refuses them. -/
def leaderAppend (entries : List (LogEntry κ)) : Option (NodeCore ι κ) :=
  (n.store.enqueue entries).map fun store =>
    { n with log := n.log ++ entries, store := store }

/-- Install a configuration that was just appended at the log tail. -/
def adoptConfig (next : Configuration ι) (index : Nat) : NodeCore ι κ :=
  { n.setConfig next index with proposed := (n.config, next) :: n.proposed }

/-- Raise the match index of a peer and look for a new commit. -/
def raiseMatch (peer : ι) (index : Nat) : NodeCore ι κ :=
  ({ n with matchIndex := Function.update n.matchIndex peer (max (n.matchIndex peer) index) } :
    NodeCore ι κ).maybeAdvanceCommit

/-! ## What terms and votes leave alone -/

/-- `n'` differs from `n` in term, vote, role and tally only. -/
def VotingOnly (n n' : NodeCore ι κ) : Prop :=
  ∃ term vote saved file role votes awaiting needed granted,
    n' = { n with
      currentTerm := term, votedFor := vote
      store := { n.store with savedMeta := saved, metaFile := file }
      role := role, votes := votes, awaiting := awaiting, needed := needed, granted := granted }

namespace VotingOnly

variable {n n' n'' : NodeCore ι κ}

omit [DecidableEq ι] in
theorem refl (n : NodeCore ι κ) : VotingOnly n n :=
  ⟨_, _, _, _, _, _, _, _, _, rfl⟩

omit [DecidableEq ι] in
theorem trans (h : VotingOnly n n') (h' : VotingOnly n' n'') : VotingOnly n n'' := by
  obtain ⟨_, _, _, _, _, _, _, _, _, rfl⟩ := h
  obtain ⟨_, _, _, _, _, _, _, _, _, rfl⟩ := h'
  exact ⟨_, _, _, _, _, _, _, _, _, rfl⟩

theorem persistMeta (n : NodeCore ι κ) (o : ReplaceOutcome) : VotingOnly n (n.persistMeta o).1 := by
  simp only [NodeCore.persistMeta]
  rcases n.store.saveMeta_cases { currentTerm := n.currentTerm, votedFor := n.votedFor } o with
    h | ⟨-, h⟩ | h | h
  all_goals
    rw [h]
    exact ⟨_, _, _, _, _, _, _, _, _, rfl⟩

theorem becomeFollower (n : NodeCore ι κ) (term : Nat) (o : ReplaceOutcome) :
    VotingOnly n (n.becomeFollower term o) := by
  refine trans ?_ (persistMeta _ o)
  exact ⟨_, _, _, _, _, _, _, _, _, rfl⟩

theorem acceptTerm (n : NodeCore ι κ) (term : Nat) (o o' : ReplaceOutcome) :
    VotingOnly n (n.acceptTerm term o o').1 := by
  rw [NodeCore.acceptTerm]
  split
  · exact trans (becomeFollower n term o) (persistMeta _ o')
  · exact refl n

theorem acceptLeader (n : NodeCore ι κ) (term : Nat) (o o' : ReplaceOutcome) :
    VotingOnly n (n.acceptLeader term o o').1 := by
  simp only [NodeCore.acceptLeader]
  split
  · exact refl n
  · split
    · refine trans (acceptTerm n term o o') ?_
      exact ⟨_, _, _, _, _, _, _, _, _, rfl⟩
    · exact acceptTerm n term o o'

end VotingOnly

end NodeCore

end VeltrixDB.Consensus
