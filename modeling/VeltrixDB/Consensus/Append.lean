import VeltrixDB.Consensus.Node

/-!
# AppendEntries and the syncer

The follower side of replication and the goroutine that makes the log durable,
following `consensus/pipeline.go`.  The syncer's run is cut at the points
where it gives up the node's mutex: capture of the log tail, write of the
queue, fsync, and the final critical section.

Main definitions:

- `appendEntries` and `handleAppendEntries`.
- `syncCapture`, `syncWrite`, `syncFsync` and `syncFinish`.
-/

namespace VeltrixDB.Consensus

namespace NodeCore

variable {ι κ : Type} [DecidableEq ι] [CommandCodec ι κ]

/-! ## Replies -/

variable (n : NodeCore ι κ)

def refusal : AppendEntriesReply :=
  { term := n.currentTerm, success := false, conflictIndex := 0, conflictTerm := 0
    hasMatch := false, matchIndex := 0 }

def success (n : NodeCore ι κ) (matchIndex : Nat) : AppendEntriesReply :=
  { n.refusal with success := true, hasMatch := true, matchIndex := matchIndex }

/-- What is known of a parked reply: decided well, decided badly, or neither. -/
def decideWaiter (w : AeWaiter ι κ) : Option Bool :=
  if n.store.failed ∨ n.stopped ∨ n.currentTerm ≠ w.term then some false
  else if w.target ≤ n.lastIncludedIndex then some true
  else if n.logTerm w.target ≠ w.targetTerm then some false
  else if w.target ≤ n.durableIndex then some true
  else none

def decidedReply (w : AeWaiter ι κ) (ok : Bool) : AppendEntriesReply :=
  if ok then n.success w.target
  else { n.refusal with conflictIndex := n.lastLogIndex + 1 }

/-- Remove every parked reply that can be answered, and answer it. -/
def takeDecidedWaiters : NodeCore ι κ × List (AppendRequest ι κ × AppendEntriesReply) :=
  ({ n with aeWaiters := n.aeWaiters.filter (fun w => (n.decideWaiter w).isNone) },
    n.aeWaiters.filterMap fun w =>
      (n.decideWaiter w).map fun ok => (w.request, n.decidedReply w ok))

/-! ## The syncer -/

def syncCapture : NodeCore ι κ :=
  { n with sync := .captured n.lastLogIndex n.lastLogTerm }

inductive WriteOutcome where
  | done
  /-- The write failed; `kept` records may have reached the file. -/
  | failed (kept : Nat)
deriving DecidableEq, Repr

/-- Write the queue.  A failed write is sticky and drops the queue.  With nothing
written since the last fsync started there is nothing to do. -/
def syncWrite (idx term : Nat) (o : WriteOutcome) : NodeCore ι κ :=
  if n.store.closed then { n with sync := .flushed idx term none }
  else if n.store.failed then { n with sync := .flushed idx term (some false) }
  else if !n.store.dirty then
    { n with sync := .flushed idx term (some true) }
  else
    match o with
    | .done => { n with sync := .written idx term n.store.recs.length n.store.gen }
    | .failed kept =>
      { n with
        store := { n.store with
          recs := n.store.recs.take (max n.store.synced kept)
          failed := true }
        sync := .flushed idx term (some false) }

/-- The fsync ends.  If the file was replaced meanwhile the replacement has
fsynced everything; otherwise a failed fsync is sticky and drops the queue. -/
def syncFsync (idx term covered gen : Nat) (ok : Bool) : NodeCore ι κ :=
  if gen ≠ n.store.gen then { n with sync := .flushed idx term (some true) }
  else if ok then
    { n with
      store := { n.store with
        synced := max n.store.synced (min covered n.store.recs.length) }
      sync := .flushed idx term (some true) }
  else
    { n with
      store := { n.store with
        recs := n.store.recs.take (max n.store.synced covered)
        failed := true }
      sync := .flushed idx term (some false) }

/-- A failed write or fsync: a leader keeps its log, any other node drops the
suffix that is not durable. -/
def onPersistFailure : NodeCore ι κ :=
  if n.role = .leader then n
  else if n.durableIndex < n.lastLogIndex ∧ n.logFirstIndex ≤ n.durableIndex + 1 then
    ({ n with log := n.log.take (n.durableIndex + 1 - n.logFirstIndex) } :
      NodeCore ι κ).refreshConfigFromLog
  else n

/-- The last critical section of a sync. -/
def syncFinish (idx term : Nat) (result : Option Bool) :
    NodeCore ι κ × List (AppendRequest ι κ × AppendEntriesReply) :=
  let n := { n with sync := .idle }
  let n : NodeCore ι κ :=
    match result with
    | none => n
    | some true => n.markDurable idx term
    | some false => n.onPersistFailure
  n.takeDecidedWaiters

/-! ## AppendEntries -/

def truncateAt (localIdx : Nat) : NodeCore ι κ :=
  if localIdx ≤ n.lastLogIndex then
    { n with
      log := n.log.take (localIdx - n.logFirstIndex)
      durableIndex := if localIdx ≤ n.durableIndex then localIdx - 1 else n.durableIndex }
  else n

/-- Truncate the log at an index and append entries from there.  On disk the first
new record supersedes the old suffix.  The store may refuse the records; then
the unpersisted suffix is dropped again and nothing is acknowledged. -/
def supersede (localIdx : Nat) (entries : List (LogEntry κ)) : NodeCore ι κ × Bool :=
  let n' := n.truncateAt localIdx
  match n.store.enqueue entries with
  | some store =>
    (({ n' with log := n'.log ++ entries, store := store } :
      NodeCore ι κ).refreshConfigFromLog, true)
  | none => (n'.refreshConfigFromLog, false)

/-- The append loop: skip entries already in the log, and supersede the rest. -/
def appendLoop (n : NodeCore ι κ) (prev : Nat) : List (LogEntry κ) → NodeCore ι κ × Bool
  | [] => (n, true)
  | e :: es =>
    if prev + 1 ≤ n.lastLogIndex ∧ n.logTerm (prev + 1) = e.term then
      appendLoop n (prev + 1) es
    else n.supersede (prev + 1) (e :: es)

/-- First index of the conflicting term, for the optimised retry. -/
def conflictStart (n : NodeCore ι κ) (term : Nat) : Nat → Nat
  | 0 => 0
  | idx + 1 =>
    if n.logFirstIndex < idx + 1 ∧ n.logTerm idx = term then conflictStart n term idx
    else idx + 1

variable (req : AppendRequest ι κ)

/-- The end of a matched request: commit what it verified, and answer, or wait for
durability. -/
def acknowledge (target : Nat) (heartbeat : Bool) :
    NodeCore ι κ × (AppendEntriesReply ⊕ AeWaiter ι κ) :=
  let n := { n with commitIndex := max n.commitIndex (min req.args.leaderCommit target) }
  if heartbeat ∧ req.args.wantMatch then (n, .inl (n.success (min target n.durableIndex)))
  else if target ≤ n.durableIndex then (n, .inl (n.success target))
  else
    (n, .inr { term := n.currentTerm, target := target, targetTerm := n.logTerm target
               request := req })

def appendFrom (prev : Nat)
    (entries : List (LogEntry κ)) : NodeCore ι κ × (AppendEntriesReply ⊕ AeWaiter ι κ) :=
  let (n, persisted) := n.appendLoop prev entries
  if persisted then n.acknowledge req (prev + entries.length) entries.isEmpty
  else (n, .inl n.refusal)

/-- The consistency check of AppendEntries. -/
def appendChecked (prev prevTerm : Nat)
    (entries : List (LogEntry κ)) : NodeCore ι κ × (AppendEntriesReply ⊕ AeWaiter ι κ) :=
  if 0 < prev ∧ n.lastLogIndex < prev then
    (n, .inl { n.refusal with conflictIndex := n.lastLogIndex + 1 })
  else if 0 < prev ∧ n.logTerm prev ≠ prevTerm then
    (n, .inl { n.refusal with
      conflictTerm := n.logTerm prev
      conflictIndex := n.conflictStart (n.logTerm prev) prev })
  else n.appendFrom req prev entries

/-- The part of AppendEntries after the term checks.  Entries that the snapshot
covers are dropped, and the snapshot is the virtual log head. -/
def appendMatched : NodeCore ι κ × (AppendEntriesReply ⊕ AeWaiter ι κ) :=
  let covered := n.lastIncludedIndex - req.args.prevLogIndex
  if covered = 0 then
    n.appendChecked req req.args.prevLogIndex req.args.prevLogTerm req.args.entries
  else if req.args.entries.length ≤ covered then
    (n, .inl (n.success (req.args.prevLogIndex + req.args.entries.length)))
  else
    n.appendChecked req n.lastIncludedIndex n.lastIncludedTerm (req.args.entries.drop covered)

/-- The synchronous half of AppendEntries: a decided reply, or a waiter to park
until the entries are durable.  The two outcomes are those of the two attempts
to persist a newer term. -/
def appendEntries (o o' : ReplaceOutcome) : NodeCore ι κ × (AppendEntriesReply ⊕ AeWaiter ι κ) :=
  let accepted := n.acceptLeader req.args.term o o'
  if accepted.2 then accepted.1.appendMatched req else (accepted.1, .inl n.refusal)

/-- AppendEntries: answer at once, or park the reply until it is decided. -/
def handleAppendEntries (o o' : ReplaceOutcome) :
    NodeCore ι κ × List (AppendRequest ι κ × AppendEntriesReply) :=
  match n.appendEntries req o o' with
  | (n, .inl reply) =>
    let (n, decided) := n.takeDecidedWaiters
    (n, (req, reply) :: decided)
  | (n, .inr w) =>
    ({ n with aeWaiters := n.aeWaiters ++ [w] } : NodeCore ι κ).takeDecidedWaiters

end NodeCore

end VeltrixDB.Consensus
