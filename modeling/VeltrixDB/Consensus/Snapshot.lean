import VeltrixDB.Consensus.Append

/-!
# Snapshots, restarts and the applier

Capture and install of snapshots (`consensus/snapshot.go`), the startup path
(`loadSnapshot`, `loadState` and `trustApplied`) and the applier
(`consensus/raft.go`).  An install is cut at its stages, the points at
which a crash can separate its effects.

Main definitions:

- `captureFence`, `captureInstall` and `captureCompact`.
- `installRename`, `installLog` and `installRestored`.
- `loadState` and `restart`.
- `gather`, `applySome` and `finishApplied`.
-/

namespace VeltrixDB.Consensus

namespace NodeCore

variable {ι κ : Type} [DecidableEq ι] [CommandCodec ι κ]

/-! ## Capture -/

variable (n : NodeCore ι κ)

def smFree : Bool :=
  n.gathered.isEmpty && n.applying.isEmpty && n.install.isNone

def captureFence (snapshotID : Nat) : NodeCore ι κ :=
  if n.stopped = false ∧ n.smFree ∧ n.capture = .idle ∧ n.lastIncludedIndex < n.lastApplied ∧
      n.logTerm n.lastApplied ≠ 0 then
    { n with
      capture := .fenced
        { index := n.lastApplied, term := n.logTerm n.lastApplied
          config := (n.configAt n.lastApplied).1, configIndex := (n.configAt n.lastApplied).2
          snapshotID := snapshotID } }
  else n

/-- Put the captured file in place, or fail. -/
def captureInstall (o : ReplaceOutcome) : NodeCore ι κ :=
  match n.capture with
  | .fenced m =>
    match o with
    | .done => { n with snapFile := some m, capture := .installed m }
    | .failed => { n with capture := .idle }
    | .failedRenamed => { n with snapFile := some m, capture := .idle }
  | _ => n

/-- Drop the log prefix a snapshot covers, and take over its position. -/
def compactTo (m : SnapshotMeta ι) : NodeCore ι κ :=
  { n with
    log := if n.logFirstIndex ≤ m.index then n.log.drop (m.index - n.logFirstIndex + 1) else n.log
    lastIncludedIndex := m.index
    lastIncludedTerm := m.term
    baseConfig := m.config
    baseConfigIndex := m.configIndex }

/-- The end of a capture: drop the covered log prefix and rewrite the log file. -/
def captureCompact (o : LogStore.RewriteOutcome) : NodeCore ι κ :=
  match n.capture with
  | .installed m =>
    let n := { n with capture := .idle }
    if n.lastIncludedIndex < m.index then (n.compactTo m).rewriteLog o else n
  | _ => n

/-! ## Receive and install -/

/-- The node's state includes the index of a snapshot. -/
def covers (index : Nat) : Bool :=
  index ≤ n.lastIncludedIndex ∨ index ≤ n.lastApplied

variable (req : SnapshotRequest ι)

/-- Take a transfer for installation.  A single-shot transfer is answered once its
install ended. -/
def takeTransfer : NodeCore ι κ × Option SnapshotStatus :=
  ({ n with recv := some (req, none) }, if req.legacy then none else some .installing)

/-- An accepted transfer: repeat what is known of it, or take it.  While another
install runs, a single-shot transfer waits. -/
def receiveSnapshot : NodeCore ι κ × Option SnapshotStatus :=
  match n.recv with
  | some (st, result) =>
    if st.header = req.header ∧ st.legacy = false ∧ req.legacy = false then
      match result with
      | none => (n, some .installing)
      | some true => (n, some .installed)
      | some false => ({ n with recv := none }, some .failed)
    else if n.covers req.header.index then (n, some .installed)
    else if result.isNone then (n, if req.legacy then none else some .busy)
    else n.takeTransfer req
  | none => if n.covers req.header.index then (n, some .installed) else n.takeTransfer req

/-- A snapshot transfer, whole: accept it for installation, or say why not. -/
def handleInstallSnapshot (o o' : ReplaceOutcome) : NodeCore ι κ × Option (Nat × SnapshotStatus) :=
  let accepted := n.acceptLeader req.term o o'
  if accepted.2 then
    let (n, status) := accepted.1.receiveSnapshot req
    (n, status.map fun s => (n.currentTerm, s))
  else (accepted.1, some (n.currentTerm, .refused))

/-- The install of a transfer ended: a chunked one is polled for the result, a
single-shot one is answered now. -/
def installEnd (ok : Bool) : NodeCore ι κ × List (Message ι κ) :=
  if req.legacy then
    ({ n with install := none, recv := none },
      [.snapshotReply n.id req n.currentTerm (if ok then .installed else .failed)])
  else ({ n with install := none, recv := some (req, some ok) }, [])

/-- The install of a received file begins: it failed verification, its index is
already covered, or the install takes the snapshot locks. -/
def installBegin (valid : Bool) : NodeCore ι κ × List (Message ι κ) :=
  match n.recv with
  | some (req, none) =>
    if n.install.isSome then (n, [])
    else if !valid then n.installEnd req false
    else if n.stopped = false ∧ n.smFree ∧ n.capture = .idle then
      if n.covers req.header.index then n.installEnd req true
      else ({ n with install := some (req.header, .verified) }, [])
    else (n, [])
  | _ => (n, [])

/-- Stage 1, the commit point: the file is renamed into place. -/
def installRename (o : ReplaceOutcome) : NodeCore ι κ × List (Message ι κ) :=
  match n.recv, n.install with
  | some (req, _), some (m, .verified) =>
    match o with
    | .done => ({ n with snapFile := some m, install := some (m, .renamed) }, [])
    | .failed => n.installEnd req false
    | .failedRenamed => ({ n with snapFile := some m } : NodeCore ι κ).installEnd req false
  | _, _ => (n, [])

/-- The log suffix after a snapshot that it agrees with, or nothing. -/
def keptLog (m : SnapshotMeta ι) : List (LogEntry κ) :=
  if m.index < n.lastLogIndex ∧ n.logTerm m.index = m.term then n.entriesFrom (m.index + 1)
  else []

/-- Stage 2 on a node: keep the log suffix that agrees with the snapshot, or
discard the log; take over position and configuration. -/
def replaceLog (m : SnapshotMeta ι) : NodeCore ι κ :=
  ({ n with
      log := n.keptLog m
      lastIncludedIndex := m.index
      lastIncludedTerm := m.term
      commitIndex := max n.commitIndex m.index
      baseConfig := m.config
      baseConfigIndex := m.configIndex } : NodeCore ι κ).refreshConfigFromLog

/-- Stage 2: log and configuration, and the rewrite of the log file. -/
def installLog (o : LogStore.RewriteOutcome) :
    NodeCore ι κ × List (AppendRequest ι κ × AppendEntriesReply) :=
  match n.install with
  | some (m, .renamed) =>
    ((({ n with install := some (m, .logReplaced) } : NodeCore ι κ).replaceLog m).rewriteLog
      o).takeDecidedWaiters
  | _ => (n, [])

/-- Stages 3 and 4: the state machine is restored and the index applied. -/
def installRestored : NodeCore ι κ × List (Message ι κ) :=
  match n.recv, n.install with
  | some (req, _), some (m, .logReplaced) =>
    ({ n with
        lastApplied := max n.lastApplied m.index
        records := if n.appliedSM
          then { index := m.index, term := m.term, restoring := false } :: n.records
          else n.records } : NodeCore ι κ).installEnd req true
  | _, _ => (n, [])

section

variable {n} {msg : Message ι κ}

omit [DecidableEq ι] [CommandCodec ι κ] in
/-- The end of an install sends answers to snapshot transfers only. -/
theorem mem_installEnd {req : SnapshotRequest ι} {ok : Bool} (h : msg ∈ (n.installEnd req ok).2) :
    ∃ r term status, msg = .snapshotReply n.id r term status := by
  rw [installEnd] at h
  split at h
  · exact ⟨_, _, _, List.mem_singleton.1 h⟩
  · simp at h

omit [CommandCodec ι κ] in
theorem mem_installBegin {valid : Bool} (h : msg ∈ (n.installBegin valid).2) :
    ∃ r term status, msg = .snapshotReply n.id r term status := by
  rw [installBegin] at h
  repeat' split at h
  all_goals first
    | exact mem_installEnd h
    | simp at h

omit [DecidableEq ι] [CommandCodec ι κ] in
theorem mem_installRename {o : ReplaceOutcome} (h : msg ∈ (n.installRename o).2) :
    ∃ r term status, msg = .snapshotReply n.id r term status := by
  rw [installRename] at h
  repeat' split at h
  · simp at h
  · exact mem_installEnd h
  · obtain ⟨r, term, status, rfl⟩ := mem_installEnd h
    exact ⟨r, term, status, rfl⟩
  · simp at h

omit [DecidableEq ι] [CommandCodec ι κ] in
theorem mem_installRestored (h : msg ∈ n.installRestored.2) :
    ∃ r term status, msg = .snapshotReply n.id r term status := by
  rw [installRestored] at h
  split at h
  · obtain ⟨r, term, status, rfl⟩ := mem_installEnd h
    exact ⟨r, term, status, rfl⟩
  · simp at h

end

/-! ## Startup -/

/-- The part of the log after the snapshot, as `loadState` keeps it by
index. -/
def dropCovered (lastIncludedIndex : Nat) (log : List (LogEntry κ)) : List (LogEntry κ) :=
  match log.head? with
  | none => []
  | some e =>
    if 0 < lastIncludedIndex ∧ e.index ≤ lastIncludedIndex then
      log.drop (lastIncludedIndex - e.index + 1)
    else log

def snapIndex : Nat :=
  (n.snapFile.map SnapshotMeta.index).getD 0

/-- The base configuration at startup: one that came from a log entry wins over
the bootstrap list. -/
def loadedBase : Configuration ι × Nat :=
  match n.snapFile with
  | some m => if 0 < m.configIndex then (m.config, m.configIndex) else (n.boot, 0)
  | none => (n.boot, 0)

/-- The state `loadSnapshot` and `loadState` read from disk: the snapshot
file, the surviving log records without the covered prefix, and the meta file. -/
def loaded (recs : List (LogEntry κ)) : NodeCore ι κ :=
  { n with
    log := dropCovered n.snapIndex (replayRecords recs).entries
    lastIncludedIndex := n.snapIndex
    lastIncludedTerm := (n.snapFile.map SnapshotMeta.term).getD 0
    baseConfig := n.loadedBase.1
    baseConfigIndex := n.loadedBase.2
    currentTerm := n.store.metaFile.currentTerm
    votedFor := n.store.metaFile.votedFor
    -- opening the file fsyncs nothing
    store := { recs := recs, synced := min n.store.synced recs.length, found := recs.length
               renamed := n.store.renamed, failed := false, closed := false, gen := 0
               savedMeta := n.store.metaFile, metaFile := n.store.metaFile } }

def raiseTerm (o : ReplaceOutcome) : NodeCore ι κ × Bool :=
  if n.currentTerm < n.lastLogTerm then
    ({ n with currentTerm := n.lastLogTerm, votedFor := none } : NodeCore ι κ).persistMeta o
  else (n, true)

/-- The end of `loadState`: rewrite the file if the log was cut, and take
everything loaded as durable. -/
def finishLoad (needRewrite : Bool) (rw : LogStore.RewriteOutcome) : Option (NodeCore ι κ) :=
  let rewritten := if needRewrite then n.store.rewrite n.log rw else (n.store, true)
  if rewritten.2 then some { n with store := rewritten.1, durableIndex := n.lastLogIndex }
  else none

/-- `loadSnapshot` and `loadState`.  Startup fails on an index gap that
the snapshot does not cover, on a log that does not follow the snapshot, and
when a repair cannot be written. -/
def loadState (recs : List (LogEntry κ)) (o : ReplaceOutcome)
    (rw : LogStore.RewriteOutcome) : Option (NodeCore ι κ) :=
  let replayed := replayRecords recs
  if n.snapIndex < replayed.gapFrom then none
  else if n.snapIndex + 1 < ((n.loaded recs).log.head?.map LogEntry.index).getD 0 then none
  else
    let (n', ok) := (n.loaded recs).raiseTerm o
    if ok then
      n'.finishLoad (0 < replayed.gapFrom ∨ n'.log.length < replayed.entries.length) rw
    else none

variable (a : Option AppliedIndexState)

/-- The recorded applied state can be used: no restore was in progress, and the
log does not have another term at its index. -/
def trustApplied : Bool :=
  match a with
  | none => false
  | some st => !st.restoring && (n.logTerm st.index == 0 || n.logTerm st.index == st.term)

def startApplied : Nat :=
  if n.trustApplied a then max n.lastIncludedIndex ((a.map AppliedIndexState.index).getD 0)
  else n.lastIncludedIndex

/-- What the state machine has recorded after startup: a snapshot that had to be
restored is recorded. -/
def startRecords : List AppliedIndexState :=
  match n.snapFile with
  | some m =>
    if n.appliedSM ∧ !n.trustApplied a
      then { index := m.index, term := m.term, restoring := false } :: n.records
      else n.records
  | none => n.records

def startup : NodeCore ι κ :=
  ({ n with
      records := n.startRecords a
      commitIndex := n.startApplied a
      lastApplied := n.startApplied a
      role := .follower
      matchIndex := fun _ => 0
      votes := []
      awaiting := []
      needed := 0
      sync := .idle
      gathered := []
      applying := []
      capture := .idle
      install := none
      stopped := false
      aeWaiters := []
      recv := none } : NodeCore ι κ).refreshConfigFromLog

/-- A process start: the disk survives with `recs` as the log records, and the
state machine reports `a`. -/
def restart (recs : List (LogEntry κ)) (a : Option AppliedIndexState)
    (o : ReplaceOutcome) (rw : LogStore.RewriteOutcome) : Option (NodeCore ι κ) :=
  (n.loadState recs o rw).map (·.startup a)

/-- A crash that leaves the log as `f` says, and a process start. -/
def crashRestart (f : LogStore.CrashedLog) (a : Option AppliedIndexState)
    (o : ReplaceOutcome) (rw : LogStore.RewriteOutcome) : Option (NodeCore ι κ) :=
  (n.store.crashed f).bind fun s => ({ n with store := s } : NodeCore ι κ).restart s.recs a o rw

omit [DecidableEq ι] [CommandCodec ι κ] in
/-- A load that succeeds keeps the file or replaces it by the log. -/
theorem finishLoad_some {n n' : NodeCore ι κ} {needRewrite : Bool}
    {w : LogStore.RewriteOutcome} (h : n.finishLoad needRewrite w = some n') :
    ∃ store, (store = n.store ∨ store = { n.store.replaced n.log with
        failed := false, gen := n.store.gen + 1 }) ∧
      n' = { n with store := store, durableIndex := n.lastLogIndex } := by
  cases needRewrite with
  | false =>
    obtain rfl := Option.some.inj h
    exact ⟨n.store, .inl rfl, rfl⟩
  | true =>
    simp only [finishLoad] at h
    rcases n.store.rewrite_cases n.log w with hw | hw | hw | ⟨-, hw⟩
    · simp [hw] at h
    · rw [hw] at h
      obtain rfl := Option.some.inj h
      exact ⟨_, .inr rfl, rfl⟩
    · simp [hw] at h
    · simp [hw] at h

/-- What a successful start says: the records follow the snapshot without a gap,
the term was raised if need be, and the file holds the loaded log. -/
theorem restart_some {n n' : NodeCore ι κ} {recs : List (LogEntry κ)}
    {a : Option AppliedIndexState} {o : ReplaceOutcome} {w : LogStore.RewriteOutcome}
    (h : n.restart recs a o w = some n') :
    (replayRecords recs).gapFrom ≤ n.snapIndex ∧
      ((n.loaded recs).log.head?.map LogEntry.index).getD 0 ≤ n.snapIndex + 1 ∧
      ((n.loaded recs).raiseTerm o).2 = true ∧
      ∃ m store, m = ((n.loaded recs).raiseTerm o).1 ∧
        (store = m.store ∨ store = { m.store.replaced m.log with
          failed := false, gen := m.store.gen + 1 }) ∧
        n' = ({ m with store := store, durableIndex := m.lastLogIndex } :
          NodeCore ι κ).startup a := by
  obtain ⟨m, hload, rfl⟩ := Option.map_eq_some_iff.1 h
  simp only [loadState] at hload
  split at hload
  · cases hload
  next hgap =>
    split at hload
    · cases hload
    next hhead =>
      split at hload
      next hraise =>
        obtain ⟨store, hstore, rfl⟩ := finishLoad_some hload
        exact ⟨Nat.le_of_not_lt hgap, Nat.le_of_not_lt hhead, hraise, _, store, rfl, hstore, rfl⟩
      · cases hload

/-! ## The applier -/

/-- The committed entries that follow `idx`, as far as the log has them. -/
def gatherFrom (n : NodeCore ι κ) : Nat → Nat → List (LogEntry κ)
  | 0, _ => []
  | k + 1, idx =>
    match n.entryAt idx with
    | none => []
    | some e => e :: gatherFrom n k (idx + 1)

def gather : NodeCore ι κ :=
  if n.smFree then
    { n with gathered := n.gatherFrom (n.commitIndex - n.lastApplied) (n.lastApplied + 1) }
  else n

variable (ι) in
def batchable (e : LogEntry κ) : Bool :=
  e.type == entryNormal && 0 < CommandCodec.len ι e.command

/-- Hand the next entry, or the next run of ordinary writes, to the state
machine. -/
def applySome : NodeCore ι κ :=
  match n.gathered with
  | [] => n
  | e :: es =>
    if n.applying.isEmpty then
      let run := if n.batchSM ∧ batchable ι e then
          e :: es.takeWhile (fun x => batchable ι x)
        else [e]
      { n with
        applying := run
        gathered := n.gathered.drop run.length
        applied := run.reverse ++ n.applied }
    else n

/-- A committed configuration entry: a leader that is no voter steps down. -/
def onConfigCommitted : NodeCore ι κ :=
  if n.config.contains n.id then n
  else if n.role = .leader then n.stepDown
  else n

/-- Finish one applied entry: advance, and run the hook of a configuration
entry.  After the last one the state machine records it. -/
def finishApplied : NodeCore ι κ :=
  match n.applying with
  | [] => n
  | e :: es =>
    let n : NodeCore ι κ :=
      { n with
        applying := es
        lastApplied := e.index
        records := if n.appliedSM ∧ es.isEmpty ∧ n.gathered.isEmpty
          then { index := e.index, term := e.term, restoring := false } :: n.records
          else n.records }
    if e.type = entryConfig then n.onConfigCommitted else n

end NodeCore

end VeltrixDB.Consensus
