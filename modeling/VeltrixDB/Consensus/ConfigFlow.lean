import VeltrixDB.Consensus.Steps

/-!
# Where configurations come from

Configurations reach a node through its bootstrap list, through log entries and
through snapshot headers.  A property that every bootstrap configuration has,
and that every appended configuration inherits from the one it replaces, is
therefore shared by all configurations of all nodes and messages, whatever is
lost, reordered or truncated.

Main results:

- Definition `ConfigParts.All`: every configuration held by a node has a
  property.
- Theorem `NodeStep.configs`: elementary steps keep it.
-/

namespace VeltrixDB.Consensus

open List NodeCore

variable {ι κ : Type}

/-! ## The parts of a core that hold configurations -/

/-- The fields of a core in which configurations are found. -/
structure ConfigParts (ι κ : Type) where
  boot : Configuration ι
  config : Configuration ι
  base : Configuration ι
  log : List (LogEntry κ)
  recs : List (LogEntry κ)
  renamed : List (List (LogEntry κ))
  snapFile : Option (SnapshotMeta ι)
  capture : CapturePhase ι
  recv : Option (SnapshotRequest ι × Option Bool)
  install : Option (SnapshotMeta ι × InstallStage)

/-- The view of a core as those fields. -/
def NodeCore.configParts (n : NodeCore ι κ) : ConfigParts ι κ where
  boot := n.boot
  config := n.config
  base := n.baseConfig
  log := n.log
  recs := n.store.recs
  renamed := n.store.renamed
  snapFile := n.snapFile
  capture := n.capture
  recv := n.recv
  install := n.install

/-! ## Functions that leave the configurations alone -/

namespace NodeCore

section

variable (n : NodeCore ι κ)

theorem configParts_gather : n.gather.configParts = n.configParts := by
  rw [gather]
  split <;> rfl

theorem configParts_acknowledge (n : NodeCore ι κ) (req : AppendRequest ι κ) (target : Nat)
    (heartbeat : Bool) : (n.acknowledge req target heartbeat).1.configParts = n.configParts := by
  simp only [acknowledge]
  repeat' split
  all_goals rfl

variable [CommandCodec ι κ] in
theorem configParts_applySome : n.applySome.configParts = n.configParts := by
  rw [applySome]
  split
  · rfl
  · split <;> rfl

variable [DecidableEq ι]

/-- Saving term and vote. -/
@[simp] theorem configParts_persistMeta (o : ReplaceOutcome) :
    (n.persistMeta o).1.configParts = n.configParts := by
  simp only [persistMeta, LogStore.saveMeta]
  repeat' split
  all_goals rfl

@[simp] theorem configParts_becomeFollower (term : Nat) (o : ReplaceOutcome) :
    (n.becomeFollower term o).configParts = n.configParts := by
  rw [becomeFollower, configParts_persistMeta]
  rfl

@[simp] theorem configParts_acceptTerm (term : Nat) (o o' : ReplaceOutcome) :
    (n.acceptTerm term o o').1.configParts = n.configParts := by
  rw [acceptTerm]
  split
  · simp
  · rfl

theorem configParts_castVote (candidate : ι) (o : ReplaceOutcome) :
    (n.castVote candidate o).1.configParts = n.configParts := by
  simp only [castVote]
  have h := configParts_persistMeta { n with votedFor := some candidate } o
  split <;> exact h

/-- Answering a vote request. -/
theorem configParts_handleRequestVote (args : RequestVoteArgs ι) (contact : Bool)
    (o o' o'' : ReplaceOutcome) :
    (n.handleRequestVote args contact o o' o'').1.configParts = n.configParts := by
  have hterm := configParts_acceptTerm n args.term o o'
  simp only [handleRequestVote]
  repeat' split
  all_goals first
    | rfl
    | exact hterm
    | exact (configParts_castVote _ _ _).trans hterm

/-- Starting an election. -/
theorem configParts_campaign (o : ReplaceOutcome) :
    (n.campaign o).1.configParts = n.configParts := by
  have h := configParts_persistMeta
    { n with currentTerm := n.currentTerm + 1, votedFor := some n.id } o
  simp only [campaign]
  split <;> exact h

@[simp] theorem configParts_maybeAdvanceCommit :
    n.maybeAdvanceCommit.configParts = n.configParts := by
  rw [maybeAdvanceCommit]
  split <;> rfl

theorem configParts_raiseMatch (p : ι) (i : Nat) : (n.raiseMatch p i).configParts = n.configParts :=
  configParts_maybeAdvanceCommit _

theorem configParts_markDurable (idx term : Nat) :
    (n.markDurable idx term).configParts = n.configParts := by
  rw [markDurable]
  split
  · rfl
  · dsimp only
    split
    · exact configParts_maybeAdvanceCommit _
    · rfl

theorem configParts_acceptLeader (term : Nat) (o o' : ReplaceOutcome) :
    (n.acceptLeader term o o').1.configParts = n.configParts := by
  have hterm := configParts_acceptTerm n term o o'
  rw [acceptLeader]
  split
  · rfl
  · dsimp only
    split <;> exact hterm

theorem configParts_onConfigCommitted : n.onConfigCommitted.configParts = n.configParts := by
  rw [onConfigCommitted]
  repeat' split
  all_goals rfl

/-- Ending a round of the applier. -/
theorem configParts_finishApplied : n.finishApplied.configParts = n.configParts := by
  rw [finishApplied]
  split
  · rfl
  · dsimp only
    split
    · exact configParts_onConfigCommitted _
    · rfl

end

end NodeCore

/-! ## A property of all configurations -/

variable [CommandCodec ι κ]

/-- The configuration carried by an entry, if any, has property `P`. -/
def EntryOK (P : Configuration ι → Prop) (e : LogEntry κ) : Prop :=
  ∀ c i, configEntry e = some (c, i) → P c

/-- The configuration captured by a snapshot in progress has property `P`. -/
def CaptureOK (P : Configuration ι → Prop) : CapturePhase ι → Prop
  | .idle => True
  | .fenced m => P m.config
  | .installed m => P m.config

/-- Every configuration of a core has property `P`. -/
structure ConfigParts.All (P : Configuration ι → Prop) (v : ConfigParts ι κ) : Prop where
  boot : P v.boot
  config : P v.config
  base : P v.base
  log : ∀ e ∈ v.log, EntryOK P e
  recs : ∀ e ∈ v.recs, EntryOK P e
  renamed : ∀ f ∈ v.renamed, ∀ e ∈ f, EntryOK P e
  snapFile : ∀ m, v.snapFile = some m → P m.config
  capture : CaptureOK P v.capture
  recv : ∀ req r, v.recv = some (req, r) → P req.header.config
  install : ∀ m st, v.install = some (m, st) → P m.config

/-- Every configuration in a message has property `P`. -/
def Message.ConfigsOK (P : Configuration ι → Prop) : Message ι κ → Prop
  | .append _ req => ∀ e ∈ req.args.entries, EntryOK P e
  | .snapshot _ req => P req.header.config
  | _ => True

variable {P : Configuration ι → Prop} {e : LogEntry κ}

/-- A normal entry carries none. -/
theorem entryOK_of_normal (h : e.type = entryNormal) : EntryOK P e := by
  intro c i hc
  rw [configEntry, h] at hc
  simp [entryNormal, entryConfig] at hc

/-- A configuration entry carries the one that was encoded. -/
theorem entryOK_config {next : Configuration ι} (hnext : P next)
    (hcmd : e.command = CommandCodec.encodeConfiguration next) : EntryOK P e := by
  intro c i hc
  rw [configEntry] at hc
  split at hc
  · rw [hcmd, CommandCodec.decode_encode] at hc
    simp only [Option.map_some, Option.some.injEq, Prod.mk.injEq] at hc
    rw [← hc.1]
    exact hnext
  · cases hc

/-- The latest configuration of a log is carried by an entry. -/
theorem latestConfig_ok {log : List (LogEntry κ)} (h : ∀ e ∈ log, EntryOK P e)
    {c : Configuration ι} {i : Nat} (hc : latestConfig log = some (c, i)) : P c := by
  obtain ⟨e, he, hce⟩ := exists_of_findSome?_eq_some hc
  exact h e (mem_reverse.1 he) c i hce

namespace NodeCore

/-! ## Functions that move configurations around -/

variable {n n' : NodeCore ι κ}

namespace All

section

variable (h : n.configParts.All P)
include h

/-- The configuration in force is taken from the log or the base. -/
theorem refresh : n.refreshConfigFromLog.configParts.All P := by
  rw [refreshConfigFromLog]
  split
  next hc => exact { h with config := latestConfig_ok h.log hc }
  · exact { h with config := h.base }

/-- So is the one in force at an index. -/
theorem configAt (idx : Nat) : P (n.configAt idx).1 := by
  rw [NodeCore.configAt]
  cases hc : (latestConfig (n.log.takeWhile fun e => e.index ≤ idx) :
      Option (Configuration ι × Nat)) with
  | none => exact h.base
  | some r =>
    refine latestConfig_ok (i := r.2) (fun e he => h.log e ?_) hc
    exact (takeWhile_sublist _).subset he

/-- Entries are appended to the log, and queued or not. -/
theorem logged {entries : List (LogEntry κ)} {store : LogStore ι κ}
    (hents : ∀ e ∈ entries, EntryOK P e)
    (hstore : store = n.store ∨ n.store.enqueue entries = some store) :
    ({ n with log := n.log ++ entries, store := store } : NodeCore ι κ).configParts.All P := by
  have hlog : ∀ {xs : List (LogEntry κ)}, (∀ e ∈ xs, EntryOK P e) →
      ∀ e ∈ xs ++ entries, EntryOK P e := fun hxs e he => by
    rcases mem_append.1 he with he | he
    · exact hxs e he
    · exact hents e he
  rcases hstore with rfl | henq
  · exact { h with log := hlog h.log }
  · obtain ⟨rfl, -⟩ := LogStore.enqueue_some henq
    exact { h with log := hlog h.log, recs := hlog h.recs }

theorem leaderAppend {entries : List (LogEntry κ)} (hents : ∀ e ∈ entries, EntryOK P e)
    (happend : n.leaderAppend entries = some n') : n'.configParts.All P := by
  obtain ⟨store, henq, rfl⟩ := Option.map_eq_some_iff.1 happend
  exact logged h hents (.inr henq)

theorem truncateAt (localIdx : Nat) : (n.truncateAt localIdx).configParts.All P := by
  rw [NodeCore.truncateAt]
  split
  · exact { h with log := fun e he => h.log e (mem_of_mem_take he) }
  · exact h

/-- Conflicting entries are replaced by those of the request. -/
theorem supersede (localIdx : Nat) (entries : List (LogEntry κ))
    (hents : ∀ e ∈ entries, EntryOK P e) : (n.supersede localIdx entries).1.configParts.All P := by
  have hcut := truncateAt h localIdx
  rw [NodeCore.supersede]
  split
  next store henq =>
    have hsame : (n.truncateAt localIdx).store = n.store := by
      rw [NodeCore.truncateAt]
      split <;> rfl
    exact refresh (logged hcut hents (.inr (hsame ▸ henq)))
  · exact refresh hcut

/-- The entries of a request only add their own. -/
theorem appendLoop (prev : Nat) (entries : List (LogEntry κ)) (hents : ∀ e ∈ entries, EntryOK P e) :
    (n.appendLoop prev entries).1.configParts.All P := by
  induction entries generalizing prev with
  | nil => exact h
  | cons e es ih =>
    rw [NodeCore.appendLoop]
    split
    · exact ih _ fun x hx => hents x (mem_cons_of_mem _ hx)
    · exact supersede h _ _ hents

theorem appendChecked (req : AppendRequest ι κ) (prev term : Nat) (entries : List (LogEntry κ))
    (hents : ∀ e ∈ entries, EntryOK P e) :
    (n.appendChecked req prev term entries).1.configParts.All P := by
  rw [NodeCore.appendChecked]
  split
  · exact h
  · split
    · exact h
    · have hloop := appendLoop h prev entries hents
      simp only [appendFrom]
      split
      · rw [configParts_acknowledge]
        exact hloop
      · exact hloop

theorem appendMatched (req : AppendRequest ι κ) (hents : ∀ e ∈ req.args.entries, EntryOK P e) :
    (n.appendMatched req).1.configParts.All P := by
  rw [NodeCore.appendMatched]
  split
  · exact appendChecked h req _ _ _ hents
  · split
    · exact h
    · exact appendChecked h req _ _ _ fun e he => hents e (mem_of_mem_drop he)

theorem syncWrite (idx term : Nat) (o : WriteOutcome) :
    (n.syncWrite idx term o).configParts.All P := by
  simp only [NodeCore.syncWrite]
  repeat' split
  all_goals first
    | exact h
    | exact { h with recs := fun e he => h.recs e (mem_of_mem_take he) }

theorem syncFsync (idx term covered gen : Nat) (ok : Bool) :
    (n.syncFsync idx term covered gen ok).configParts.All P := by
  rw [NodeCore.syncFsync]
  repeat' split
  all_goals first
    | exact h
    | exact { h with recs := fun e he => h.recs e (mem_of_mem_take he) }

theorem captureInstall (o : ReplaceOutcome) : (n.captureInstall o).configParts.All P := by
  rw [NodeCore.captureInstall]
  split
  next m hm =>
    have hP : P m.config := by
      have := h.capture
      change CaptureOK P n.capture at this
      rwa [hm] at this
    have hfile : ∀ m', some m = some m' → P m'.config := by
      rintro _ ⟨⟩
      exact hP
    split
    · exact { h with snapFile := hfile, capture := hP }
    · exact { h with capture := trivial }
    · exact { h with snapFile := hfile, capture := trivial }
  · exact h

theorem idle : ({ n with capture := .idle } : NodeCore ι κ).configParts.All P :=
  { h with capture := trivial }

theorem compactTo {m : SnapshotMeta ι} (hm : P m.config) : (n.compactTo m).configParts.All P := by
  refine { h with base := hm, log := ?_ }
  intro e he
  change e ∈ (if _ then _ else _) at he
  split at he
  · exact h.log e (mem_of_mem_drop he)
  · exact h.log e he

theorem installEnd (req : SnapshotRequest ι) (ok : Bool) (hreq : P req.header.config) :
    (n.installEnd req ok).1.configParts.All P := by
  rw [NodeCore.installEnd]
  split
  · exact { h with recv := by rintro _ _ ⟨⟩, install := by rintro _ _ ⟨⟩ }
  · refine { h with recv := ?_, install := by rintro _ _ ⟨⟩ }
    rintro _ _ ⟨⟩
    exact hreq

theorem installRename (o : ReplaceOutcome) : (n.installRename o).1.configParts.All P := by
  rw [NodeCore.installRename]
  split
  next req _ m hrecv hinst =>
    have hP : P m.config := h.install _ _ hinst
    have hreq : P req.header.config := h.recv _ _ hrecv
    have hfile : ({ n with snapFile := some m } : NodeCore ι κ).configParts.All P := by
      refine { h with snapFile := ?_ }
      rintro _ ⟨⟩
      exact hP
    split
    · refine { h with snapFile := hfile.snapFile, install := ?_ }
      rintro _ _ ⟨⟩
      exact hP
    · exact installEnd h req false hreq
    · exact installEnd hfile req false hreq
  · exact h

variable [DecidableEq ι]

theorem becomeLeader : n.becomeLeader.configParts.All P := by
  have hnoop : ∀ e ∈ [n.noop], EntryOK P e := by
    intro e he
    rw [mem_singleton.1 he]
    exact entryOK_of_normal rfl
  have hstore : (n.store.enqueue [n.noop]).getD n.store = n.store ∨
      n.store.enqueue [n.noop] = some ((n.store.enqueue [n.noop]).getD n.store) := by
    cases n.store.enqueue [n.noop] with
    | none => exact .inl rfl
    | some => exact .inr rfl
  exact { logged h hnoop hstore with }

theorem acceptLeader (term : Nat) (o o' : ReplaceOutcome) :
    (n.acceptLeader term o o').1.configParts.All P := by
  rw [configParts_acceptLeader]
  exact h

/-- AppendEntries, when the entries sent have the property. -/
theorem handleAppendEntries (req : AppendRequest ι κ)
    (hents : ∀ e ∈ req.args.entries, EntryOK P e) (o o' : ReplaceOutcome) :
    (n.handleAppendEntries req o o').1.configParts.All P := by
  have hentries : (n.appendEntries req o o').1.configParts.All P := by
    have haccept := acceptLeader h req.args.term o o'
    simp only [NodeCore.appendEntries]
    split
    · exact appendMatched haccept req hents
    · exact haccept
  rw [NodeCore.handleAppendEntries]
  split
  next heq =>
    rw [heq] at hentries
    exact hentries
  next heq =>
    rw [heq] at hentries
    exact hentries

/-- The syncer reports; unsynced entries may be dropped. -/
theorem syncFinish (idx term : Nat) (result : Option Bool) :
    (n.syncFinish idx term result).1.configParts.All P := by
  have hidle : ({ n with sync := .idle } : NodeCore ι κ).configParts.All P := h
  rcases result with _ | _ | _
  · exact hidle
  · change (onPersistFailure _).configParts.All P
    rw [onPersistFailure]
    repeat' split
    all_goals first
      | exact hidle
      | exact refresh { h with log := fun e he => h.log e (mem_of_mem_take he) }
  · change (markDurable _ idx term).configParts.All P
    rw [configParts_markDurable]
    exact hidle

/-- A snapshot takes the configuration at its index. -/
theorem captureFence (sid : Nat) : (n.captureFence sid).configParts.All P := by
  rw [NodeCore.captureFence]
  split
  · exact { h with capture := configAt h _ }
  · exact h

theorem rewriteLog (o : LogStore.RewriteOutcome) : (n.rewriteLog o).configParts.All P := by
  obtain ⟨store, d, i, mk, heq, hstore⟩ := n.exists_rewriteLog o
  rw [heq]
  rcases hstore with rfl | rfl | rfl | ⟨-, rfl⟩
  · exact h
  · exact { h with recs := h.log, renamed := fun _ hf => by cases hf }
  · exact { h with recs := h.log, renamed := fun _ hf => by cases hf }
  · refine { h with renamed := fun f hf => ?_ }
    rcases mem_cons.1 hf with rfl | hf
    · exact h.log
    · exact h.renamed f hf

/-- The log is cut, and its base is the captured configuration. -/
theorem captureCompact (o : LogStore.RewriteOutcome) : (n.captureCompact o).configParts.All P := by
  rw [NodeCore.captureCompact]
  split
  next m hm =>
    have hP : P m.config := by
      have := h.capture
      change CaptureOK P n.capture at this
      rwa [hm] at this
    dsimp only
    split
    · exact rewriteLog (compactTo (idle h) hP) o
    · exact idle h
  · exact h

theorem receiveSnapshot (req : SnapshotRequest ι) (hreq : P req.header.config) :
    (n.receiveSnapshot req).1.configParts.All P := by
  have htake : (n.takeTransfer req).1.configParts.All P := by
    refine { h with recv := ?_ }
    rintro _ _ ⟨⟩
    exact hreq
  have hnone : ({ n with recv := none } : NodeCore ι κ).configParts.All P :=
    { h with recv := by rintro _ _ ⟨⟩ }
  rw [NodeCore.receiveSnapshot]
  repeat' split
  all_goals first
    | exact h
    | exact htake
    | exact hnone

/-- InstallSnapshot, when the header has the property. -/
theorem handleInstallSnapshot (req : SnapshotRequest ι) (hreq : P req.header.config)
    (o o' : ReplaceOutcome) : (n.handleInstallSnapshot req o o').1.configParts.All P := by
  have haccept := acceptLeader h req.term o o'
  simp only [NodeCore.handleInstallSnapshot]
  split
  · exact receiveSnapshot haccept req hreq
  · exact haccept

theorem installBegin (valid : Bool) : (n.installBegin valid).1.configParts.All P := by
  rw [NodeCore.installBegin]
  split
  next req hreq =>
    have hP : P req.header.config := h.recv _ _ hreq
    have hstart : ({ n with install := some (req.header, .verified) } :
        NodeCore ι κ).configParts.All P := by
      refine { h with install := ?_ }
      rintro _ _ ⟨⟩
      exact hP
    repeat' split
    all_goals first
      | exact h
      | exact hstart
      | exact installEnd h req _ hP
  · exact h

end

end All

omit [CommandCodec ι κ] in
theorem mem_entriesFrom {i : Nat} (h : e ∈ n.entriesFrom i) : e ∈ n.log := by
  rw [entriesFrom] at h
  split at h
  · simp at h
  · split at h
    · simp at h
    · exact mem_of_mem_drop h

theorem All.installRestored (h : n.configParts.All P) : n.installRestored.1.configParts.All P := by
  rw [NodeCore.installRestored]
  split
  next req _ m hrecv hinst =>
    refine All.installEnd ?_ req true (h.recv _ _ hrecv)
    exact h
  · exact h

theorem mem_dropCovered {k : Nat} {log : List (LogEntry κ)} (h : e ∈ dropCovered k log) :
    e ∈ log := by
  rw [dropCovered] at h
  split at h
  · simp at h
  · split at h
    · exact mem_of_mem_drop h
    · exact h

theorem All.loaded {recs : List (LogEntry κ)} (h : n.configParts.All P)
    (hrecs : ∀ e ∈ recs, e ∈ n.store.recs) : (n.loaded recs).configParts.All P := by
  refine { h with base := ?_, log := ?_, recs := fun e he => h.recs e (hrecs e he) }
  · change P n.loadedBase.1
    rw [loadedBase]
    split
    next m hm =>
      split
      · exact h.snapFile m hm
      · exact h.boot
    · exact h.boot
  · intro e he
    exact h.recs e (hrecs e (mem_replayRecords (mem_dropCovered he)))

/-- A fresh core knows its bootstrap configuration only. -/
theorem All.freshCore (id : ι) {boot : Configuration ι} (batchSM appliedSM : Bool) (hP : P boot) :
    (RaftNode.freshCore id boot batchSM appliedSM : NodeCore ι κ).configParts.All P where
  boot := hP
  config := hP
  base := hP
  log := by rintro _ ⟨⟩
  recs := by rintro _ ⟨⟩
  renamed := by rintro _ ⟨⟩
  snapFile := by rintro _ ⟨⟩
  capture := trivial
  recv := by rintro _ _ ⟨⟩
  install := by rintro _ _ ⟨⟩

/-- A leader sends entries of its log. -/
theorem configsOK_sends (h : n.configParts.All P) {m : Message ι κ} (hm : n.Sends m) :
    m.ConfigsOK P := by
  obtain ⟨p, tag, prev, k, -, rfl⟩ := hm
  intro e he
  exact h.log e (mem_entriesFrom (mem_of_mem_take he))

theorem configsOK_answers (z : ι) (replies : List (AppendRequest ι κ × AppendEntriesReply)) :
    ∀ m ∈ answers z replies, m.ConfigsOK P := by
  intro m hm
  obtain ⟨r, -, rfl⟩ := mem_map.1 hm
  trivial

variable [DecidableEq ι]

/-- An installed snapshot brings its own base. -/
theorem All.installLog (h : n.configParts.All P) (o : LogStore.RewriteOutcome) :
    (n.installLog o).1.configParts.All P := by
  rw [NodeCore.installLog]
  split
  next m hinst =>
    have hP : P m.config := h.install _ _ hinst
    refine All.rewriteLog ?_ o
    refine All.refresh { h with base := hP, log := ?_, install := ?_ }
    · intro e he
      change e ∈ keptLog _ m at he
      rw [keptLog] at he
      split at he
      · exact h.log e (mem_entriesFrom he)
      · simp at he
    · rintro _ _ ⟨⟩
      exact hP
  · exact h

/-- A start takes everything from the disk. -/
theorem All.restart {recs : List (LogEntry κ)} {a : Option AppliedIndexState} {o : ReplaceOutcome}
    {rw : LogStore.RewriteOutcome} (h : n.configParts.All P)
    (hrecs : ∀ e ∈ recs, e ∈ n.store.recs) (hrestart : n.restart recs a o rw = some n') :
    n'.configParts.All P := by
  obtain ⟨-, -, -, m, store, hm, hstore, rfl⟩ := restart_some hrestart
  have hloaded := All.loaded h hrecs
  have hm : m.configParts.All P := by
    rw [hm, raiseTerm]
    split
    · rw [configParts_persistMeta]
      exact hloaded
    · exact hloaded
  have hfiles : (∀ e ∈ store.recs, EntryOK P e) ∧
      ∀ f ∈ store.renamed, ∀ e ∈ f, EntryOK P e := by
    rcases hstore with rfl | rfl
    · exact ⟨hm.recs, hm.renamed⟩
    · exact ⟨hm.log, fun _ hf => by cases hf⟩
  refine All.refresh { hm with
    recs := hfiles.1, renamed := hfiles.2, capture := trivial, recv := ?_, install := ?_ }
  · rintro _ _ ⟨⟩
  · rintro _ _ ⟨⟩

/-- So does a restart from what a crash left of the log. -/
theorem All.crashRestart {f : LogStore.CrashedLog} {a : Option AppliedIndexState}
    {o : ReplaceOutcome} {rw : LogStore.RewriteOutcome} (h : n.configParts.All P)
    (hrestart : n.crashRestart f a o rw = some n') : n'.configParts.All P := by
  obtain ⟨s, hs, hrestart⟩ := Option.bind_eq_some_iff.1 hrestart
  have hs' : (∀ e ∈ s.recs, EntryOK P e) ∧ ∀ g ∈ s.renamed, ∀ e ∈ g, EntryOK P e := by
    cases f with
    | tail kept =>
      rw [LogStore.crashed] at hs
      split at hs
      · cases hs
        exact ⟨fun e he => h.recs e (mem_of_mem_take he), h.renamed⟩
      · cases hs
    | renamed i =>
      obtain ⟨file, hfile, rfl⟩ := Option.map_eq_some_iff.1 hs
      refine ⟨h.renamed file (mem_of_getElem? hfile), fun g hg => ?_⟩
      rcases mem_cons.1 hg with rfl | hg
      · exact fun e he => h.recs e (mem_of_mem_take he)
      · exact h.renamed g (mem_of_mem_eraseIdx hg)
  have hcrashed : ({ n with store := s } : NodeCore ι κ).configParts.All P :=
    ⟨h.boot, h.config, h.base, h.log, hs'.1, hs'.2, h.snapFile, h.capture, h.recv, h.install⟩
  exact All.restart hcrashed (fun e he => he) hrestart

end NodeCore

/-! ## Elementary steps -/

variable [DecidableEq ι] in
/-- Every configuration of a node and of its messages has a property that the
bootstrap configurations have and that appended configurations inherit. -/
theorem NodeStep.configs {R : Rules ι κ} {z : ι} {net out : List (Message ι κ)}
    {n n' : NodeCore ι κ} (hstep : NodeStep R z net n n' out) (h : n.configParts.All P)
    (hnet : ∀ m ∈ net, m.ConfigsOK P)
    (hchange : ∀ next, R.change n next → P n.config → P next)
    (hempty : R.unwiped ∨ P Configuration.empty) :
    n'.configParts.All P ∧ ∀ m ∈ out, m.ConfigsOK P := by
  have hnil : ∀ m ∈ ([] : List (Message ι κ)), m.ConfigsOK P := by simp
  have heq : ∀ {n' : NodeCore ι κ}, n'.configParts = n.configParts → n'.configParts.All P :=
    fun hn => hn ▸ h
  cases hstep with
  | follow term o => exact ⟨heq (n.configParts_becomeFollower term o), hnil⟩
  | vote args contact o o' o'' _ =>
    refine ⟨heq (n.configParts_handleRequestVote args contact o o' o''), ?_⟩
    simp [Message.ConfigsOK]
  | preVote _ hout =>
    refine ⟨h, fun m hm => ?_⟩
    obtain ⟨p, args, rfl, -⟩ := hout m hm
    trivial
  | campaign o _ _ _ hout =>
    refine ⟨heq (n.configParts_campaign o), fun m hm => ?_⟩
    obtain ⟨-, p, rfl⟩ := hout m hm
    trivial
  | count | syncCapture | stop => exact ⟨heq rfl, hnil⟩
  | lead => exact ⟨NodeCore.All.becomeLeader h, hnil⟩
  | append batch _ happend =>
    refine ⟨NodeCore.All.leaderAppend h (fun e he => ?_) happend, hnil⟩
    obtain ⟨i, hi, rfl⟩ := mem_mapIdx.1 he
    exact entryOK_of_normal rfl
  | propose next _ hnext happend =>
    have hP : P next := hchange next hnext h.config
    have hn := NodeCore.All.leaderAppend h (fun e he => ?_) happend
    · exact ⟨{ hn with config := hP }, hnil⟩
    · rw [mem_singleton.1 he]
      exact entryOK_config hP rfl
  | send _ _ hout => exact ⟨h, fun m hm => configsOK_sends h (hout m hm)⟩
  | sendSnapshot p m uid legacy _ hsnap =>
    refine ⟨h, fun msg hmsg => ?_⟩
    rw [mem_singleton.1 hmsg]
    exact h.snapFile m hsnap
  | acknowledged | snapshotSent => exact ⟨heq (n.configParts_raiseMatch _ _), hnil⟩
  | accept req o o' hmsg _ =>
    exact ⟨NodeCore.All.handleAppendEntries h req (hnet _ hmsg) o o', configsOK_answers z _⟩
  | syncWrite idx term o => exact ⟨NodeCore.All.syncWrite h idx term o, hnil⟩
  | syncFsync idx term covered gen ok =>
    exact ⟨NodeCore.All.syncFsync h idx term covered gen ok, hnil⟩
  | syncFinish idx term result _ _ =>
    exact ⟨NodeCore.All.syncFinish h idx term result, configsOK_answers z _⟩
  | gather => exact ⟨heq n.configParts_gather, hnil⟩
  | applySome => exact ⟨heq n.configParts_applySome, hnil⟩
  | finishApplied => exact ⟨heq n.configParts_finishApplied, hnil⟩
  | captureFence sid => exact ⟨NodeCore.All.captureFence h sid, hnil⟩
  | captureInstall o => exact ⟨NodeCore.All.captureInstall h o, hnil⟩
  | captureCompact o => exact ⟨NodeCore.All.captureCompact h o, hnil⟩
  | receive req o o' hmsg _ =>
    refine ⟨NodeCore.All.handleInstallSnapshot h req (hnet _ hmsg) o o', fun m hm => ?_⟩
    obtain ⟨r, -, rfl⟩ := mem_map.1 hm
    trivial
  | installBegin valid =>
    refine ⟨NodeCore.All.installBegin h valid, fun m hm => ?_⟩
    obtain ⟨_, _, _, rfl⟩ := mem_installBegin hm
    trivial
  | installRename o =>
    refine ⟨NodeCore.All.installRename h o, fun m hm => ?_⟩
    obtain ⟨_, _, _, rfl⟩ := mem_installRename hm
    trivial
  | installLog o => exact ⟨NodeCore.All.installLog h o, configsOK_answers z _⟩
  | installRestored =>
    refine ⟨NodeCore.All.installRestored h, fun m hm => ?_⟩
    obtain ⟨_, _, _, rfl⟩ := mem_installRestored hm
    trivial
  | closeStore _ => exact ⟨heq rfl, configsOK_answers z _⟩
  | restart f applied o w _ hrestart => exact ⟨NodeCore.All.crashRestart h hrestart, hnil⟩
  | wipe hwiped =>
    have hP := hempty.resolve_left hwiped
    exact ⟨NodeCore.All.freshCore n.id n.batchSM n.appliedSM hP, hnil⟩

end VeltrixDB.Consensus
