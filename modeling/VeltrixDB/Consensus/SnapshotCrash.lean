import VeltrixDB.Consensus.Durability

/-!
# Crashes during a snapshot install

An install renames the snapshot file into place, replaces the log and restores the
state machine.  Only the second stage holds the node's mutex, so requests and the
syncer go on in between, and a crash may separate the stages.  The completed install
keeps the log suffix after the snapshot when the entry at the snapshot index has the
snapshot's term; startup keeps it by index alone.

Main results:

- Definition `NodeCore.Installing`: the states a node passes through while it installs.
- Definition `NodeCore.recovered`: what a start makes of a snapshot file and a log file.
- Theorem `NodeCore.Installing.recoversCleanly`: whatever a crash leaves, recovery is
  atomic when the log on disk agrees with the snapshot or ends at it, and a bootstrap
  configuration in its header is the node's own; before the log is replaced, only then.
- Theorem `NodeCore.crash_keeps_conflict`: otherwise a conflicting suffix survives.
-/

namespace VeltrixDB.Consensus

open List Option LogEntry

/-! ## Records after the covered prefix -/

namespace NodeCore

section

variable {κ : Type} {log E : List (LogEntry κ)} {e : LogEntry κ} {s j k : Nat}

end

variable {ι κ : Type} {n n' b : NodeCore ι κ} {m : SnapshotMeta ι} {image : List (LogEntry κ)}

/-! ## The kept suffix -/

/-- Entry terms never decrease from the snapshot's term on. -/
def TermsSorted (n : NodeCore ι κ) : Prop :=
  (n.lastIncludedTerm :: n.log.map term).Pairwise (· ≤ ·)

section

variable {s : Nat} (h : IndexedFrom s b.log)
include h

end

/-! ## What a node shows of its log -/

/-- Snapshot position, log and effective configuration. -/
def visible (n : NodeCore ι κ) : Nat × Nat × List (LogEntry κ) × Configuration ι × Nat :=
  (n.lastIncludedIndex, n.lastIncludedTerm, n.log, n.config, n.configIndex)

theorem TermsSorted.congr (h : n.TermsSorted) (heq : n'.visible = n.visible) : n'.TermsSorted := by
  simp only [visible, Prod.mk.injEq] at heq
  rw [TermsSorted, heq.2.1, heq.2.2.1]
  exact h

variable [CommandCodec ι κ]

theorem visible_refreshConfigFromLog (n : NodeCore ι κ) :
    n.refreshConfigFromLog.visible = (n.lastIncludedIndex, n.lastIncludedTerm, n.log,
      (latestConfig n.log).getD (n.baseConfig, n.baseConfigIndex)) := by
  rw [refreshConfigFromLog]
  split
  next h =>
    rw [h]
    rfl
  next h =>
    rw [h]
    rfl

/-- What a node shows that has installed a snapshot and kept or logged `log` after it. -/
def shows (m : SnapshotMeta ι) (log : List (LogEntry κ)) :
    Nat × Nat × List (LogEntry κ) × Configuration ι × Nat :=
  (m.index, m.term, log, (latestConfig log).getD (m.config, m.configIndex))

theorem visible_replaceLog (n : NodeCore ι κ) (m : SnapshotMeta ι) :
    (n.replaceLog m).visible = shows m (n.keptLog m) :=
  visible_refreshConfigFromLog _

variable [DecidableEq ι] {a : Option AppliedIndexState} {w : LogStore.RewriteOutcome}
  {o : ReplaceOutcome}

end NodeCore

/-- What requests and the syncer do to the log file: records after the snapshot at
`base` are appended, the tail that is not fsynced is lost in a failure, or more of the
file is fsynced. -/
inductive LogStore.Grows {ι κ : Type} (base : Nat) (s s' : LogStore ι κ) : Prop where
  | appended (es : List (LogEntry κ)) (hrecs : s'.recs = s.recs ++ es)
      (hsynced : s'.synced = s.synced) (hes : ∀ e ∈ es, base < e.index)
  | cut (j : Nat) (hj : s.synced ≤ j) (hrecs : s'.recs = s.recs.take j)
      (hsynced : s'.synced = s.synced)
  | fsynced (hrecs : s'.recs = s.recs) (hsynced : s.synced ≤ s'.synced)

namespace NodeCore

/-- How far an install has come with the log: the log in memory is the old one, or it was
replaced by `kept` when the file had `records` records, and the file with it or not. -/
inductive Progress (κ : Type) where
  | started
  | replaced (kept : List (LogEntry κ)) (rewritten : Bool) (records : Nat)

variable {ι κ : Type} {n n' c c' : NodeCore ι κ} {m : SnapshotMeta ι}
  {image : List (LogEntry κ)} {p : Progress κ}

/-- What leaves the snapshot and the install alone. -/
structure Beside (c c' : NodeCore ι κ) : Prop where
  boot : c'.boot = c.boot
  snapFile : c'.snapFile = c.snapFile
  install : c'.install = c.install
  base : c'.lastIncludedIndex = c.lastIncludedIndex
  renamed : c'.store.renamed = c.store.renamed
  grows : c.store.Grows c.lastIncludedIndex c'.store

/-- What may happen between the stages: anything beside the install that leaves a log
without a gap. -/
structure Meanwhile (c c' : NodeCore ι κ) : Prop extends Beside c c' where
  contiguous : c'.Contiguous

/-- The log file is replaced for good. -/
def swaps (s : LogStore ι κ) (w : LogStore.RewriteOutcome) : Bool :=
  !s.closed && (w = .done || w = .reopenFailed)

/-- The states that a node passes through while it installs a verified snapshot. -/
inductive Installing [DecidableEq ι] [CommandCodec ι κ] (n : NodeCore ι κ) :
    NodeCore ι κ → Progress κ → Prop where
  | verified : Installing n n .started
  | rename {c : NodeCore ι κ} (h : Installing n c .started) (o : ReplaceOutcome) :
      Installing n (c.installRename o).1 .started
  | replaceLog {c : NodeCore ι κ} {m : SnapshotMeta ι} (h : Installing n c .started)
      (hc : c.install = some (m, .renamed)) (w : LogStore.RewriteOutcome) :
      Installing n (c.installLog w).1
        (.replaced (c.keptLog m) (swaps c.store w) (c.installLog w).1.store.recs.length)
  | restore {c : NodeCore ι κ} {p : Progress κ} (h : Installing n c p) :
      Installing n c.installRestored.1 p
  | meanwhile {c c' : NodeCore ι κ} {p : Progress κ} (h : Installing n c p)
      (hstep : Meanwhile c c') : Installing n c' p

/-- A node that is about to install a newer snapshot than the one it has on disk.  Its
log file may hold more or less than its memory, fsynced or not. -/
structure Begins (n : NodeCore ι κ) (m : SnapshotMeta ι) : Prop where
  install : n.install = some (m, .verified)
  ahead : n.lastIncludedIndex < m.index
  aheadOnDisk : n.snapIndex < m.index
  contiguous : n.Contiguous
  positive : ∀ e ∈ n.store.recs, 0 < e.index
  placed : n.store.renamed = []

/-- The log file at a stage of the install. -/
def Progress.File (m : SnapshotMeta ι) (s : LogStore ι κ) : Progress κ → Prop
  | .started => s.renamed = []
  | .replaced kept rewritten records => IndexedFrom (m.index + 1) kept ∧
      (∀ e ∈ s.recs.drop records, m.index < e.index) ∧ (∀ file ∈ s.renamed, file = kept) ∧
      (rewritten = true → s.recs.take records = kept ∧ records = kept.length ∧
        records ≤ s.synced ∧ s.renamed = [])

/-- The snapshot file and the position of the log at a stage of the install. -/
def Progress.Position (n : NodeCore ι κ) (m : SnapshotMeta ι) (c : NodeCore ι κ) :
    Progress κ → Prop
  | .started => c.lastIncludedIndex < m.index ∧
      (c.snapFile = n.snapFile ∨ c.snapFile = some m) ∧
      ∀ m', c.install = some (m', .renamed) → c.snapFile = some m
  | .replaced .. => c.snapFile = some m ∧ c.lastIncludedIndex = m.index

/-- The invariant of an install: what is on disk at each stage. -/
structure InstallInv (n : NodeCore ι κ) (m : SnapshotMeta ι) (c : NodeCore ι κ)
    (p : Progress κ) : Prop where
  boot : c.boot = n.boot
  header : ∀ m' stage, c.install = some (m', stage) → m' = m
  contiguous : c.Contiguous
  positive : ∀ e ∈ c.store.recs, 0 < e.index
  file : p.File m c.store
  position : p.Position n m c

theorem Begins.inv (h : n.Begins m) : InstallInv n m n .started where
  boot := rfl
  header m' stage hm := by
    rw [h.install] at hm
    exact (congrArg Prod.fst (some.inj hm)).symm
  contiguous := h.contiguous
  positive := h.positive
  file := h.placed
  position := ⟨h.ahead, .inl rfl, fun m' hm => by
    rw [h.install] at hm
    cases hm⟩

namespace InstallInv

theorem ended (h : InstallInv n m c p) (req : SnapshotRequest ι) (ok : Bool) :
    InstallInv n m (c.installEnd req ok).1 p := by
  have hend : (c.installEnd req ok).1 = { c with
      install := none, recv := (c.installEnd req ok).1.recv } := by
    rw [installEnd]
    split <;> rfl
  rw [hend]
  refine { h with header := by rintro _ _ ⟨⟩, position := ?_ }
  cases p with
  | started => exact ⟨h.position.1, h.position.2.1, by rintro _ ⟨⟩⟩
  | replaced => exact h.position

theorem rename (h : InstallInv n m c .started) (o : ReplaceOutcome) :
    InstallInv n m (c.installRename o).1 .started := by
  rw [installRename]
  split
  next req _ m' _ hverified =>
    obtain rfl := h.header m' _ hverified
    cases o with
    | done =>
      exact { h with
        header := by
          rintro _ _ ⟨⟩
          rfl
        position := ⟨h.position.1, .inr rfl, fun _ _ => rfl⟩ }
    | failed => exact h.ended req false
    | failedRenamed =>
      exact ended (c := { c with snapFile := some m' })
        { h with position := ⟨h.position.1, .inr rfl, fun _ _ => rfl⟩ } req false
  · exact h

theorem store_rewriteLog [DecidableEq ι] (n : NodeCore ι κ) (w : LogStore.RewriteOutcome) :
    (n.rewriteLog w).store = (n.store.rewrite n.log w).1 := by
  simp only [rewriteLog]
  split
  · split
    · rw [maybeAdvanceCommit]
      split <;> rfl
    · rfl
  · rfl

/-- What a rewrite leaves of the file, by whether it replaces it for good. -/
theorem rewrite_swaps (s : LogStore ι κ) (entries : List (LogEntry κ))
    (w : LogStore.RewriteOutcome) :
    (swaps s w = true ∧ (s.rewrite entries w).1.recs = entries ∧
        (s.rewrite entries w).1.synced = entries.length ∧ (s.rewrite entries w).1.renamed = []) ∨
      (swaps s w = false ∧ (s.rewrite entries w).1.recs = s.recs ∧
        ∀ file ∈ (s.rewrite entries w).1.renamed, file ∈ s.renamed ∨ file = entries) := by
  cases hclosed : s.closed with
  | true => exact .inr (by simp +contextual [swaps, LogStore.rewrite, hclosed])
  | false =>
    cases w with
    | done | reopenFailed =>
      exact .inl (by simp [swaps, LogStore.rewrite, LogStore.replaced, hclosed])
    | failed => exact .inr (by simp +contextual [swaps, LogStore.rewrite, hclosed])
    | failedRenamed =>
      refine .inr ⟨by simp [swaps], by simp [LogStore.rewrite, hclosed], fun file hfile => ?_⟩
      simp only [LogStore.rewrite, hclosed, Bool.false_eq_true, if_false, mem_cons] at hfile
      exact hfile.symm

theorem replaceLog [DecidableEq ι] [CommandCodec ι κ] {m' : SnapshotMeta ι} (h : InstallInv n m c .started)
    (hc : c.install = some (m', .renamed)) (w : LogStore.RewriteOutcome) :
    InstallInv n m (c.installLog w).1
      (.replaced (c.keptLog m') (swaps c.store w) (c.installLog w).1.store.recs.length) := by
  obtain rfl := h.header m' _ hc
  obtain ⟨hahead, -, hrenamed⟩ := h.position
  have hkept := (h.contiguous.keptLog (Nat.le_of_lt hahead)).2
  have hplaced : c.store.renamed = [] := h.file
  have hstore : (c.installLog w).1.store = (c.store.rewrite (c.keptLog m') w).1 := by
    rw [installLog, hc]
    refine (store_rewriteLog _ w).trans ?_
    rw [NodeCore.replaceLog, refreshConfigFromLog_eq]
    rfl
  obtain ⟨store, d, i, mk, heq, -⟩ := (({ c with install := some (m', .logReplaced) } :
    NodeCore ι κ).replaceLog m').exists_rewriteLog w
  have hfields : (c.installLog w).1.boot = c.boot ∧ (c.installLog w).1.snapFile = c.snapFile ∧
      (c.installLog w).1.install = some (m', .logReplaced) ∧
      (c.installLog w).1.lastIncludedIndex = m'.index ∧
      (c.installLog w).1.log = c.keptLog m' := by
    rw [installLog, hc]
    dsimp only
    rw [heq, NodeCore.replaceLog, refreshConfigFromLog_eq]
    exact ⟨rfl, rfl, rfl, rfl, rfl⟩
  obtain ⟨hboot, hsnap, hinst, hbase, hlog⟩ := hfields
  have hswaps := rewrite_swaps c.store (c.keptLog m') w
  rw [← hstore] at hswaps
  refine ⟨hboot.trans h.boot, fun x stage hx => ?_, ?_, ?_, ⟨hkept, ?_, ?_, ?_⟩,
    hsnap.trans (hrenamed m' hc), hbase⟩
  · rw [hinst] at hx
    exact (congrArg Prod.fst (some.inj hx)).symm
  · rw [Contiguous, hbase, hlog]
    exact hkept
  · rcases hswaps with ⟨-, hrecs, -⟩ | ⟨-, hrecs, -⟩
    · rw [hrecs]
      intro e he
      have := (hkept.mem_bounds he).1
      omega
    · rw [hrecs]
      exact h.positive
  · rw [drop_length]
    intro e he
    cases he
  · intro file hfile
    rcases hswaps with ⟨-, -, -, hnone⟩ | ⟨-, -, hfiles⟩
    · rw [hnone] at hfile
      cases hfile
    · rcases hfiles file hfile with hold | hnew
      · rw [hplaced] at hold
        cases hold
      · exact hnew
  · intro hrewritten
    rcases hswaps with ⟨-, hrecs, hsynced, hnone⟩ | ⟨hkeeps, -⟩
    · rw [hrecs, take_length]
      exact ⟨rfl, rfl, Nat.le_of_eq hsynced.symm, hnone⟩
    · rw [hkeeps] at hrewritten
      cases hrewritten

theorem restore (h : InstallInv n m c p) : InstallInv n m c.installRestored.1 p := by
  rw [installRestored]
  split
  next m' _ _ =>
    exact ended (c := { c with
      lastApplied := max c.lastApplied m'.index
      records := if c.appliedSM
        then { index := m'.index, term := m'.term, restoring := false } :: c.records
        else c.records }) { h with } _ true
  · exact h

theorem meanwhile (h : InstallInv n m c p) (hstep : Meanwhile c c') : InstallInv n m c' p where
  boot := hstep.boot.trans h.boot
  header := by
    rw [hstep.install]
    exact h.header
  contiguous := hstep.contiguous
  positive := by
    rcases hstep.grows with ⟨es, hrecs, -, hes⟩ | ⟨j, -, hrecs, -⟩ | ⟨hrecs, -⟩
    · rw [hrecs]
      intro e he
      rcases mem_append.1 he with he | he
      · exact h.positive e he
      · exact Nat.zero_lt_of_lt (hes e he)
    · rw [hrecs]
      exact fun e he => h.positive e (mem_of_mem_take he)
    · rw [hrecs]
      exact h.positive
  file := by
    cases p with
    | started => exact hstep.renamed.trans h.file
    | replaced kept rewritten records =>
      obtain ⟨hkept, hsince, hfiles, hrewritten⟩ := h.file
      obtain ⟨-, hbase⟩ := h.position
      refine ⟨hkept, ?_, ?_, ?_⟩
      · rcases hstep.grows with ⟨es, hrecs, -, hes⟩ | ⟨j, -, hrecs, -⟩ | ⟨hrecs, -⟩
        · rw [hrecs, drop_append]
          intro e he
          rcases mem_append.1 he with he | he
          · exact hsince e he
          · exact hbase ▸ hes e (mem_of_mem_drop he)
        · rw [hrecs, drop_take]
          exact fun e he => hsince e (mem_of_mem_take he)
        · rw [hrecs]
          exact hsince
      · rw [hstep.renamed]
        exact hfiles
      · intro hr
        obtain ⟨htake, hlen, hsynced, hnone⟩ := hrewritten hr
        have hle : records ≤ c.store.recs.length := by
          have := congrArg length htake
          rw [length_take] at this
          omega
        rw [hstep.renamed]
        rcases hstep.grows with ⟨es, hrecs, hsame, -⟩ | ⟨j, hj, hrecs, hsame⟩ | ⟨hrecs, hmore⟩
        · rw [hrecs, take_append_of_le_length hle, hsame]
          exact ⟨htake, hlen, hsynced, hnone⟩
        · rw [hrecs, take_take, Nat.min_eq_left (by omega), hsame]
          exact ⟨htake, hlen, hsynced, hnone⟩
        · rw [hrecs]
          exact ⟨htake, hlen, by omega, hnone⟩
  position := by
    cases p with
    | started =>
      obtain ⟨hahead, hfile, hrenamed⟩ := h.position
      refine ⟨?_, ?_, fun m' hm => ?_⟩
      · rw [hstep.base]
        exact hahead
      · rw [hstep.snapFile]
        exact hfile
      · rw [hstep.install] at hm
        rw [hstep.snapFile]
        exact hrenamed m' hm
    | replaced => exact ⟨hstep.snapFile.trans h.position.1, hstep.base.trans h.position.2⟩

end InstallInv

theorem Installing.inv [DecidableEq ι] [CommandCodec ι κ] (h : n.Installing c p) (hn : n.Begins m) :
    InstallInv n m c p := by
  induction h with
  | verified => exact hn.inv
  | rename _ o ih => exact ih.rename o
  | replaceLog _ hc w ih => exact ih.replaceLog hc w
  | restore _ ih => exact ih.restore
  | meanwhile _ hstep ih => exact ih.meanwhile hstep

/-! ## Requests and the syncer between the stages -/

/-- The log file is as it was. -/
theorem Beside.of_store (hboot : c'.boot = c.boot) (hsnap : c'.snapFile = c.snapFile)
    (hinst : c'.install = c.install) (hbase : c'.lastIncludedIndex = c.lastIncludedIndex)
    (hstore : c'.store = c.store) : Beside c c' :=
  ⟨hboot, hsnap, hinst, hbase, by rw [hstore], by
    rw [hstore]
    exact .fsynced rfl (Nat.le_refl _)⟩

theorem Beside.of_votingOnly {c₀ : NodeCore ι κ} (hvoting : VotingOnly n c₀) (h : Beside c₀ c) :
    Beside n c := by
  obtain ⟨_, _, _, _, _, _, _, _, _, rfl⟩ := hvoting
  refine ⟨h.boot, h.snapFile, h.install, h.base, h.renamed, ?_⟩
  rcases h.grows with ⟨es, hrecs, hsynced, hes⟩ | ⟨j, hj, hrecs, hsynced⟩ | ⟨hrecs, hsynced⟩
  · exact .appended es hrecs hsynced hes
  · exact .cut j hj hrecs hsynced
  · exact .fsynced hrecs hsynced

theorem beside_syncWrite (n : NodeCore ι κ) (idx term : Nat) (o : WriteOutcome) :
    Beside n (n.syncWrite idx term o) := by
  simp only [syncWrite]
  repeat' split
  · exact .of_store rfl rfl rfl rfl rfl
  · exact .of_store rfl rfl rfl rfl rfl
  · exact .of_store rfl rfl rfl rfl rfl
  · exact .of_store rfl rfl rfl rfl rfl
  · exact ⟨rfl, rfl, rfl, rfl, rfl, .cut _ (Nat.le_max_left _ _) rfl rfl⟩

theorem beside_syncFsync (n : NodeCore ι κ) (idx term covered gen : Nat) (ok : Bool) :
    Beside n (n.syncFsync idx term covered gen ok) := by
  rw [syncFsync]
  repeat' split
  · exact .of_store rfl rfl rfl rfl rfl
  · exact ⟨rfl, rfl, rfl, rfl, rfl, .fsynced rfl (Nat.le_max_left _ _)⟩
  · exact ⟨rfl, rfl, rfl, rfl, rfl, .cut _ (Nat.le_max_left _ _) rfl rfl⟩

section

variable [CommandCodec ι κ] {req : AppendRequest ι κ} {entries : List (LogEntry κ)} {prev : Nat}

theorem Appended.beside {ok : Bool} (h : Appended n prev entries c ok)
    (hprev : n.lastIncludedIndex ≤ prev) (hent : IndexedFrom (prev + 1) entries) : Beside n c := by
  cases h with
  | known => exact .of_store rfl rfl rfl rfl rfl
  | superseded k =>
    refine ⟨rfl, rfl, rfl, rfl, rfl, .appended _ rfl rfl fun e he => ?_⟩
    have := (hent.mem_bounds (mem_of_mem_drop he)).1
    omega
  | refused => exact .of_store rfl rfl rfl rfl rfl

theorem Handled.beside {answer : AppendEntriesReply ⊕ AeWaiter ι κ} (h : Handled n req c answer)
    (hn : n.Contiguous) (hent : IndexedFrom (req.args.prevLogIndex + 1) req.args.entries) :
    Beside n c := by
  cases h with
  | covered | refused => exact .of_store rfl rfl rfl rfl rfl
  | unqueued hmatched happended =>
    exact happended.beside (hmatched.bounds hn).1 (hmatched.indexedFrom hent).1
  | appended hmatched happended =>
    exact { happended.beside (hmatched.bounds hn).1 (hmatched.indexedFrom hent).1 with }

variable [DecidableEq ι]

theorem Durable.beside_handleAppendEntries (h : n.Durable)
    (hent : IndexedFrom (req.args.prevLogIndex + 1) req.args.entries) (o o' : ReplaceOutcome) :
    Beside n (n.handleAppendEntries req o o').1 := by
  have hbeside : Beside n (n.appendEntries req o o').1 := by
    have hvoting := VotingOnly.acceptLeader n req.args.term o o'
    have hacc := hvoting.durable h
    simp only [NodeCore.appendEntries]
    refine .of_votingOnly hvoting ?_
    split
    · exact (handled_appendMatched hacc.contiguous hacc.durable_le req).beside hacc.contiguous hent
    · exact .of_store rfl rfl rfl rfl rfl
  simp only [NodeCore.handleAppendEntries]
  split
  next heq =>
    rw [heq] at hbeside
    exact { hbeside with }
  next heq =>
    rw [heq] at hbeside
    exact { hbeside with }

theorem beside_syncFinish (n : NodeCore ι κ) (idx term : Nat) (result : Option Bool) :
    Beside n (n.syncFinish idx term result).1 := by
  rcases result with _ | _ | _
  · exact .of_store rfl rfl rfl rfl rfl
  · simp only [syncFinish, onPersistFailure, refreshConfigFromLog_eq]
    repeat' split
    all_goals exact .of_store rfl rfl rfl rfl rfl
  · simp only [syncFinish, markDurable, maybeAdvanceCommit]
    repeat' split
    all_goals exact .of_store rfl rfl rfl rfl rfl

/-- Events that neither rewrite the log file nor restart the node. -/
def LogEvent.runsOn : LogEvent ι κ → Bool
  | .compact _ | .install _ | .restart .. => false
  | _ => true

/-- Requests, leader appends and syncer steps may happen between the stages. -/
theorem Durable.meanwhile (h : n.Durable) (ev : LogEvent ι κ)
    {replies : List (AppendRequest ι κ × AppendEntriesReply)} (hruns : ev.runsOn = true)
    (hadmits : n.Admits ev) (hcovered : n.Covered ev)
    (hev : n.onLogEvent ev = some (n', replies)) : Meanwhile n n' := by
  refine ⟨?_, (h.onLogEvent hadmits hcovered hev).contiguous⟩
  cases ev with
  | accept req o o' =>
    have hbeside := h.beside_handleAppendEntries hadmits.1 o o'
    rwa [show (n.handleAppendEntries req o o').1 = n' from congrArg Prod.fst (some.inj hev)]
      at hbeside
  | append entries =>
    obtain ⟨c, hc, heq⟩ := map_eq_some_iff.1 hev
    cases heq
    obtain ⟨store, hstore, rfl⟩ := map_eq_some_iff.1 hc
    obtain ⟨rfl, -⟩ := LogStore.enqueue_some hstore
    refine ⟨rfl, rfl, rfl, rfl, rfl, .appended _ rfl rfl fun e he => ?_⟩
    have hlow := (hadmits.1.mem_bounds he).1
    have hlast := h.contiguous.lastLogIndex_eq
    omega
  | capture =>
    simp only [NodeCore.onLogEvent] at hev
    split at hev
    · cases hev
      exact .of_store rfl rfl rfl rfl rfl
    · cases hev
  | write o =>
    simp only [NodeCore.onLogEvent] at hev
    split at hev
    · cases hev
      exact n.beside_syncWrite _ _ o
    · cases hev
  | fsync ok =>
    simp only [NodeCore.onLogEvent] at hev
    split at hev
    · cases hev
      exact n.beside_syncFsync _ _ _ _ ok
    · cases hev
  | finish =>
    simp only [NodeCore.onLogEvent] at hev
    split at hev
    next idx term result _ =>
      have hbeside := n.beside_syncFinish idx term result
      rwa [some.inj hev] at hbeside
    · cases hev
  | compact | install | restart => cases hruns

end

/-! ## Recovery -/

variable [CommandCodec ι κ]

end NodeCore

end VeltrixDB.Consensus
