import VeltrixDB.Consensus.Election
import VeltrixDB.Consensus.Contiguous
import VeltrixDB.Consensus.LogStore
import VeltrixDB.Lib.Lineage

/-!
# Log matching

Leaders make entries after the ends of their logs, and every other log is put
together from pieces of theirs: by AppendEntries, by truncation, and by replay of
what a crash left of the log file.  With one leader a term, index and term of an
entry tell the entry and the one before it.

Main results:

- Definition `LogView.Linked`: memory and file hold chains of entries.
- Theorem `NodeStep.change`: what an elementary step does to the log.
- Theorem `LogsLinked.step`: elementary steps keep the chains.
- Theorem `Cluster.Reachable.log_matching`: two logs with an entry of one index
  and term agree up to it.
-/

namespace VeltrixDB.Consensus

open List Lineage NodeCore

variable {ι κ : Type} {made made' : LogEntry κ → Nat × Nat → Prop}

/-! ## Chains of entries -/

/-- An entry is known by its index and term. -/
def LogEntry.mark (e : LogEntry κ) : Nat × Nat := (e.index, e.term)

/-- The entries follow one another from the mark `b` on. -/
abbrev Links (made : LogEntry κ → Nat × Nat → Prop) (b : Nat × Nat) (es : List (LogEntry κ)) : Prop :=
  Chain LogEntry.mark (fun e b => made e b ∧ e.index = b.1 + 1) b es

theorem Links.indexedFrom {b : Nat × Nat} {es : List (LogEntry κ)} (h : Links made b es) :
    IndexedFrom (b.1 + 1) es := by
  induction es generalizing b with
  | nil => trivial
  | cons e es ih =>
    have hrest := ih h.2
    rw [LogEntry.mark, h.1.2] at hrest
    exact ⟨h.1.2, hrest⟩

theorem Links.endMark_fst {b : Nat × Nat} {es : List (LogEntry κ)} (h : Links made b es) :
    (endMark LogEntry.mark b es).1 = b.1 + es.length := by
  induction es generalizing b with
  | nil => rfl
  | cons e es ih =>
    rw [endMark, ih h.2, LogEntry.mark, h.1.2, length_cons]
    omega

theorem links_of_indexedFrom {b : Nat × Nat} {es : List (LogEntry κ)} (h : IndexedFrom (b.1 + 1) es) :
    Chain LogEntry.mark (fun e b => e.index = b.1 + 1) b es := by
  induction es generalizing b with
  | nil => trivial
  | cons e es ih =>
    refine ⟨h.1, ih ?_⟩
    rw [LogEntry.mark, h.1]
    exact h.2

theorem nodup_mark {first : Nat} {es : List (LogEntry κ)} (h : IndexedFrom first es) :
    (es.map LogEntry.mark).Nodup := by
  induction es generalizing first with
  | nil => exact nodup_nil
  | cons e es ih =>
    rw [map_cons, nodup_cons]
    refine ⟨fun hmem => ?_, ih h.2⟩
    obtain ⟨d, hd, hmark⟩ := mem_map.mp hmem
    have hindex : d.index = e.index := congrArg Prod.fst hmark
    have hlater := (h.2.mem_bounds hd).1
    have hfirst := h.1
    omega

theorem indexedFrom_mapIdx {α : Type} {f : Nat → α → LogEntry κ} {first : Nat}
    (hf : ∀ i a, (f i a).index = first + i) (l : List α) : IndexedFrom first (l.mapIdx f) := by
  induction l generalizing f first with
  | nil => trivial
  | cons a l ih =>
    rw [mapIdx_cons]
    refine ⟨hf 0 a, ih fun i b => ?_⟩
    rw [hf]
    omega

/-- The parts of a core that hold entries, and those that tell of snapshots. -/
structure LogView (ι κ : Type) where
  log : List (LogEntry κ)
  recs : List (LogEntry κ)
  renamed : List (List (LogEntry κ))
  broken : Bool
  sync : SyncPhase
  lastIncludedIndex : Nat
  snapFile : Option (SnapshotMeta ι)
  capture : CapturePhase ι
  recv : Option (SnapshotRequest ι × Option Bool)
  install : Option (SnapshotMeta ι × InstallStage)

/-- The log, its file, and whether the store refuses records. -/
def NodeCore.logView (n : NodeCore ι κ) : LogView ι κ where
  log := n.log
  recs := n.store.recs
  renamed := n.store.renamed
  broken := n.store.failed || n.store.closed
  sync := n.sync
  lastIncludedIndex := n.lastIncludedIndex
  snapFile := n.snapFile
  capture := n.capture
  recv := n.recv
  install := n.install

/-- Without snapshots, the log and what replay makes of any part of its file are
chains, and a store that takes records has the whole log. -/
structure LogView.Linked (made : LogEntry κ → Nat × Nat → Prop) (v : LogView ι κ) : Prop where
  base : v.lastIncludedIndex = 0
  snapFile : v.snapFile = none
  capture : ∀ m, v.capture ≠ .installed m
  recv : v.recv = none
  install : v.install = none
  log : Links made (0, 0) v.log
  recs : ∀ k, Links made (0, 0) (replayRecords (v.recs.take k)).entries
  placed : v.renamed = []
  held : v.broken = false → (replayRecords v.recs).entries = v.log
  failing : ∀ idx term, v.sync = .flushed idx term (some false) → v.broken = true

/-- The entries of a request continue the entry in front of them. -/
def Message.Linked (made : LogEntry κ → Nat × Nat → Prop) : Message ι κ → Prop
  | .append _ req => (req.args.prevLogIndex = 0 → req.args.prevLogTerm = 0) ∧
    Links made (req.args.prevLogIndex, req.args.prevLogTerm) req.args.entries
  | .snapshot .. => False
  | _ => True

namespace LogView.Linked

variable {v : LogView ι κ} (h : v.Linked made)
include h

theorem mono (hsub : ∀ e b, made e b → made' e b) : v.Linked made' :=
  { h with
    log := h.log.mono fun e b he => ⟨hsub e b he.1, he.2⟩
    recs := fun k => (h.recs k).mono fun e b he => ⟨hsub e b he.1, he.2⟩ }

/-- The store refuses records, and the log changes in memory. -/
theorem inMemory {log : List (LogEntry κ)} (hlog : Links made (0, 0) log) (hbroken : v.broken = true) :
    ({ v with log := log } : LogView ι κ).Linked made :=
  { h with
    log := hlog
    held := fun hok => absurd (hbroken.symm.trans hok) (by simp) }

/-- The store breaks; records that were not synced may be lost. -/
theorem torn (k : Nat) (sync : SyncPhase) :
    ({ v with recs := v.recs.take k, broken := true, sync := sync } : LogView ι κ).Linked made :=
  { h with
    recs := fun m => by
      rw [take_take]
      exact h.recs _
    held := nofun
    failing := fun _ _ _ => rfl }

theorem resync {sync : SyncPhase} (hsync : ∀ idx term, sync ≠ .flushed idx term (some false)) :
    ({ v with sync := sync } : LogView ι κ).Linked made :=
  { h with failing := fun idx term hflushed => absurd hflushed (hsync idx term) }

/-- Entries supersede the log after the first `k`, in memory and in the file. -/
theorem supersede {k : Nat} {es : List (LogEntry κ)} (hk : k ≤ v.log.length)
    (hne : es ≠ [] ∨ k = v.log.length) (hok : v.broken = false)
    (hes : Links made (endMark LogEntry.mark (0, 0) (v.log.take k)) es) :
    ({ v with log := v.log.take k ++ es, recs := v.recs ++ es } : LogView ι κ).Linked made := by
  have hlog := h.log.indexedFrom
  have hindexed := hes.indexedFrom
  rw [(show Links made (0, 0) (v.log.take k) from h.log.take k).endMark_fst, length_take_of_le hk]
    at hindexed
  have hreplay : ∀ j, j ≠ 0 → es ≠ [] → (replayRecords (v.recs ++ es.take j)).entries =
      v.log.take k ++ es.take j := by
    intro j hj hes
    have hbatch := foldl_overwrite_batch hlog (hindexed.take j) (by simp [hj, hes])
      (.inr (by omega))
    rw [replayRecords, foldl_append]
    change (foldl replayRecord (replayRecords v.recs) _).entries = _
    have hstate : replayRecords v.recs =
        { entries := v.log, gapFrom := (replayRecords v.recs).gapFrom } := by
      rw [← h.held hok]
    rw [hstate, foldl_replayRecord_eq hlog hbatch.1]
    simpa using hbatch.2
  refine { h with log := chain_append.mpr ⟨h.log.take k, hes⟩, recs := fun m => ?_, held := fun _ => ?_ }
  · rw [take_append]
    by_cases hm : m - v.recs.length = 0 ∨ es = []
    · have hnil : es.take (m - v.recs.length) = [] := by
        rcases hm with hm | rfl
        · rw [hm, take_zero]
        · exact take_nil
      rw [hnil, append_nil]
      exact h.recs m
    · rw [not_or] at hm
      rw [take_of_length_le (by omega), hreplay _ hm.1 hm.2]
      exact chain_append.mpr ⟨h.log.take k, hes.take _⟩
  · by_cases hnil : es = []
    · rw [hnil, append_nil, append_nil, hne.resolve_left (fun hne => hne hnil), take_length]
      exact h.held hok
    · have hall := hreplay es.length (by simpa using hnil) hnil
      rwa [take_length] at hall

end LogView.Linked

theorem Message.Linked.mono {msg : Message ι κ} (h : msg.Linked made)
    (hsub : ∀ e b, made e b → made' e b) : msg.Linked made' := by
  cases msg with
  | append => exact ⟨h.1, h.2.mono fun e b he => ⟨hsub e b he.1, he.2⟩⟩
  | snapshot => exact h
  | _ => trivial

/-! ## Functions that leave the log alone -/

theorem LogStore.enqueue_of_ne_nil {s : LogStore ι κ} {es : List (LogEntry κ)} (hne : es ≠ []) :
    s.enqueue es = if s.failed || s.closed then none else some { s with recs := s.recs ++ es } := by
  rw [enqueue, if_neg (by simpa using hne), Bool.or_comm]

namespace NodeCore

section

variable (n : NodeCore ι κ)

theorem VotingOnly.logView {n n' : NodeCore ι κ} (h : VotingOnly n n') : n'.logView = n.logView := by
  obtain ⟨_, _, _, _, _, _, _, _, _, rfl⟩ := h
  rfl

theorem logView_gather : n.gather.logView = n.logView := by
  rw [gather]
  split <;> rfl

theorem logView_acknowledge (req : AppendRequest ι κ) (target : Nat) (heartbeat : Bool) :
    (n.acknowledge req target heartbeat).1.logView = n.logView := by
  simp only [acknowledge]
  repeat' split
  all_goals rfl

section

variable [CommandCodec ι κ]

theorem logView_refreshConfigFromLog : n.refreshConfigFromLog.logView = n.logView := by
  obtain ⟨_, _, heq⟩ := exists_refreshConfigFromLog n
  rw [heq]
  rfl

theorem snapFile_refreshConfigFromLog : n.refreshConfigFromLog.snapFile = n.snapFile :=
  congrArg LogView.snapFile n.logView_refreshConfigFromLog

theorem logView_applySome : n.applySome.logView = n.logView := by
  rw [applySome]
  split
  · rfl
  · split <;> rfl

end

variable [DecidableEq ι]

theorem VotingOnly.castVote (candidate : ι) (o : ReplaceOutcome) :
    VotingOnly n (n.castVote candidate o).1 := by
  have hsave := VotingOnly.persistMeta { n with votedFor := some candidate } o
  obtain ⟨_, _, _, _, _, _, _, _, _, heq⟩ := hsave
  simp only [NodeCore.castVote, heq]
  split <;> exact ⟨_, _, _, _, _, _, _, _, _, rfl⟩

theorem VotingOnly.handleRequestVote (args : RequestVoteArgs ι) (contact : Bool)
    (o o' o'' : ReplaceOutcome) : VotingOnly n (n.handleRequestVote args contact o o' o'').1 := by
  have hterm := VotingOnly.acceptTerm n args.term o o'
  simp only [NodeCore.handleRequestVote]
  repeat' split
  all_goals first
    | exact .refl n
    | exact hterm
    | exact hterm.trans (.castVote _ _ _)

theorem VotingOnly.campaign (o : ReplaceOutcome) : VotingOnly n (n.campaign o).1 := by
  have hsave := VotingOnly.persistMeta
    { n with currentTerm := n.currentTerm + 1, votedFor := some n.id } o
  obtain ⟨_, _, _, _, _, _, _, _, _, heq⟩ := hsave
  simp only [NodeCore.campaign, heq]
  split <;> exact ⟨_, _, _, _, _, _, _, _, _, rfl⟩

@[simp] theorem logView_maybeAdvanceCommit : n.maybeAdvanceCommit.logView = n.logView := by
  rw [maybeAdvanceCommit]
  split <;> rfl

theorem logView_markDurable (idx term : Nat) : (n.markDurable idx term).logView = n.logView := by
  rw [markDurable]
  split
  · rfl
  · dsimp only
    split
    · exact logView_maybeAdvanceCommit _
    · rfl

theorem logView_finishApplied : n.finishApplied.logView = n.logView := by
  rw [finishApplied]
  split
  · rfl
  · simp only [onConfigCommitted]
    repeat' split
    all_goals rfl

/-- A request is refused without effect, or the node follows. -/
theorem acceptLeader_cases (term : Nat) (o o' : ReplaceOutcome) :
    n.acceptLeader term o o' = (n, false) ∨ (n.acceptLeader term o o').1.role = .follower := by
  simp only [acceptLeader, acceptTerm]
  split
  · exact .inl rfl
  · refine .inr ?_
    by_cases hterm : n.currentTerm < term
    · simp only [if_pos hterm]
      split <;> rfl
    · simp only [if_neg hterm, if_true]

variable [CommandCodec ι κ]

/-- Besides the answers that wait, AppendEntries leaves what its first half leaves. -/
theorem handleAppendEntries_fst (req : AppendRequest ι κ) (o o' : ReplaceOutcome) :
    ∃ ws, (n.handleAppendEntries req o o').1 =
      { (n.appendEntries req o o').1 with aeWaiters := ws } := by
  rw [handleAppendEntries]
  split
  next heq =>
    rw [heq]
    exact ⟨_, rfl⟩
  next heq =>
    rw [heq]
    exact ⟨_, rfl⟩

end

/-! ## The append loop -/

section

variable {n : NodeCore ι κ} (h : n.logView.Linked made)
include h

theorem Linked.contiguous : n.Contiguous := by
  have hlog := h.log.indexedFrom
  have hbase : n.lastIncludedIndex = 0 := h.base
  rwa [Contiguous, hbase]

theorem Linked.lastLogIndex_eq : n.lastLogIndex = n.log.length := by
  have hbase : n.lastIncludedIndex = 0 := h.base
  rw [(Linked.contiguous h).lastLogIndex_eq, hbase, Nat.zero_add]

theorem Linked.endMark_take {k : Nat} (hk : k ≤ n.log.length) :
    endMark LogEntry.mark (0, 0) (n.log.take k) = (k, n.logTerm k) := by
  cases k with
  | zero => rfl
  | succ k =>
    have hbase : n.lastIncludedIndex = 0 := h.base
    have hlog : IndexedFrom 1 n.log := h.log.indexedFrom
    have hindex := hlog.getElem_index k hk
    rw [take_succ_eq_append_getElem hk, endMark_append,
      (Linked.contiguous h).logTerm_eq (by omega), hbase, Nat.sub_zero, Nat.add_sub_cancel,
      getElem?_eq_getElem hk]
    simp [endMark, LogEntry.mark, hindex, Nat.add_comm]

/-- A leader sends pieces of its log. -/
theorem Linked.sends {msg : Message ι κ} (hmsg : n.Sends msg) : msg.Linked made := by
  obtain ⟨p, tag, prev, k, -, rfl⟩ := hmsg
  have hbase : n.lastIncludedIndex = 0 := h.base
  have hfrom : n.entriesFrom (prev + 1) = n.log.drop prev := by
    rw [(Linked.contiguous h).entriesFrom_eq (by omega), hbase]
    rfl
  refine ⟨fun hzero => ?_, ?_⟩
  · simp only at hzero
    simp [logTerm, hzero]
  · simp only [hfrom]
    by_cases hprev : prev ≤ n.log.length
    · have hdrop := h.log.drop prev
      rw [show n.logView.log = n.log from rfl, Linked.endMark_take h hprev] at hdrop
      exact hdrop.take k
    · rw [drop_eq_nil_of_le (by omega), take_nil]
      trivial

variable [CommandCodec ι κ]

theorem Linked.supersede {prev : Nat} {es : List (LogEntry κ)} (hprev : prev ≤ n.log.length)
    (hne : es ≠ []) (hes : Links made (prev, n.logTerm prev) es) :
    (n.supersede (prev + 1) es).1.logView.Linked made := by
  have hlast := Linked.lastLogIndex_eq h
  have hfirst : n.logFirstIndex = 1 := by
    rw [(Linked.contiguous h).logFirstIndex_eq, show n.lastIncludedIndex = 0 from h.base]
  have hcut : (n.truncateAt (prev + 1)).logView = { n.logView with log := n.log.take prev } := by
    rw [truncateAt, hfirst]
    split
    · rfl
    next hlt =>
      rw [take_of_length_le (by omega)]
      rfl
  rw [NodeCore.supersede, LogStore.enqueue_of_ne_nil hne]
  cases hbroken : n.store.failed || n.store.closed with
  | true =>
    simp only [if_true, logView_refreshConfigFromLog, hcut]
    exact h.inMemory (h.log.take prev) hbroken
  | false =>
    simp only [Bool.false_eq_true, if_false, logView_refreshConfigFromLog]
    have hnew := h.supersede hprev (.inl hne) hbroken (by
      rw [show n.logView.log = n.log from rfl, Linked.endMark_take h hprev]
      exact hes)
    have heq : ({ n.truncateAt (prev + 1) with
        log := (n.truncateAt (prev + 1)).log ++ es
        store := { n.store with recs := n.store.recs ++ es } } : NodeCore ι κ).logView =
          { n.logView with log := n.log.take prev ++ es, recs := n.store.recs ++ es } := by
      simp only [NodeCore.logView, LogView.mk.injEq] at hcut ⊢
      simp [hcut]
    rw [heq]
    exact hnew

theorem Linked.appendLoop {prev : Nat} {es : List (LogEntry κ)} (hprev : prev ≤ n.log.length)
    (hes : Links made (prev, n.logTerm prev) es) :
    (n.appendLoop prev es).1.logView.Linked made := by
  induction es generalizing prev with
  | nil => exact h
  | cons e es ih =>
    rw [NodeCore.appendLoop]
    split
    next hsame =>
      rw [Linked.lastLogIndex_eq h] at hsame
      have hrest := hes.2
      rw [LogEntry.mark, hes.1.2, ← hsame.2] at hrest
      exact ih hsame.1 hrest
    · exact Linked.supersede h hprev (by simp) hes

theorem Linked.appendMatched {dest : ι} {req : AppendRequest ι κ}
    (hreq : (Message.append dest req).Linked made) :
    (n.appendMatched req).1.logView.Linked made := by
  have hbase : n.lastIncludedIndex = 0 := h.base
  rw [NodeCore.appendMatched]
  rw [if_pos (by omega), appendChecked]
  split
  · exact h
  next hlast =>
    split
    · exact h
    next hterm =>
      rw [Linked.lastLogIndex_eq h] at hlast
      have hes : Links made (req.args.prevLogIndex, n.logTerm req.args.prevLogIndex)
          req.args.entries := by
        rcases Nat.eq_zero_or_pos req.args.prevLogIndex with hzero | hpos
        · have hlinks := hreq.2
          rw [hreq.1 hzero, hzero] at hlinks
          rwa [hzero]
        · rw [not_and, not_not] at hterm
          rw [hterm hpos]
          exact hreq.2
      have hloop := Linked.appendLoop h (by omega) hes
      simp only [appendFrom]
      split
      · rwa [logView_acknowledge]
      · exact hloop

end

variable [DecidableEq ι] [CommandCodec ι κ]

/-- A start reads back a chain. -/
theorem linked_restart {n n' : NodeCore ι κ} {recs : List (LogEntry κ)}
    {a : Option AppliedIndexState} {o : ReplaceOutcome} {w : LogStore.RewriteOutcome}
    (hnone : n.snapFile = none) (hplaced : n.store.renamed = [])
    (hrecs : ∀ k, Links made (0, 0) (replayRecords (recs.take k)).entries)
    (hrestart : n.restart recs a o w = some n') :
    n'.logView.Linked made ∧ n'.led = n.led ∧ n'.role = .follower := by
  obtain ⟨-, -, -, m, store, hm, hstore, rfl⟩ := restart_some hrestart
  have hsnap : n.snapIndex = 0 := by
    rw [snapIndex, hnone]
    rfl
  have hvoting : VotingOnly (n.loaded recs) m := by
    rw [hm, raiseTerm]
    split
    · refine VotingOnly.trans ?_ (VotingOnly.persistMeta _ o)
      exact ⟨_, _, _, _, _, _, _, _, _, rfl⟩
    · exact .refl _
  obtain ⟨_, _, _, _, _, _, _, _, _, rfl⟩ := hvoting
  have hlog : dropCovered n.snapIndex (replayRecords recs).entries =
      (replayRecords recs).entries := by
    rw [hsnap, dropCovered]
    cases hnil : (replayRecords recs).entries with
    | nil => rfl
    | cons => rfl
  have hchain : Links made (0, 0) (replayRecords recs).entries := by
    have hall := hrecs recs.length
    rwa [take_length] at hall
  obtain ⟨_, _, heq⟩ := exists_refreshConfigFromLog (ι := ι) (κ := κ) _
  rw [startup, heq]
  refine ⟨?_, rfl, rfl⟩
  -- whatever the file is now, it reads back as the log
  have hfile : ∀ (file : List (LogEntry κ)) (renamed : List (List (LogEntry κ))), renamed = [] →
      (∀ k, Links made (0, 0) (replayRecords (file.take k)).entries) →
      (replayRecords file).entries = (replayRecords recs).entries →
      (⟨dropCovered n.snapIndex (replayRecords recs).entries, file, renamed, false, .idle,
        n.snapIndex, n.snapFile, .idle, none, none⟩ : LogView ι κ).Linked made := by
    intro file renamed hrenamed hfile hheld
    rw [hlog]
    exact ⟨hsnap, hnone, by simp, rfl, rfl, hchain, hfile, hrenamed, fun _ => hheld, by simp⟩
  rcases hstore with rfl | rfl
  · exact hfile recs _ hplaced hrecs rfl
  · have hself : ∀ k, (replayRecords ((replayRecords recs).entries.take k)).entries =
        (replayRecords recs).entries.take k := fun k => by
      rw [replayRecords_of_indexedFrom (hchain.indexedFrom.take k)]
    refine hfile (dropCovered n.snapIndex (replayRecords recs).entries) _ rfl (fun k => ?_) ?_
    · rw [hlog, hself]
      exact hchain.take k
    · have hall := hself (replayRecords recs).entries.length
      rw [take_length] at hall
      rw [hlog, hall]

/-- A crash leaves a part of the file, and a start reads back a chain. -/
theorem Linked.crashRestart {n n' : NodeCore ι κ} {f : LogStore.CrashedLog}
    {a : Option AppliedIndexState} {o : ReplaceOutcome} {w : LogStore.RewriteOutcome}
    (h : n.logView.Linked made) (hrestart : n.crashRestart f a o w = some n') :
    n'.logView.Linked made ∧ n'.led = n.led ∧ n'.role = .follower := by
  have hplaced : n.store.renamed = [] := h.placed
  obtain ⟨s, hs, hrestart⟩ := Option.bind_eq_some_iff.1 hrestart
  cases f with
  | tail kept =>
    rw [LogStore.crashed] at hs
    split at hs
    · cases hs
      refine linked_restart h.snapFile hplaced (fun k => ?_) hrestart
      rw [take_take]
      exact h.recs _
    · cases hs
  | renamed i =>
    rw [LogStore.crashed, hplaced] at hs
    cases hs

end NodeCore

/-! ## What an elementary step does to the log -/

/-- Entries at the end of the log, and of a file that takes them. -/
def LogView.extend (v : LogView ι κ) (es : List (LogEntry κ)) : LogView ι κ :=
  { v with log := v.log ++ es, recs := if v.broken then v.recs else v.recs ++ es }

/-- The node follows, keeps role and term, or campaigns. -/
def Steady (n n' : NodeCore ι κ) : Prop :=
  n'.role = .follower ∨ (n'.role = n.role ∧ n'.currentTerm = n.currentTerm) ∨
    (n.role ≠ .leader ∧ n'.role ≠ .leader ∧ n.currentTerm < n'.currentTerm)

/-- A step that makes no entries leaves the log of a leader as it is. -/
structure LogMoved (made : LogEntry κ → Nat × Nat → Prop) (n n' : NodeCore ι κ) : Prop where
  linked : n'.logView.Linked made
  led : n'.led = n.led
  role : Steady n n'
  log : n'.role = .leader → n'.log = n.log

/-- A leader, perhaps since this step, makes entries at the end of its log. -/
structure LogCreated (n n' : NodeCore ι κ) (es : List (LogEntry κ)) : Prop where
  index : IndexedFrom (n.lastLogIndex + 1) es
  term : ∀ e ∈ es, e.term = n.currentTerm
  view : n'.logView = n.logView.extend es
  role : n'.role = .leader
  now : n'.currentTerm = n.currentTerm
  led : n.role = .leader ∧ n'.led = n.led ∨ n.role = .candidate ∧ n'.led = n.currentTerm :: n.led

theorem LogMoved.of_follower {n n' : NodeCore ι κ} (h : n'.logView.Linked made) (hled : n'.led = n.led)
    (hrole : n'.role = .follower) : LogMoved made n n' :=
  ⟨h, hled, .inl hrole, fun hlead => absurd (hrole.symm.trans hlead) (by simp)⟩

namespace NodeCore

section

variable {n n' : NodeCore ι κ}

theorem logView_leaderAppend {es : List (LogEntry κ)} (happend : n.leaderAppend es = some n') :
    n'.logView = n.logView.extend es := by
  obtain ⟨store, hstore, rfl⟩ := Option.map_eq_some_iff.1 happend
  by_cases hne : es = []
  · subst hne
    cases hstore
    simp [NodeCore.logView, LogView.extend]
  · rw [LogStore.enqueue_of_ne_nil hne] at hstore
    split at hstore
    · cases hstore
    next hok =>
      cases hstore
      simp [NodeCore.logView, LogView.extend, hok]

/-- The log file is written and synced.  A failure breaks the store. -/
theorem Linked.syncWrite (h : n.logView.Linked made) (idx term : Nat) (o : WriteOutcome) :
    (n.syncWrite idx term o).logView.Linked made := by
  simp only [NodeCore.syncWrite]
  split
  · exact h.resync (by simp)
  · split
    next hfailed => exact { h with failing := fun _ _ _ => by simp [NodeCore.logView, hfailed] }
    · split
      · exact h.resync (by simp)
      · cases o with
        | done => exact h.resync (by simp)
        | failed kept => exact h.torn _ _

theorem Linked.syncFsync (h : n.logView.Linked made) (idx term covered gen : Nat) (ok : Bool) :
    (n.syncFsync idx term covered gen ok).logView.Linked made := by
  rw [NodeCore.syncFsync]
  split
  · exact h.resync (by simp)
  · split
    · exact h.resync (by simp)
    · exact h.torn _ _

variable [CommandCodec ι κ] in
/-- A snapshot file stays. -/
theorem snapFile_appendLoop (n : NodeCore ι κ) (prev : Nat) (es : List (LogEntry κ)) :
    (n.appendLoop prev es).1.snapFile = n.snapFile := by
  have hcut : ∀ i, (n.truncateAt i).snapFile = n.snapFile := by
    intro i
    rw [truncateAt]
    split <;> rfl
  induction es generalizing prev with
  | nil => rfl
  | cons e es ih =>
    rw [NodeCore.appendLoop]
    split
    · exact ih _
    · rw [NodeCore.supersede]
      split
      · rw [snapFile_refreshConfigFromLog]
        exact hcut _
      · rw [snapFile_refreshConfigFromLog, hcut]

variable [DecidableEq ι]

theorem steady_handleRequestVote (n : NodeCore ι κ) (args : RequestVoteArgs ι) (contact : Bool)
    (o o' o'' : ReplaceOutcome) : Steady n (n.handleRequestVote args contact o o' o'').1 := by
  have haccept : Steady n (n.acceptTerm args.term o o').1 := by
    rw [acceptTerm]
    split
    · exact .inl rfl
    · exact .inr (.inl ⟨rfl, rfl⟩)
  have hcast : ∀ m : NodeCore ι κ, (m.castVote args.candidateID o'').1.role = m.role ∧
      (m.castVote args.candidateID o'').1.currentTerm = m.currentTerm := by
    intro m
    simp only [castVote]
    split <;> exact ⟨rfl, rfl⟩
  simp only [handleRequestVote]
  repeat' split
  all_goals first
    | exact .inr (.inl ⟨rfl, rfl⟩)
    | exact haccept
    | rwa [Steady, (hcast _).1, (hcast _).2]

theorem steady_finishApplied (n : NodeCore ι κ) :
    n.finishApplied.led = n.led ∧ Steady n n.finishApplied := by
  rw [finishApplied]
  split
  · exact ⟨rfl, .inr (.inl ⟨rfl, rfl⟩)⟩
  · simp only [onConfigCommitted]
    repeat' split
    all_goals first
      | exact ⟨rfl, .inr (.inl ⟨rfl, rfl⟩)⟩
      | exact ⟨rfl, .inl rfl⟩

variable [CommandCodec ι κ]

theorem logView_becomeLeader (n : NodeCore ι κ) :
    n.becomeLeader.logView = n.logView.extend [n.noop] := by
  simp only [NodeCore.logView, becomeLeader, LogView.extend, LogStore.enqueue_of_ne_nil
    (cons_ne_nil n.noop [])]
  by_cases hbroken : (n.store.failed || n.store.closed) = true
  · simp [hbroken]
  · simp [hbroken]

theorem Linked.handleAppendEntries (h : n.logView.Linked made) {dest : ι} {req : AppendRequest ι κ}
    (hreq : (Message.append dest req).Linked made) (o o' : ReplaceOutcome) :
    LogMoved made n (n.handleAppendEntries req o o').1 := by
  have haccept := VotingOnly.acceptLeader n req.args.term o o'
  have hview := haccept.logView
  obtain ⟨ws, heq⟩ := n.handleAppendEntries_fst req o o'
  rw [heq, appendEntries]
  rcases n.acceptLeader_cases req.args.term o o' with hrefused | hfollower
  · simp only [hrefused, Bool.false_eq_true, if_false]
    exact ⟨h, rfl, .inr (.inl ⟨rfl, rfl⟩), fun _ => rfl⟩
  · have hled : (n.acceptLeader req.args.term o o').1.led = n.led := by
      obtain ⟨_, _, _, _, _, _, _, _, _, heq⟩ := haccept
      rw [heq]
    rw [← hview] at h
    split
    · have hvoting := (n.acceptLeader req.args.term o o').1.voting_appendMatched req
      exact .of_follower (Linked.appendMatched h hreq) ((congrArg Voting.led hvoting).trans hled)
        ((congrArg Voting.role hvoting).trans hfollower)
    · exact .of_follower h hled hfollower

/-- A failed sync drops entries that the broken store may not have. -/
theorem Linked.syncFinish (h : n.logView.Linked made) {idx term : Nat} {result : Option Bool}
    (hsync : n.sync = .flushed idx term result) :
    (n.syncFinish idx term result).1.logView.Linked made ∧
      (n.role = .leader → (n.syncFinish idx term result).1.log = n.log) := by
  have hidle : ({ n with sync := .idle } : NodeCore ι κ).logView.Linked made :=
    h.resync (by simp)
  simp only [NodeCore.syncFinish]
  split
  · exact ⟨hidle, fun _ => rfl⟩
  · have hview := logView_markDurable { n with sync := .idle } idx term
    refine ⟨?_, fun _ => congrArg LogView.log hview⟩
    change (markDurable _ idx term).logView.Linked made
    rwa [hview]
  · change (onPersistFailure _).logView.Linked made ∧ _
    rw [onPersistFailure]
    split
    · exact ⟨hidle, fun _ => rfl⟩
    next hrole =>
      refine ⟨?_, fun hlead => absurd hlead hrole⟩
      split
      · rw [logView_refreshConfigFromLog]
        exact hidle.inMemory (h.log.take _) (h.failing idx term hsync)
      · exact hidle

theorem snapFile_handleAppendEntries (n : NodeCore ι κ) (req : AppendRequest ι κ)
    (o o' : ReplaceOutcome) : (n.handleAppendEntries req o o').1.snapFile = n.snapFile := by
  have hchecked : ∀ (m : NodeCore ι κ) prev term es,
      (m.appendChecked req prev term es).1.snapFile = m.snapFile := by
    intro m prev term es
    simp only [appendChecked, appendFrom]
    repeat' split
    · rfl
    · rfl
    · rw [← m.snapFile_appendLoop prev es]
      exact congrArg LogView.snapFile (logView_acknowledge _ _ _ _)
    · exact m.snapFile_appendLoop prev es
  have haccept := congrArg LogView.snapFile (VotingOnly.acceptLeader n req.args.term o o').logView
  obtain ⟨ws, heq⟩ := n.handleAppendEntries_fst req o o'
  rw [heq, appendEntries]
  split
  · simp only [NodeCore.appendMatched]
    repeat' split
    · exact (hchecked _ _ _ _).trans haccept
    · exact haccept
    · exact (hchecked _ _ _ _).trans haccept
  · exact haccept

end

end NodeCore

section

variable {R : Rules ι κ} {z : ι} {net out : List (Message ι κ)} {n n' : NodeCore ι κ}

theorem LogMoved.of_linked (h : n'.logView.Linked made) (hlog : n.role = .leader → n'.log = n.log)
    (hvoting : n'.voting = n.voting) : LogMoved made n n' where
  linked := h
  led := congrArg Voting.led hvoting
  role := .inr (.inl ⟨congrArg Voting.role hvoting, congrArg Voting.currentTerm hvoting⟩)
  log hlead := hlog ((congrArg Voting.role hvoting).symm.trans hlead)

theorem LogMoved.of_view (h : n.logView.Linked made) (hview : n'.logView = n.logView)
    (hvoting : n'.voting = n.voting) : LogMoved made n n' :=
  .of_linked (hview ▸ h) (fun _ => congrArg LogView.log hview) hvoting

theorem LogMoved.of_votingOnly (h : n.logView.Linked made) (hvoting : VotingOnly n n')
    (hrole : Steady n n') : LogMoved made n n' := by
  have hview := hvoting.logView
  obtain ⟨_, _, _, _, _, _, _, _, _, rfl⟩ := hvoting
  exact ⟨hview ▸ h, rfl, hrole, fun _ => rfl⟩

/-- A captured snapshot was not installed when there is no snapshot file afterwards. -/
theorem LogMoved.captureInstall (h : n.logView.Linked made) (o : ReplaceOutcome)
    (hnone : (n.captureInstall o).snapFile = none) : LogMoved made n (n.captureInstall o) := by
  refine .of_linked ?_ (fun _ => ?_) (n.voting_captureInstall o)
  · cases hcapture : n.capture with
    | fenced m =>
      rw [NodeCore.captureInstall, hcapture] at hnone ⊢
      cases o with
      | failed => exact { h with capture := by simp [NodeCore.logView] }
      | done | failedRenamed => cases hnone
    | idle | installed =>
      rw [NodeCore.captureInstall, hcapture]
      exact h
  · rw [NodeCore.captureInstall]
    repeat' split
    all_goals rfl

/-- The syncer's write and its fsync change no log in memory. -/
theorem LogMoved.syncWrite (h : n.logView.Linked made) (idx term : Nat) (o : WriteOutcome) :
    LogMoved made n (n.syncWrite idx term o) := by
  refine .of_linked (Linked.syncWrite h idx term o) (fun _ => ?_) (n.voting_syncWrite idx term o)
  simp only [NodeCore.syncWrite]
  repeat' split
  all_goals rfl

theorem LogMoved.syncFsync (h : n.logView.Linked made) (idx term covered gen : Nat) (ok : Bool) :
    LogMoved made n (n.syncFsync idx term covered gen ok) := by
  refine .of_linked (Linked.syncFsync h idx term covered gen ok) (fun _ => ?_)
    (n.voting_syncFsync idx term covered gen ok)
  rw [NodeCore.syncFsync]
  repeat' split
  all_goals rfl

theorem linked_answers (replies : List (AppendRequest ι κ × AppendEntriesReply)) :
    ∀ msg ∈ answers z replies, msg.Linked made := by
  intro msg hmsg
  obtain ⟨r, -, rfl⟩ := mem_map.1 hmsg
  trivial

variable [DecidableEq ι]

theorem LogMoved.campaign (h : n.logView.Linked made) (o : ReplaceOutcome)
    (hrole : n.role ≠ .leader) : LogMoved made n (n.campaign o).1 := by
  refine .of_votingOnly h (.campaign n o) (.inr (.inr ⟨hrole, ?_⟩))
  simp only [NodeCore.campaign]
  split
  · exact ⟨by simp, Nat.lt_succ_self _⟩
  · exact ⟨hrole, Nat.lt_succ_self _⟩

variable [CommandCodec ι κ]

/-- A node with a snapshot file keeps one. -/
theorem NodeStep.snapFile_none (hstep : NodeStep R z net n n' out) (hkept : R.unwiped)
    (hnone : n'.snapFile = none) : n.snapFile = none := by
  have hsame : ∀ {m : NodeCore ι κ}, m.logView = n.logView → m.snapFile = none →
      n.snapFile = none := fun hm h => (congrArg LogView.snapFile hm).symm.trans h
  have hrewrite : ∀ {m : NodeCore ι κ} {o}, (m.rewriteLog o).snapFile = m.snapFile := by
    intro m o
    obtain ⟨_, _, _, _, heq, -⟩ := m.exists_rewriteLog o
    rw [heq]
  cases hstep with
  | follow term o => exact hsame (VotingOnly.becomeFollower n term o).logView hnone
  | vote => exact hsame (VotingOnly.handleRequestVote n _ _ _ _ _).logView hnone
  | campaign o => exact hsame (VotingOnly.campaign n o).logView hnone
  | append _ _ happend | propose _ _ _ happend =>
    obtain ⟨_, -, rfl⟩ := Option.map_eq_some_iff.1 happend
    exact hnone
  | acknowledged | snapshotSent =>
    rw [raiseMatch, maybeAdvanceCommit] at hnone
    split at hnone <;> exact hnone
  | accept req o o' => rwa [snapFile_handleAppendEntries] at hnone
  | syncFinish idx term result =>
    rcases result with _ | _ | _
    · exact hnone
    · change (onPersistFailure _).snapFile = none at hnone
      rw [onPersistFailure] at hnone
      repeat' split at hnone
      · exact hnone
      · rwa [snapFile_refreshConfigFromLog] at hnone
      · exact hnone
    · exact (congrArg LogView.snapFile (logView_markDurable { n with sync := .idle } idx term)).symm.trans
        hnone
  | gather => exact hsame n.logView_gather hnone
  | applySome => exact hsame n.logView_applySome hnone
  | finishApplied => exact hsame n.logView_finishApplied hnone
  | syncWrite | syncFsync | captureFence | captureInstall | installBegin | installRename
  | installRestored =>
    simp only [NodeCore.syncWrite, NodeCore.syncFsync, NodeCore.captureFence, NodeCore.captureInstall,
      NodeCore.installBegin, NodeCore.installRename, NodeCore.installRestored, installEnd] at hnone
    repeat' split at hnone
    all_goals first
      | exact hnone
      | cases hnone
  | captureCompact =>
    simp only [NodeCore.captureCompact] at hnone
    repeat' split at hnone
    · rwa [hrewrite] at hnone
    · exact hnone
    · exact hnone
  | receive req o o' =>
    have haccept := congrArg LogView.snapFile (VotingOnly.acceptLeader n req.term o o').logView
    refine haccept.symm.trans ?_
    simp only [handleInstallSnapshot, receiveSnapshot, takeTransfer] at hnone
    repeat' split at hnone
    all_goals exact hnone
  | installLog =>
    rw [NodeCore.installLog] at hnone
    split at hnone
    · change (rewriteLog _ _).snapFile = none at hnone
      rwa [hrewrite, replaceLog, snapFile_refreshConfigFromLog] at hnone
    · exact hnone
  | restart _ _ _ _ _ hrestart =>
    obtain ⟨s, -, hrestart⟩ := Option.bind_eq_some_iff.1 hrestart
    obtain ⟨-, -, -, m, store, hm, -, rfl⟩ := restart_some hrestart
    rw [startup, snapFile_refreshConfigFromLog] at hnone
    change m.snapFile = none at hnone
    rw [hm, raiseTerm] at hnone
    split at hnone <;> exact hnone
  | wipe hwiped => exact absurd hkept hwiped
  | _ => exact hnone

/-- A capture that starts changes no log. -/
theorem LogMoved.captureFence (h : n.logView.Linked made) (sid : Nat) :
    LogMoved made n (n.captureFence sid) := by
  refine .of_linked ?_ (fun _ => ?_) (n.voting_captureFence sid)
  · rw [NodeCore.captureFence]
    split
    · exact { h with capture := by simp [NodeCore.logView] }
    · exact h
  · rw [NodeCore.captureFence]
    split <;> rfl

/-- What an elementary step does to the log of a node without a snapshot, and
what it sends. -/
theorem NodeStep.change (hstep : NodeStep R z net n n' out) (hkept : R.unwiped)
    (hnone : n'.snapFile = none) (h : n.logView.Linked made) (hnet : ∀ msg ∈ net, msg.Linked made) :
    (LogMoved made n n' ∨ ∃ es, LogCreated n n' es) ∧ ∀ msg ∈ out, msg.Linked made := by
  have hnil : ∀ msg ∈ ([] : List (Message ι κ)), msg.Linked made := by simp
  have hsame : LogMoved made n n := .of_view h rfl rfl
  have hrecv : n.recv = none := h.recv
  have hinstall : n.install = none := h.install
  cases hstep with
  | follow term o hterm =>
    exact ⟨.inl (.of_votingOnly h (.becomeFollower n term o) (.inl rfl)), hnil⟩
  | vote args contact o o' o'' =>
    exact ⟨.inl (.of_votingOnly h (.handleRequestVote n args contact o o' o'')
      (n.steady_handleRequestVote args contact o o' o'')), by simp [Message.Linked]⟩
  | preVote _ hout =>
    refine ⟨.inl hsame, fun msg hmsg => ?_⟩
    obtain ⟨p, args, rfl, -⟩ := hout msg hmsg
    trivial
  | campaign o _ hrole _ hout =>
    refine ⟨.inl (.campaign h o hrole), fun msg hmsg => ?_⟩
    obtain ⟨-, p, rfl⟩ := hout msg hmsg
    trivial
  | count source =>
    refine ⟨.inl (.of_votingOnly h ?_ (.inr (.inl ⟨rfl, rfl⟩))), hnil⟩
    exact ⟨_, _, _, _, _, _, _, _, _, rfl⟩
  | lead hrole =>
    exact ⟨.inr ⟨[n.noop], ⟨rfl, trivial⟩, by simp [noop], n.logView_becomeLeader, rfl, rfl,
      .inr ⟨hrole, rfl⟩⟩, hnil⟩
  | append batch hrole happend =>
    have hvoting := (voting_leaderAppend happend).1
    refine ⟨.inr ⟨_, indexedFrom_mapIdx (fun _ _ => rfl) batch, fun e he => ?_,
      logView_leaderAppend happend, (congrArg Voting.role hvoting).trans hrole,
      congrArg Voting.currentTerm hvoting, .inl ⟨hrole, congrArg Voting.led hvoting⟩⟩, hnil⟩
    obtain ⟨i, hi, rfl⟩ := mem_mapIdx.1 he
    rfl
  | propose next hrole _ happend =>
    have hvoting := (voting_leaderAppend happend).1
    have hview := logView_leaderAppend happend
    exact ⟨.inr ⟨[_], ⟨rfl, trivial⟩, by simp [newEntry], hview,
      (congrArg Voting.role hvoting).trans hrole, congrArg Voting.currentTerm hvoting,
      .inl ⟨hrole, congrArg Voting.led hvoting⟩⟩, hnil⟩
  | send _ _ hout => exact ⟨.inl hsame, fun msg hmsg => Linked.sends h (hout msg hmsg)⟩
  | sendSnapshot _ _ _ _ _ hsnap =>
    rw [hnone] at hsnap
    cases hsnap
  | acknowledged | snapshotSent =>
    exact ⟨.inl (.of_view h (logView_maybeAdvanceCommit _) (n.voting_raiseMatch _ _)), hnil⟩
  | accept req o o' hmsg =>
    exact ⟨.inl (Linked.handleAppendEntries h (hnet _ hmsg) o o'), linked_answers _⟩
  | syncCapture =>
    refine ⟨.inl (.of_linked (h.resync ?_) (fun _ => rfl) rfl), hnil⟩
    simp [NodeCore.syncCapture]
  | syncWrite idx term o => exact ⟨.inl (.syncWrite h idx term o), hnil⟩
  | syncFsync idx term covered gen ok => exact ⟨.inl (.syncFsync h idx term covered gen ok), hnil⟩
  | syncFinish idx term result hsync =>
    obtain ⟨hlinked, hlog⟩ := Linked.syncFinish h hsync
    exact ⟨.inl (.of_linked hlinked hlog (n.voting_syncFinish idx term result)), linked_answers _⟩
  | gather => exact ⟨.inl (.of_view h n.logView_gather n.voting_gather), hnil⟩
  | applySome => exact ⟨.inl (.of_view h n.logView_applySome n.voting_applySome), hnil⟩
  | finishApplied =>
    have hview := n.logView_finishApplied
    obtain ⟨hled, hsteady⟩ := n.steady_finishApplied
    exact ⟨.inl ⟨hview ▸ h, hled, hsteady, fun _ => congrArg LogView.log hview⟩, hnil⟩
  | captureFence sid => exact ⟨.inl (.captureFence h sid), hnil⟩
  | captureInstall o => exact ⟨.inl (.captureInstall h o hnone), hnil⟩
  | captureCompact o =>
    rw [show n.captureCompact o = n by
      rw [NodeCore.captureCompact]
      split
      next m hcapture => exact absurd hcapture (h.capture m)
      · rfl]
    exact ⟨.inl hsame, hnil⟩
  | receive _ _ _ hmsg => exact (hnet _ hmsg).elim
  | installBegin | installRename | installLog | installRestored =>
    simp only [NodeCore.installBegin, NodeCore.installRename, NodeCore.installLog,
      NodeCore.installRestored, hrecv, hinstall]
    exact ⟨.inl hsame, hnil⟩
  | stop => exact ⟨.inl (.of_view h rfl rfl), hnil⟩
  | closeStore =>
    refine ⟨.inl (.of_linked ?_ (fun _ => rfl) rfl), linked_answers _⟩
    exact { h with
      held := fun hok => by simp [NodeCore.logView] at hok
      failing := fun _ _ _ => by simp [NodeCore.logView] }
  | restart f a o w _ hrestart =>
    obtain ⟨hlinked, hled, hrole⟩ := Linked.crashRestart h hrestart
    exact ⟨.inl (.of_follower hlinked hled hrole), hnil⟩
  | wipe hwiped => exact absurd hkept hwiped

end

/-! ## Logs of a cluster -/

theorem LogView.Linked.extend {v : LogView ι κ} (h : v.Linked made) {es : List (LogEntry κ)}
    (hes : Links made (endMark LogEntry.mark (0, 0) v.log) es) : (v.extend es).Linked made := by
  cases hbroken : v.broken with
  | true =>
    have hmem := h.inMemory (chain_append.mpr ⟨h.log, hes⟩) hbroken
    simpa [LogView.extend, hbroken] using hmem
  | false =>
    rw [← take_length (l := v.log)] at hes
    have hboth := h.supersede (Nat.le_refl _) (.inr rfl) hbroken hes
    simpa [LogView.extend, hbroken] using hboth

/-- The entries that leaders made: index and term tell the entry and the mark in
front of it, all logs and requests consist of them, and a leader has those of
its term. -/
structure LogsLinked (made : LogEntry κ → Nat × Nat → Prop) (s : Cores ι κ) : Prop where
  determined : Determined LogEntry.mark made
  led : ∀ e b, made e b → ∃ y, e.term ∈ (s.nodes y).led
  linked : ∀ z, (s.nodes z).logView.Linked made
  net : ∀ msg ∈ s.net, msg.Linked made
  ruling : ∀ z, (s.nodes z).role = .leader → (s.nodes z).currentTerm ∈ (s.nodes z).led ∧
    ∀ e b, made e b → e.term = (s.nodes z).currentTerm → e ∈ (s.nodes z).log
  fresh : ∀ z, (s.nodes z).role = .candidate → (s.nodes z).currentTerm ∉ (s.nodes z).led

namespace Cluster

theorem LogsLinked.init (opts : ι → RaftNode.Options ι) :
    LogsLinked (fun _ _ => False) (Cluster.init opts : Cluster ι κ).cores where
  determined := nofun
  led := nofun
  linked z :=
    { base := rfl
      snapFile := rfl
      capture := nofun
      recv := rfl
      install := rfl
      log := trivial
      recs := fun k => by
        change Links _ _ (replayRecords (take k [])).entries
        rw [take_nil]
        trivial
      placed := rfl
      held := fun _ => rfl
      failing := nofun }
  net := nofun
  ruling := nofun
  fresh := nofun

variable [DecidableEq ι] [CommandCodec ι κ] {V : Finset ι} {s : Cores ι κ} {z : ι}
  {n : NodeCore ι κ} {out : List (Message ι κ)}

theorem FixedElections.leader_unique (hs : FixedElections V s) {x y : ι} {t : Nat}
    (hx : t ∈ (s.nodes x).led) (hy : t ∈ (s.nodes y).led) : x = y :=
  hs.elections.leader_unique hx hy fun _ hQ _ hQ' hcard hcard' =>
    Finset.inter_nonempty_of_card_lt_card_add_card hQ hQ' (by omega)

theorem FixedElections.led_le (hs : FixedElections V s) {y : ι} {t : Nat}
    (ht : t ∈ (s.nodes y).led) : t ≤ (s.nodes y).currentTerm :=
  (hs.elections.oneVote y).granted_le_now (hs.elections.led y t ht).1

theorem LogsLinked.moved (hs : FixedElections V s) (h : LogsLinked made s)
    (hout : ∀ msg ∈ out, msg.Linked made) (hmoved : LogMoved made (s.nodes z) n) :
    LogsLinked made (s.put z n out) where
  determined := h.determined
  linked := Cores.forall_put (A := fun _ m => m.logView.Linked made) h.linked hmoved.linked
  net := Cores.forall_mem_put h.net hout
  led := fun e b he => by
    obtain ⟨y, hy⟩ := h.led e b he
    have hall : ∀ y, ((s.put z n out).nodes y).led = (s.nodes y).led :=
      Cores.forall_put (A := fun y m => m.led = (s.nodes y).led) (fun _ => rfl) hmoved.led
    exact ⟨y, hall y ▸ hy⟩
  ruling := by
    refine Cores.forall_put (A := fun _ m => m.role = .leader → m.currentTerm ∈ m.led ∧
      ∀ e b, made e b → e.term = m.currentTerm → e ∈ m.log) h.ruling fun hlead => ?_
    rcases hmoved.role with hfollower | ⟨hsame, hterm⟩ | ⟨-, hother, -⟩
    · rw [hfollower] at hlead
      cases hlead
    · rw [hmoved.led, hterm, hmoved.log hlead]
      exact h.ruling z (hsame ▸ hlead)
    · exact absurd hlead hother
  fresh := by
    refine Cores.forall_put (A := fun _ m => m.role = .candidate → m.currentTerm ∉ m.led) h.fresh
      fun hcand => ?_
    rw [hmoved.led]
    rcases hmoved.role with hfollower | ⟨hsame, hterm⟩ | ⟨-, -, hlater⟩
    · rw [hfollower] at hcand
      cases hcand
    · rw [hterm]
      exact h.fresh z (hsame ▸ hcand)
    · exact fun hmem => absurd (hs.led_le hmem) (Nat.not_le_of_lt hlater)

/-- Entries made by a leader have marks of their own. -/
theorem LogsLinked.created (hafter : FixedElections V (s.put z n out)) (h : LogsLinked made s)
    (hout : ∀ msg ∈ out, msg.Linked made) {es : List (LogEntry κ)}
    (hmade : LogCreated (s.nodes z) n es) :
    ∃ made', LogsLinked made' (s.put z n out) := by
  obtain ⟨hindex, hterm, hview, hrole, hnow, hled⟩ := hmade
  have hself : (s.put z n out).nodes z = n := by simp [Cores.put]
  have hgrow : ∀ t ∈ (s.nodes z).led, t ∈ n.led := by
    rcases hled with ⟨-, heq⟩ | ⟨-, heq⟩
    · exact fun t ht => heq ▸ ht
    · exact fun t ht => heq ▸ mem_cons_of_mem _ ht
  have hown : (s.nodes z).currentTerm ∈ n.led := by
    rcases hled with ⟨hlead, heq⟩ | ⟨-, heq⟩
    · exact heq ▸ (h.ruling z hlead).1
    · exact heq ▸ mem_cons_self
  have hputled : ∀ y, ∀ t ∈ (s.nodes y).led, t ∈ ((s.put z n out).nodes y).led :=
    Cores.forall_put (A := fun y m => ∀ t ∈ (s.nodes y).led, t ∈ m.led) (fun _ _ ht => ht) hgrow
  have hunique : ∀ y, (s.nodes z).currentTerm ∈ ((s.put z n out).nodes y).led → y = z := fun y hy =>
    hafter.leader_unique hy (hself.symm ▸ hown)
  have hheld : ∀ d b, made d b → d.term = (s.nodes z).currentTerm → d ∈ (s.nodes z).log := by
    intro d b hd hsame
    rcases hled with ⟨hlead, -⟩ | ⟨hcand, -⟩
    · exact (h.ruling z hlead).2 d b hd hsame
    · -- before a candidate wins, nobody has led its term
      obtain ⟨y, hy⟩ := h.led d b hd
      rw [hsame] at hy
      obtain rfl := hunique y (hputled y _ hy)
      exact absurd hy (h.fresh y hcand)
  have hfresh : ∀ e ∈ es, ∀ d b, made d b → d.mark ≠ e.mark := by
    intro e he d b hd hmark
    have hidx : d.index = e.index := congrArg Prod.fst hmark
    have hold := hheld d b hd ((congrArg Prod.snd hmark).trans (hterm e he))
    have hbefore := (Links.indexedFrom (h.linked z).log |>.mem_bounds hold).2
    have hbehind := (hindex.mem_bounds he).1
    rw [Linked.lastLogIndex_eq (h.linked z)] at hbehind
    change d.index < 0 + 1 + (s.nodes z).log.length at hbefore
    omega
  obtain ⟨made', hdet, hnew, hsub, hor⟩ := exists_extend (r := endMark LogEntry.mark (0, 0) (s.nodes z).log)
    h.determined (links_of_indexedFrom (by
      rw [(show Links made (0, 0) (s.nodes z).log from (h.linked z).log).endMark_fst, Nat.zero_add,
        ← Linked.lastLogIndex_eq (h.linked z)]
      exact hindex)) (nodup_mark hindex) hfresh
  refine ⟨made', hdet, ?_, ?_, ?_, ?_, ?_⟩
  · intro e b he
    rcases hor e b he with hold | hmem
    · obtain ⟨y, hy⟩ := h.led e b hold
      exact ⟨y, hputled y _ hy⟩
    · exact ⟨z, by rw [hself, hterm e hmem]; exact hown⟩
  · refine Cores.forall_put (A := fun _ m => m.logView.Linked made') (fun y => (h.linked y).mono hsub) ?_
    rw [hview]
    exact ((h.linked z).mono hsub).extend hnew
  · exact Cores.forall_mem_put (fun msg hmsg => (h.net msg hmsg).mono hsub)
      fun msg hmsg => (hout msg hmsg).mono hsub
  · intro y hlead
    rcases eq_or_ne y z with rfl | hy
    · rw [hself, hnow, show n.log = _ from congrArg LogView.log hview]
      refine ⟨hown, fun e b he hsame => ?_⟩
      rcases hor e b he with hold | hmem
      · exact mem_append_left _ (hheld e b hold hsame)
      · exact mem_append_right _ hmem
    · rw [show (s.put z n out).nodes y = s.nodes y by simp [Cores.put, hy]] at hlead ⊢
      refine ⟨(h.ruling y hlead).1, fun e b he hsame => ?_⟩
      rcases hor e b he with hold | hmem
      · exact (h.ruling y hlead).2 e b hold hsame
      · have hmine := (h.ruling y hlead).1
        rw [← hsame, hterm e hmem] at hmine
        exact absurd (hunique y (hputled y _ hmine)) hy
  · exact Cores.forall_put (A := fun _ m => m.role = .candidate → m.currentTerm ∉ m.led) h.fresh
      fun hcand => by rw [hrole] at hcand; cases hcand

/-- Elementary steps keep the chains, until a snapshot is put in place. -/
theorem LogsLinked.step (hs : FixedElections V s) (h : LogsLinked made s)
    (hstep : NodeStep (fixedRules ι κ) z s.net (s.nodes z) n out) (hnone : n.snapFile = none) :
    ∃ made', LogsLinked made' (s.put z n out) := by
  obtain ⟨hmoved | ⟨es, hmade⟩, hout⟩ := hstep.change trivial hnone (h.linked z) h.net
  · exact ⟨made, LogsLinked.moved hs h hout hmoved⟩
  · exact LogsLinked.created (hs.step hstep) h hout hmade

/-- The invariant of a run: until a snapshot is put in place, the chains. -/
structure LinkedRun (V : Finset ι) (s : Cores ι κ) : Prop where
  elections : FixedElections V s
  logs : (∀ z, (s.nodes z).snapFile = none) → ∃ made, LogsLinked made s

theorem LinkedRun.step (hs : LinkedRun V s)
    (hstep : NodeStep (fixedRules ι κ) z s.net (s.nodes z) n out) : LinkedRun V (s.put z n out) := by
  refine ⟨hs.elections.step hstep, fun hput => ?_⟩
  have hn : n.snapFile = none := by simpa [Cores.put] using hput z
  obtain ⟨made, h⟩ := hs.logs fun y => by
    rcases eq_or_ne y z with rfl | hy
    · exact hstep.snapFile_none trivial hn
    · simpa [Cores.put, hy] using hput y
  exact LogsLinked.step hs.elections h hstep hn

theorem Reachable.logsLinked {opts : ι → RaftNode.Options ι}
    (hboot : ∀ z, FixedVoters V (opts z).boot) {c : Cluster ι κ}
    (h : Reachable opts (fun _ a => fixedMembers a) c) (hnone : ∀ z, (c.nodes z).snapFile = none) :
    ∃ made, LogsLinked made c.cores := by
  have hinit : LinkedRun V (Cluster.init opts : Cluster ι κ).cores :=
    ⟨FixedElections.init hboot, fun _ => ⟨_, LogsLinked.init opts⟩⟩
  have hrun := h.steps_induct (R := fixedRules ι κ) (fun c a ha => fixedRules_obeys ha) hinit
    fun s z n out hs hstep => hs.step hstep
  exact hrun.logs hnone

end Cluster

/-- A log that the node has, or that replay makes of a part of its log file. -/
def NodeCore.HasLog (n : NodeCore ι κ) (log : List (LogEntry κ)) : Prop :=
  log = n.log ∨ ∃ k, log = (replayRecords (n.store.recs.take k)).entries

theorem LogView.Linked.hasLog {n : NodeCore ι κ} (h : n.logView.Linked made) {log : List (LogEntry κ)}
    (hlog : n.HasLog log) : Links made (0, 0) log := by
  rcases hlog with rfl | ⟨k, rfl⟩
  · exact h.log
  · exact h.recs k

/-- An entry ends the part of a chain up to its index. -/
theorem Links.endMark_take_index {log : List (LogEntry κ)} (h : Links made (0, 0) log) {e : LogEntry κ}
    (he : e ∈ log) : e.index ≤ log.length ∧ endMark LogEntry.mark (0, 0) (log.take e.index) = e.mark := by
  obtain ⟨i, hi, rfl⟩ := mem_iff_getElem.mp he
  have hindex := h.indexedFrom.getElem_index i hi
  rw [Nat.zero_add, Nat.add_comm] at hindex
  rw [hindex, take_succ_eq_append_getElem hi, endMark_append]
  exact ⟨hi, rfl⟩

namespace Cluster

variable [DecidableEq ι] [CommandCodec ι κ]

/-- With a fixed voter set, two logs with an entry of one index and term agree up
to it, as long as no snapshot is in place.  The logs are those in memory and what
a crash may leave of a log file. -/
theorem Reachable.log_matching {V : Finset ι} {opts : ι → RaftNode.Options ι}
    (hboot : ∀ z, FixedVoters V (opts z).boot) {c : Cluster ι κ}
    (h : Reachable opts (fun _ a => fixedMembers a) c) (hnone : ∀ z, (c.nodes z).snapFile = none)
    {y z : ι} {log log' : List (LogEntry κ)} (hlog : (c.nodes y).toNodeCore.HasLog log)
    (hlog' : (c.nodes z).toNodeCore.HasLog log') {e e' : LogEntry κ} (he : e ∈ log) (he' : e' ∈ log')
    (hindex : e.index = e'.index) (hterm : e.term = e'.term) :
    log.take e.index = log'.take e.index := by
  obtain ⟨made, hlinked⟩ := h.logsLinked hboot hnone
  have hchain := (hlinked.linked y).hasLog hlog
  have hchain' := (hlinked.linked z).hasLog hlog'
  obtain ⟨hlen, hend⟩ := hchain.endMark_take_index he
  obtain ⟨hlen', hend'⟩ := hchain'.endMark_take_index he'
  rw [← hindex] at hlen' hend'
  refine Chain.agree hlinked.determined ((hchain.take _).mono fun _ _ h => h.1)
    ((hchain'.take _).mono fun _ _ h => h.1) ?_ ?_
  · rw [length_take_of_le hlen, length_take_of_le hlen']
  · rw [hend, hend', LogEntry.mark, LogEntry.mark, hindex, hterm]

/-- The entry of the write in `writeOnce`. -/
def written : LogEntry (Payload (Fin 3)) where
  term := 1
  index := 2
  type := entryNormal
  command := .bytes [7]

/-- Server 0 leads, takes a write and sends its log to server 1, which crashes before
its file is fsynced, and keeps both records. -/
def writeOnce : List (Action (Fin 3) (Payload (Fin 3))) :=
  [.preVote 0, recv 0, recv 2, .preVoteDone 0 0, .startElection 0 0 .done, recv 3, recv 5,
    .submit 0 [.bytes [7]], .replicate 0 0, recv 6, .restart 1 (.tail 2) none .done .done]

theorem exists_writeOnce : ∃ c : Cluster (Fin 3) (Payload (Fin 3)),
    Reachable threeVoters (fun _ a => fixedMembers a) c ∧ (∀ z, (c.nodes z).snapFile = none) ∧
      (c.nodes 0).role = .leader ∧ (c.nodes 0).currentTerm = 1 ∧
      written ∈ (c.nodes 0).log ∧ written ∈ (c.nodes 1).log :=
  exists_reachable writeOnce _ (by decide)

/-- The hypotheses are met in `writeOnce`. -/
theorem log_matching_writeOnce : ∃ c : Cluster (Fin 3) (Payload (Fin 3)),
    (written ∈ (c.nodes 0).log ∧ written ∈ (c.nodes 1).log) ∧
      (c.nodes 0).log.take 2 = (c.nodes 1).log.take 2 := by
  obtain ⟨c, hreach, hnone, -, -, hmem, hmem'⟩ := exists_writeOnce
  exact ⟨c, ⟨hmem, hmem'⟩,
    hreach.log_matching threeVoters_fixed hnone (.inl rfl) (.inl rfl) hmem hmem' rfl rfl⟩

/-- Every entry of a log was made by a leader of its term, and as long as it leads
that term it has the entry. -/
theorem Reachable.entry_of_leader {V : Finset ι} {opts : ι → RaftNode.Options ι}
    (hboot : ∀ z, FixedVoters V (opts z).boot) {c : Cluster ι κ}
    (h : Reachable opts (fun _ a => fixedMembers a) c) (hnone : ∀ z, (c.nodes z).snapFile = none)
    {y : ι} {log : List (LogEntry κ)} (hlog : (c.nodes y).toNodeCore.HasLog log) {e : LogEntry κ}
    (he : e ∈ log) :
    (∃ x, e.term ∈ (c.nodes x).led) ∧
      ∀ z, (c.nodes z).role = .leader → (c.nodes z).currentTerm = e.term → e ∈ (c.nodes z).log := by
  obtain ⟨made, hlinked⟩ := h.logsLinked hboot hnone
  obtain ⟨b, hmade, -⟩ := ((hlinked.linked y).hasLog hlog).exists_made he
  exact ⟨hlinked.led e b hmade, fun z hlead hterm => (hlinked.ruling z hlead).2 e b hmade hterm.symm⟩

/-- The hypotheses are met in `writeOnce`, where the leader still leads. -/
theorem entry_of_leader_writeOnce : ∃ c : Cluster (Fin 3) (Payload (Fin 3)),
    (written ∈ (c.nodes 1).log ∧ (c.nodes 0).role = .leader) ∧ written ∈ (c.nodes 0).log := by
  obtain ⟨c, hreach, hnone, hlead, hterm, -, hmem⟩ := exists_writeOnce
  exact ⟨c, ⟨hmem, hlead⟩,
    (hreach.entry_of_leader threeVoters_fixed hnone (y := 1) (.inl rfl) hmem).2 0 hlead hterm⟩

end Cluster

end VeltrixDB.Consensus
