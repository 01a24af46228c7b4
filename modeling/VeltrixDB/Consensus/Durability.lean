import VeltrixDB.Consensus.AppendSpec
import VeltrixDB.Consensus.LogStore
import VeltrixDB.Consensus.Cluster

/-!
# What the durable index promises

`durableIndex` is meant to say how far the in-memory log survives a crash.  The
fsync runs outside the node's mutex, and `markDurableLocked` decides by the term
at the captured index alone that what was fsynced is still what is in memory.  This
module follows one node through requests of any leaders, syncer steps, rewrites and
restarts, and compares its log with what replay makes of every crash image of the log
file.

Main results:

- Definition `LogParts.Durable`: log, file and durable index agree.
- Definition `NodeCore.Covered`: what counts as durable has been fsynced, in a file
  that keeps its name.
- Theorem `NodeCore.Durable.onLogEvent`: every covered event keeps the agreement.
- Theorem `NodeCore.LogRun.durable_survives`: in runs of such events every crash image
  has the durable entries, and success is answered for durable entries.
- Theorems `NodeCore.mark_outruns_superseding`, `NodeCore.load_outruns_fsync` and
  `NodeCore.rewrite_loses_name`: each part of the condition is needed.
-/

namespace VeltrixDB.Consensus

open List Option

/-! ## The covered prefix -/

theorem NodeCore.dropCovered_eq {κ : Type} {s k : Nat} {log : List (LogEntry κ)}
    (h : IndexedFrom s log) (hpos : 0 < s) : dropCovered k log = log.drop (k + 1 - s) := by
  cases log with
  | nil => simp [dropCovered]
  | cons e =>
    have hidx : e.index = s := h.1
    rw [dropCovered, List.head?_cons]
    dsimp only
    rw [hidx]
    split
    · congr 1
      omega
    · rw [show k + 1 - s = 0 by omega, drop_zero]

/-- Records with real indices replay to a log that starts at a real index. -/
theorem exists_indexedFrom_replayRecords {κ : Type} {records : List (LogEntry κ)}
    (h : ∀ e ∈ records, 0 < e.index) :
    ∃ s, 0 < s ∧ IndexedFrom s (replayRecords records).entries := by
  obtain ⟨s, hs⟩ := indexedFrom_replayRecords records
  cases hnil : (replayRecords records).entries with
  | nil => exact ⟨1, Nat.one_pos, trivial⟩
  | cons e es =>
    rw [hnil] at hs
    refine ⟨s, ?_, hs⟩
    have hmem : e ∈ records := mem_replayRecords (by simp [hnil])
    rw [← hs.1]
    exact h e hmem

/-! ## The log and its file -/

structure LogParts (κ : Type) where
  log : List (LogEntry κ)
  lastIncludedIndex : Nat
  lastIncludedTerm : Nat
  durableIndex : Nat
  recs : List (LogEntry κ)
  synced : Nat
  renamed : List (List (LogEntry κ))
  failed : Bool
  sync : SyncPhase

/-- The syncer captured a real tail: only the empty log has term 0 at its end. -/
def SyncPhase.Genuine : SyncPhase → Prop
  | .idle => True
  | .captured idx term => term = 0 → idx = 0
  | .written idx term _ _ => term = 0 → idx = 0
  | .flushed idx term _ => term = 0 → idx = 0

def SyncPhase.Wrote : SyncPhase → Prop
  | .written .. => True
  | .flushed _ _ (some true) => True
  | _ => False

namespace LogParts

variable {κ : Type}

/-- Log, file and durable index agree: the log is consecutive, a healthy store has all
of it, and every crash image of the file has its durable part. -/
structure Durable (v : LogParts κ) : Prop where
  contiguous : IndexedFrom (v.lastIncludedIndex + 1) v.log
  durable_le : v.durableIndex ≤ v.lastIncludedIndex + v.log.length
  synced_le : v.synced ≤ v.recs.length
  placed : v.renamed = []
  logTerms : ∀ e ∈ v.log, 0 < e.term
  recsPos : ∀ e ∈ v.recs, 0 < e.index ∧ 0 < e.term
  baseTerm : v.lastIncludedIndex = 0 ∨ 0 < v.lastIncludedTerm
  genuine : v.sync.Genuine
  held : v.failed = false ∨ v.sync.Wrote → ∀ e ∈ v.log, e ∈ (replayRecords v.recs).entries
  survives : ∀ m, v.synced ≤ m → ∀ e ∈ v.log, e.index ≤ v.durableIndex →
    e ∈ (replayRecords (v.recs.take m)).entries

namespace Durable

variable {v : LogParts κ}

section

variable (h : v.Durable)
include h

theorem shrink {log : List (LogEntry κ)} {base baseTerm d : Nat} (hsub : ∀ e ∈ log, e ∈ v.log)
    (hlog : IndexedFrom (base + 1) log) (hd : d ≤ v.durableIndex) (hle : d ≤ base + log.length)
    (hbase : base = 0 ∨ 0 < baseTerm) :
    Durable { v with log := log, lastIncludedIndex := base, lastIncludedTerm := baseTerm
                     durableIndex := d } :=
  { h with
    contiguous := hlog
    durable_le := hle
    logTerms e he := h.logTerms e (hsub e he)
    baseTerm := hbase
    held hok e he := h.held hok e (hsub e he)
    survives m hm e he hidx := h.survives m hm e (hsub e he) (Nat.le_trans hidx hd) }

/-- The first entries of the log. -/
theorem take (k : Nat) (hk : k ≤ v.log.length) :
    Durable { v with log := v.log.take k
                     durableIndex := min v.durableIndex (v.lastIncludedIndex + k) } := by
  refine h.shrink (fun e he => mem_of_mem_take he) (h.contiguous.take k)
    (Nat.min_le_left _ _) ?_ h.baseTerm
  rw [length_take_of_le hk]
  exact Nat.min_le_right _ _

/-- The file was replaced by the log. -/
theorem rewritten (failed : Bool) {d : Nat} (hd : d ≤ v.lastIncludedIndex + v.log.length) :
    Durable { v with recs := v.log, synced := v.log.length, renamed := [], failed := failed
                     durableIndex := d } := by
  have hreplay : (replayRecords v.log).entries = v.log := by
    rw [replayRecords_of_indexedFrom h.contiguous]
  exact
    { h with
      durable_le := hd
      synced_le := Nat.le_refl _
      placed := rfl
      recsPos := fun e he => ⟨by have := (h.contiguous.mem_bounds he).1; omega, h.logTerms e he⟩
      held := fun _ e he => by
        rw [hreplay]
        exact he
      survives := fun m hm e he _ => by
        rw [take_of_length_le hm, hreplay]
        exact he }

/-- A kept entry is not displaced by records that follow the first `k` entries. -/
theorem mem_replay_append (hok : v.failed = false) {k : Nat} (hk : k ≤ v.log.length)
    {es : List (LogEntry κ)} (hes : IndexedFrom (v.lastIncludedIndex + 1 + k) es) {e : LogEntry κ}
    (he : e ∈ v.log.take k ++ es) : e ∈ (replayRecords (v.recs ++ es)).entries := by
  obtain ⟨rest, hrest, hkeep⟩ := @replayRecords_append _ v.recs _ _ hes
  rw [hrest, mem_append]
  rcases mem_append.1 he with he | he
  · refine .inl (hkeep e (h.held (.inl hok) e (mem_of_mem_take he)) ?_ ?_)
    · have := (h.contiguous.take k).mem_bounds he
      rw [length_take_of_le hk] at this
      omega
    · have hpos : 0 < k := by
        rcases Nat.eq_zero_or_pos k with rfl | hpos
        · simp at he
        · exact hpos
      have hlt : k - 1 < v.log.length := by omega
      refine ⟨v.log[k - 1], h.held (.inl hok) _ (getElem_mem hlt), ?_⟩
      rw [h.contiguous.getElem_index]
      omega
  · exact .inr he

theorem extend (hok : v.failed = false) {k : Nat} (hk : k ≤ v.log.length) {es : List (LogEntry κ)}
    (hes : IndexedFrom (v.lastIncludedIndex + 1 + k) es) (hpos : ∀ e ∈ es, 0 < e.term) :
    Durable { v with log := v.log.take k ++ es, recs := v.recs ++ es
                     durableIndex := min v.durableIndex (v.lastIncludedIndex + k) } where
  contiguous := by
    refine (indexedFrom_append _ _ _).2 ⟨h.contiguous.take k, ?_⟩
    rw [length_take_of_le hk]
    exact hes
  durable_le := by
    simp only [length_append, length_take_of_le hk]
    omega
  synced_le := by
    have := h.synced_le
    simp only [length_append]
    omega
  logTerms e he := by
    rcases mem_append.1 he with he | he
    · exact h.logTerms e (mem_of_mem_take he)
    · exact hpos e he
  recsPos e he := by
    rcases mem_append.1 he with he | he
    · exact h.recsPos e he
    · have := (hes.mem_bounds he).1
      exact ⟨by omega, hpos e he⟩
  placed := h.placed
  baseTerm := h.baseTerm
  genuine := h.genuine
  held _ e he := h.mem_replay_append hok hk hes he
  survives m hm e he hidx := by
    dsimp only at he hidx ⊢
    have hkept : e ∈ v.log.take k := by
      rcases mem_append.1 he with he | he
      · exact he
      · have := (hes.mem_bounds he).1
        omega
    rw [take_append]
    by_cases hle : m ≤ v.recs.length
    · rw [Nat.sub_eq_zero_of_le hle, take_zero, append_nil]
      exact h.survives m hm e (mem_of_mem_take hkept) (by omega)
    · rw [take_of_length_le (by omega)]
      exact h.mem_replay_append hok hk (hes.take _) (mem_append_left _ hkept)

theorem lose {j : Nat} (hj : v.synced ≤ j) {p : SyncPhase} (hp : p.Genuine) (hwrote : ¬p.Wrote) :
    Durable { v with recs := v.recs.take j, failed := true, sync := p } :=
  { h with
    synced_le := by
      have := h.synced_le
      simp only [length_take]
      omega
    recsPos e he := h.recsPos e (mem_of_mem_take he)
    genuine := hp
    held hok := by
      rcases hok with hok | hok
      · cases hok
      · exact absurd hok hwrote
    survives m hm e he hidx := by
      dsimp only at hm ⊢
      rw [take_take]
      exact h.survives _ (by omega) e he hidx }

theorem advance {p : SyncPhase} (hp : p.Genuine)
    (hwrote : p.Wrote → v.failed = false ∨ v.sync.Wrote) {j : Nat} (hj : v.synced ≤ j)
    (hle : j ≤ v.recs.length) : Durable { v with synced := j, sync := p } :=
  { h with
    synced_le := hle
    genuine := hp
    held hok := h.held (hok.elim .inl hwrote)
    survives m hm := h.survives m (Nat.le_trans hj hm) }

/-- The log is marked durable through `d`: no record that is not fsynced may reach
back to there. -/
theorem mark (hwrote : v.sync.Wrote) {d : Nat} (hd : d ≤ v.lastIncludedIndex + v.log.length)
    (hcovered : ∀ e ∈ v.recs.drop v.synced, d < e.index) :
    Durable { v with durableIndex := d, sync := .idle } :=
  { h with
    durable_le := hd
    genuine := trivial
    held hok := h.held (hok.elim .inl False.elim)
    survives m hm e he hidx := by
      have hfull := h.held (.inr hwrote) e he
      rw [← take_append_drop m v.recs, replayRecords, foldl_append] at hfull
      rcases mem_foldl_replayRecord _ _ e hfull with hmem | hmem
      · exact hmem
      · -- the records after the crash point are all above the mark
        have hdrop : v.recs.drop m = (v.recs.drop v.synced).drop (m - v.synced) := by
          rw [drop_drop]
          congr 1
          dsimp only at hm
          omega
        rw [hdrop] at hmem
        have := hcovered e (mem_of_mem_drop hmem)
        dsimp only at hidx
        omega }

end

end Durable

end LogParts

/-! ## One node -/

namespace NodeCore

variable {ι κ : Type} (n : NodeCore ι κ)

def logParts : LogParts κ where
  log := n.log
  lastIncludedIndex := n.lastIncludedIndex
  lastIncludedTerm := n.lastIncludedTerm
  durableIndex := n.durableIndex
  recs := n.store.recs
  synced := n.store.synced
  renamed := n.store.renamed
  failed := n.store.failed
  sync := n.sync

def captureHeader : Option (SnapshotMeta ι) :=
  match n.capture with
  | .idle => none
  | .fenced m => some m
  | .installed m => some m

def headers : List (SnapshotMeta ι) :=
  n.snapFile.toList ++ n.captureHeader.toList ++ (n.install.map Prod.fst).toList

theorem mem_headers {n : NodeCore ι κ} {x : SnapshotMeta ι} :
    x ∈ n.headers ↔ n.snapFile = some x ∨ n.captureHeader = some x ∨
      ∃ stage, n.install = some (x, stage) := by
  simp [headers]

/-- The node's log and file agree, and its snapshots are of real terms. -/
structure Durable (n : NodeCore ι κ) : Prop where
  parts : n.logParts.Durable
  headers : ∀ m ∈ n.headers, 0 < m.term

inductive LogEvent (ι κ : Type) where
  | accept (req : AppendRequest ι κ) (o o' : ReplaceOutcome)
  | append (entries : List (LogEntry κ))
  | capture
  | write (o : WriteOutcome)
  | fsync (ok : Bool)
  | finish
  | compact (w : LogStore.RewriteOutcome)
  | install (w : LogStore.RewriteOutcome)
  /-- A crash that leaves the log as `f` says, and a restart. -/
  | restart (f : LogStore.CrashedLog) (applied : Option AppliedIndexState) (o : ReplaceOutcome)
      (w : LogStore.RewriteOutcome)

/-- The entries of an event are consecutive, follow where they say, and have terms. -/
def Admits : LogEvent ι κ → Prop
  | .accept req _ _ => IndexedFrom (req.args.prevLogIndex + 1) req.args.entries ∧
      ∀ e ∈ req.args.entries, 0 < e.term
  | .append entries => IndexedFrom (n.lastLogIndex + 1) entries ∧ ∀ e ∈ entries, 0 < e.term
  | _ => True

instance instDecidableAdmits (ev : LogEvent ι κ) : Decidable (n.Admits ev) :=
  match ev with
  | .accept .. => inferInstanceAs (Decidable (_ ∧ _))
  | .append _ => inferInstanceAs (Decidable (_ ∧ _))
  | .capture => isTrue trivial
  | .write _ => isTrue trivial
  | .fsync _ => isTrue trivial
  | .finish => isTrue trivial
  | .compact _ => isTrue trivial
  | .install _ => isTrue trivial
  | .restart .. => isTrue trivial

section

variable [DecidableEq ι] [CommandCodec ι κ]

/-- The effect of an event, if it is enabled, with the requests it answers. -/
def onLogEvent :
    LogEvent ι κ → Option (NodeCore ι κ × List (AppendRequest ι κ × AppendEntriesReply))
  | .accept req o o' => some (n.handleAppendEntries req o o')
  | .append entries => (n.leaderAppend entries).map fun n => (n, [])
  | .capture =>
    match n.sync with
    | .idle => some (n.syncCapture, [])
    | _ => none
  | .write o =>
    match n.sync with
    | .captured idx term => some (n.syncWrite idx term o, [])
    | _ => none
  | .fsync ok =>
    match n.sync with
    | .written idx term covered gen => some (n.syncFsync idx term covered gen ok, [])
    | _ => none
  | .finish =>
    match n.sync with
    | .flushed idx term result => some (n.syncFinish idx term result)
    | _ => none
  | .compact w => some (n.captureCompact w, [])
  | .install w => some (n.installLog w)
  | .restart f applied o w => (n.crashRestart f applied o w).map fun n => (n, [])

/-- A run of events that meet the condition `P`.  Between them everything but the
log and its file may change. -/
inductive LogRun (P : NodeCore ι κ → LogEvent ι κ → Prop) : NodeCore ι κ → Prop where
  | fresh (id : ι) (boot : Configuration ι) (batchSM appliedSM : Bool) :
      LogRun P (RaftNode.freshCore id boot batchSM appliedSM)
  | event {n n' : NodeCore ι κ} {ev : LogEvent ι κ}
      {replies : List (AppendRequest ι κ × AppendEntriesReply)} (h : LogRun P n)
      (hadmits : n.Admits ev) (hP : P n ev) (hev : n.onLogEvent ev = some (n', replies)) :
      LogRun P n'
  | elsewhere {n n' : NodeCore ι κ} (h : LogRun P n) (hparts : n'.logParts = n.logParts)
      (hheaders : ∀ m ∈ n'.headers, 0 < m.term) : LogRun P n'

/-- What the event makes count as durable has been fsynced: a mark raises the durable
index only when no record that is not fsynced reaches back to it, a rewritten file keeps
its name, and a start finds fsynced records only. -/
def Covered : LogEvent ι κ → Prop
  | .finish =>
    match n.sync with
    | .flushed idx term (some true) =>
      n.durableIndex < idx → n.logTerm idx = term →
        ∀ e ∈ n.store.recs.drop n.store.synced, idx < e.index
    | _ => True
  | .compact w => w ≠ .failedRenamed
  | .install w => w ≠ .failedRenamed
  | .restart (.tail kept) _ _ _ => kept ≤ n.store.synced
  | _ => True

end

/-! ## Every event keeps the agreement -/

variable {n n' c : NodeCore ι κ} {req : AppendRequest ι κ} {entries : List (LogEntry κ)}
  {replies : List (AppendRequest ι κ × AppendEntriesReply)}

theorem Durable.contiguous (h : n.Durable) : n.Contiguous := h.parts.contiguous

theorem Durable.durable_le (h : n.Durable) : n.durableIndex ≤ n.lastLogIndex := by
  rw [h.contiguous.lastLogIndex_eq]
  exact h.parts.durable_le

/-- The suffix that an install keeps is a part of the log, right after the snapshot. -/
theorem Contiguous.keptLog (h : n.Contiguous) {m : SnapshotMeta ι}
    (hbase : n.lastIncludedIndex ≤ m.index) :
    (∀ e ∈ n.keptLog m, e ∈ n.log) ∧ IndexedFrom (m.index + 1) (n.keptLog m) := by
  rw [NodeCore.keptLog]
  split
  next hagree =>
    have hlast := h.lastLogIndex_eq
    rw [h.entriesFrom_eq (by omega)]
    refine ⟨fun e he => mem_of_mem_drop he, ?_⟩
    have hdrop := IndexedFrom.drop h (m.index + 1 - n.lastIncludedIndex - 1) (by omega)
    rwa [show n.lastIncludedIndex + 1 + (m.index + 1 - n.lastIncludedIndex - 1) = m.index + 1 by
      omega] at hdrop
  · exact ⟨fun e he => (not_mem_nil he).elim, trivial⟩

theorem Durable.congr (h : n.Durable) (hparts : n'.logParts = n.logParts)
    (hheaders : n'.headers = n.headers) : n'.Durable :=
  ⟨hparts ▸ h.parts, hheaders ▸ h.headers⟩

theorem VotingOnly.durable (h : VotingOnly n n') (hn : n.Durable) : n'.Durable := by
  obtain ⟨_, _, _, _, _, _, _, _, _, rfl⟩ := h
  exact hn.congr rfl rfl

theorem durable_freshCore (id : ι) (boot : Configuration ι) (batchSM appliedSM : Bool) :
    (RaftNode.freshCore id boot batchSM appliedSM : NodeCore ι κ).Durable where
  parts :=
    { contiguous := trivial
      durable_le := Nat.le_refl _
      synced_le := Nat.le_refl _
      placed := rfl
      logTerms := fun e he => by cases he
      recsPos := fun e he => by cases he
      baseTerm := .inl rfl
      genuine := trivial
      held := fun _ e he => by cases he
      survives := fun m _ e he => by cases he }
  headers m hm := by cases hm

/-! ### AppendEntries -/

/-- The entries that a matched request carries are consecutive after its position. -/
theorem Matched.indexedFrom {prev : Nat} (hm : n.Matched req prev entries)
    (hent : IndexedFrom (req.args.prevLogIndex + 1) req.args.entries) :
    IndexedFrom (prev + 1) entries ∧ ∀ e ∈ entries, e ∈ req.args.entries := by
  cases hm with
  | direct => exact ⟨hent, fun e he => he⟩
  | overlapping =>
    have hdrop := hent.drop (n.lastIncludedIndex - req.args.prevLogIndex) (by omega)
    rw [show req.args.prevLogIndex + 1 + (n.lastIncludedIndex - req.args.prevLogIndex) =
      n.lastIncludedIndex + 1 by omega] at hdrop
    exact ⟨hdrop, fun e he => mem_of_mem_drop he⟩

/-- Success is answered for what is durable, or covered by the snapshot. -/
def AnswersDurable (n : NodeCore ι κ) (reply : AppendEntriesReply) : Prop :=
  reply.success = true → reply.matchIndex ≤ max n.durableIndex n.lastIncludedIndex

theorem answersDurable_takeDecidedWaiters (n : NodeCore ι κ) :
    ∀ r ∈ n.takeDecidedWaiters.2, n.AnswersDurable r.2 := by
  intro r hr hok
  obtain ⟨w, -, hw⟩ := mem_filterMap.1 hr
  obtain ⟨ok, hdecided, rfl⟩ := map_eq_some_iff.1 hw
  cases ok with
  | false => exact absurd hok (by simp [decidedReply, refusal])
  | true =>
    have hmatch : (n.decidedReply w true).matchIndex = w.target := rfl
    dsimp only
    rw [hmatch]
    rw [decideWaiter] at hdecided
    split at hdecided
    · simp at hdecided
    · split at hdecided
      · omega
      · split at hdecided
        · simp at hdecided
        · split at hdecided
          · omega
          · cases hdecided

section

variable [CommandCodec ι κ]

theorem Durable.appended (h : n.Durable) {prev : Nat} (hprev : n.lastIncludedIndex ≤ prev)
    (hent : IndexedFrom (prev + 1) entries) (hpos : ∀ e ∈ entries, 0 < e.term) {ok : Bool}
    (hap : Appended n prev entries c ok) : c.Durable := by
  have hlast := h.contiguous.lastLogIndex_eq
  have hbound : ∀ {k}, n.Holds prev entries k →
      prev + k - n.lastIncludedIndex ≤ n.log.length := by
    intro k hholds
    have := hholds.1
    omega
  have hsum : ∀ k, n.lastIncludedIndex + (prev + k - n.lastIncludedIndex) = prev + k := by
    intro k
    omega
  cases hap with
  | known => exact h
  | superseded k cfg i hholds hconflict hhealthy =>
    have hlen : k ≤ entries.length := by
      obtain ⟨e, he, -⟩ := hconflict
      have := (List.getElem?_eq_some_iff.1 he).1
      omega
    have hes : IndexedFrom (n.lastIncludedIndex + 1 + (prev + k - n.lastIncludedIndex))
        (entries.drop k) := by
      rw [Nat.add_right_comm, hsum, Nat.add_right_comm]
      exact hent.drop k hlen
    have hext := h.parts.extend hhealthy (hbound hholds) hes fun e he => hpos e (mem_of_mem_drop he)
    refine ⟨?_, h.headers⟩
    rw [show n.logParts.lastIncludedIndex = n.lastIncludedIndex from rfl, hsum] at hext
    exact hext
  | refused k cfg i hholds =>
    have htake := h.parts.take _ (hbound hholds)
    refine ⟨?_, h.headers⟩
    rw [show n.logParts.lastIncludedIndex = n.lastIncludedIndex from rfl, hsum] at htake
    exact htake

theorem Durable.handled (h : n.Durable)
    (hent : IndexedFrom (req.args.prevLogIndex + 1) req.args.entries)
    (hpos : ∀ e ∈ req.args.entries, 0 < e.term) {answer : AppendEntriesReply ⊕ AeWaiter ι κ}
    (hc : Handled n req c answer) : c.Durable := by
  cases hc with
  | covered | refused => exact h
  | unqueued hmatched happended =>
    obtain ⟨hidx, hmem⟩ := hmatched.indexedFrom hent
    exact h.appended (hmatched.bounds h.contiguous).1 hidx (fun e he => hpos e (hmem e he))
      happended
  | appended hmatched happended =>
    obtain ⟨hidx, hmem⟩ := hmatched.indexedFrom hent
    exact (h.appended (hmatched.bounds h.contiguous).1 hidx (fun e he => hpos e (hmem e he))
      happended).congr rfl rfl

theorem Handled.answersDurable {reply : AppendEntriesReply} (hc : Handled n req c (.inl reply)) :
    c.AnswersDurable reply := by
  intro hok
  cases hc with
  | covered hprev hlen => exact Nat.le_trans hlen (Nat.le_max_right _ _)
  | refused _ hreply => simp [hreply] at hok
  | unqueued => simp [refusal] at hok
  | appended _ _ hanswer =>
    obtain ⟨i, -, hi, rfl⟩ := hanswer
    exact Nat.le_trans hi (Nat.le_max_left _ _)

variable [DecidableEq ι]

theorem Durable.appendEntries (h : n.Durable)
    (hent : IndexedFrom (req.args.prevLogIndex + 1) req.args.entries)
    (hpos : ∀ e ∈ req.args.entries, 0 < e.term) (o o' : ReplaceOutcome) :
    (n.appendEntries req o o').1.Durable ∧
      ∀ reply, (n.appendEntries req o o').2 = .inl reply →
        (n.appendEntries req o o').1.AnswersDurable reply := by
  have hacc := (VotingOnly.acceptLeader n req.args.term o o').durable h
  simp only [NodeCore.appendEntries]
  split
  · have hhandled := handled_appendMatched hacc.contiguous hacc.durable_le req
    refine ⟨hacc.handled hent hpos hhandled, fun reply hreply => ?_⟩
    rw [hreply] at hhandled
    exact hhandled.answersDurable
  · refine ⟨hacc, fun reply hreply => ?_⟩
    cases hreply
    intro hok
    simp [refusal] at hok

theorem Durable.handleAppendEntries (h : n.Durable)
    (hent : IndexedFrom (req.args.prevLogIndex + 1) req.args.entries)
    (hpos : ∀ e ∈ req.args.entries, 0 < e.term) (o o' : ReplaceOutcome) :
    (n.handleAppendEntries req o o').1.Durable ∧
      ∀ r ∈ (n.handleAppendEntries req o o').2,
        (n.handleAppendEntries req o o').1.AnswersDurable r.2 := by
  obtain ⟨hdur, hreply⟩ := h.appendEntries hent hpos o o'
  simp only [NodeCore.handleAppendEntries]
  split
  next c reply heq =>
    rw [heq] at hdur hreply
    refine ⟨hdur.congr rfl rfl, fun r hr => ?_⟩
    rcases mem_cons.1 hr with rfl | hr
    · exact hreply reply rfl
    · exact answersDurable_takeDecidedWaiters c r hr
  next c w heq =>
    rw [heq] at hdur
    exact ⟨hdur.congr rfl rfl, answersDurable_takeDecidedWaiters _⟩

end

/-! ### Leader appends and the syncer -/

section

variable (h : n.Durable)
include h

theorem Durable.leaderAppend (hent : IndexedFrom (n.lastLogIndex + 1) entries)
    (hpos : ∀ e ∈ entries, 0 < e.term) (happ : n.leaderAppend entries = some n') : n'.Durable := by
  have hlast := h.contiguous.lastLogIndex_eq
  obtain ⟨store, hstore, rfl⟩ := map_eq_some_iff.1 happ
  obtain ⟨rfl, hhealthy⟩ := LogStore.enqueue_some hstore
  rcases hhealthy with hhealthy | rfl
  · have hent' : IndexedFrom (n.logParts.lastIncludedIndex + 1 + n.log.length) entries := by
      rw [show n.logParts.lastIncludedIndex + 1 + n.log.length = n.lastLogIndex + 1 by
        rw [hlast]
        exact Nat.add_right_comm _ _ _]
      exact hent
    have hext := h.parts.extend hhealthy (Nat.le_refl n.log.length) hent' hpos
    refine ⟨?_, h.headers⟩
    have hd : min n.logParts.durableIndex (n.logParts.lastIncludedIndex + n.log.length) =
        n.durableIndex := Nat.min_eq_left h.parts.durable_le
    rw [show n.logParts.log.take n.log.length = n.log from take_length, hd] at hext
    exact hext
  · exact h.congr (by simp [logParts]) rfl

theorem Durable.lastLogTerm_pos (hterm : n.lastLogTerm = 0) : n.lastLogIndex = 0 := by
  rw [lastLogTerm] at hterm
  rw [lastLogIndex]
  rcases hlast : n.log.getLast? with _ | e
  · rw [hlast] at hterm
    rcases h.parts.baseTerm with hbase | hbase
    · exact hbase
    · exact absurd hterm (Nat.ne_of_gt hbase)
  · rw [hlast] at hterm
    exact absurd hterm (Nat.ne_of_gt (h.parts.logTerms e (mem_of_getLast? hlast)))

theorem Durable.syncCapture : n.syncCapture.Durable :=
  ⟨h.parts.advance (p := .captured n.lastLogIndex n.lastLogTerm) h.lastLogTerm_pos
    False.elim (Nat.le_refl _) h.parts.synced_le, h.headers⟩

theorem Durable.syncWrite {idx term : Nat} (hsync : n.sync = .captured idx term)
    (o : WriteOutcome) : (n.syncWrite idx term o).Durable := by
  have hgen : term = 0 → idx = 0 := by
    have := h.parts.genuine
    rwa [show n.logParts.sync = .captured idx term from hsync] at this
  have hmove : ∀ p : SyncPhase, p.Genuine → (p.Wrote → n.store.failed = false) →
      ({ n with sync := p } : NodeCore ι κ).Durable := fun p hp hw =>
    ⟨h.parts.advance hp (fun hwrote => .inl (hw hwrote)) (Nat.le_refl _) h.parts.synced_le,
      h.headers⟩
  simp only [NodeCore.syncWrite]
  split
  · exact hmove _ hgen False.elim
  · split
    · exact hmove _ hgen False.elim
    next hhealthy =>
      rw [Bool.not_eq_true] at hhealthy
      split
      · exact hmove _ hgen (fun _ => hhealthy)
      · cases o with
        | done => exact hmove _ hgen (fun _ => hhealthy)
        | failed kept =>
          exact ⟨h.parts.lose (p := .flushed idx term (some false)) (Nat.le_max_left _ kept)
            hgen False.elim, h.headers⟩

theorem Durable.syncFsync {idx term covered gen : Nat}
    (hsync : n.sync = .written idx term covered gen) (ok : Bool) :
    (n.syncFsync idx term covered gen ok).Durable := by
  have hgen : term = 0 → idx = 0 := by
    have := h.parts.genuine
    rwa [show n.logParts.sync = .written idx term covered gen from hsync] at this
  have hwrote : n.logParts.sync.Wrote := by
    rw [show n.logParts.sync = .written idx term covered gen from hsync]
    trivial
  have hsynced : n.store.synced ≤ n.store.recs.length := h.parts.synced_le
  rw [NodeCore.syncFsync]
  split
  · exact ⟨h.parts.advance (p := .flushed idx term (some true)) hgen (fun _ => .inr hwrote)
      (Nat.le_refl _) h.parts.synced_le, h.headers⟩
  · split
    · exact ⟨h.parts.advance (p := .flushed idx term (some true)) hgen (fun _ => .inr hwrote)
        (Nat.le_max_left _ _) (Nat.max_le.2 ⟨hsynced, Nat.min_le_right _ _⟩), h.headers⟩
    · exact ⟨h.parts.lose (p := .flushed idx term (some false)) (Nat.le_max_left _ covered) hgen
        False.elim, h.headers⟩

variable [DecidableEq ι] in
theorem durable_maybeAdvanceCommit : n.maybeAdvanceCommit.Durable := by
  rw [maybeAdvanceCommit]
  split <;> exact h.congr rfl rfl

end

namespace Durable

variable (h : n.Durable)
include h

theorem idle : ({ n with sync := .idle } : NodeCore ι κ).Durable :=
  ⟨h.parts.advance (p := .idle) trivial False.elim (Nat.le_refl _)
    h.parts.synced_le, h.headers⟩

/-- A position with a real term is in the log. -/
theorem le_lastLogIndex {idx : Nat} (hterm : n.logTerm idx ≠ 0) : idx ≤ n.lastLogIndex := by
  have hlast := h.contiguous.lastLogIndex_eq
  by_cases hle : idx ≤ n.lastIncludedIndex
  · omega
  · rw [h.contiguous.logTerm_eq (by omega)] at hterm
    by_contra hgt
    rw [List.getElem?_eq_none (by omega)] at hterm
    exact hterm rfl

theorem keptLog {m : SnapshotMeta ι} (hpos : 0 < m.term) :
    (∀ e ∈ n.keptLog m, e ∈ n.log) ∧ IndexedFrom (m.index + 1) (n.keptLog m) := by
  by_cases hbase : n.lastIncludedIndex ≤ m.index
  · exact h.contiguous.keptLog hbase
  · have hzero : n.logTerm m.index = 0 := by
      rw [logTerm, h.contiguous.entryAt_eq]
      split
      · rfl
      · rw [if_neg (by omega), if_pos (by omega)]
        rfl
    rw [NodeCore.keptLog, if_neg (by omega)]
    exact ⟨fun e he => (not_mem_nil he).elim, trivial⟩

variable [CommandCodec ι κ] in
theorem onPersistFailure : n.onPersistFailure.Durable := by
  have hlast := h.contiguous.lastLogIndex_eq
  rw [NodeCore.onPersistFailure]
  split
  · exact h
  · split
    next hdrop =>
      rw [refreshConfigFromLog_eq, h.contiguous.logFirstIndex_eq] at *
      have hcut : n.lastIncludedIndex + (n.durableIndex + 1 - (n.lastIncludedIndex + 1)) =
          n.durableIndex := by omega
      have htake := h.parts.take (n.durableIndex + 1 - (n.lastIncludedIndex + 1)) (by
        show _ ≤ n.log.length
        omega)
      rw [show n.logParts.lastIncludedIndex = n.lastIncludedIndex from rfl, hcut,
        show n.logParts.durableIndex = n.durableIndex from rfl, Nat.min_self] at htake
      exact ⟨htake, h.headers⟩
    · exact h

variable [DecidableEq ι]

theorem markDurable {idx term : Nat}
    (hsync : n.sync = .flushed idx term (some true)) (hmark : Covered n .finish) :
    (({ n with sync := .idle } : NodeCore ι κ).markDurable idx term).Durable := by
  have hgen : term = 0 → idx = 0 := by
    have := h.parts.genuine
    rwa [show n.logParts.sync = .flushed idx term (some true) from hsync] at this
  have hwrote : n.logParts.sync.Wrote := by
    rw [show n.logParts.sync = .flushed idx term (some true) from hsync]
    trivial
  simp only [Covered, hsync] at hmark
  rw [NodeCore.markDurable]
  split
  · exact h.idle
  next hnew =>
    rw [not_or, Nat.not_le, not_not] at hnew
    obtain ⟨hlt, hterm⟩ := hnew
    have hle : idx ≤ n.lastLogIndex := by
      refine h.le_lastLogIndex fun hzero => ?_
      have := hgen (hterm.symm.trans hzero)
      omega
    rw [h.contiguous.lastLogIndex_eq] at hle
    have hmarked : ({ n with sync := .idle, durableIndex := idx } : NodeCore ι κ).Durable :=
      ⟨h.parts.mark hwrote hle (hmark hlt hterm), h.headers⟩
    dsimp only
    split
    · exact durable_maybeAdvanceCommit hmarked
    · exact hmarked

variable [CommandCodec ι κ] in
theorem syncFinish {idx term : Nat} {result : Option Bool}
    (hsync : n.sync = .flushed idx term result) (hmark : Covered n .finish) :
    (n.syncFinish idx term result).1.Durable := by
  rcases result with _ | _ | _
  · exact h.idle.congr rfl rfl
  · exact h.idle.onPersistFailure.congr rfl rfl
  · exact (h.markDurable hsync hmark).congr rfl rfl

/-! ### Rewrites and restarts -/

theorem rewriteLog {w : LogStore.RewriteOutcome} (hw : w ≠ .failedRenamed) :
    (n.rewriteLog w).Durable := by
  have hlast := h.contiguous.lastLogIndex_eq
  have hmin : min n.durableIndex n.lastLogIndex ≤ n.lastIncludedIndex + n.log.length := by omega
  simp only [NodeCore.rewriteLog]
  rcases n.store.rewrite_cases n.log w with heq | heq | heq | ⟨hrenamed, -⟩
  · rw [heq]
    refine ⟨?_, h.headers⟩
    exact h.parts.shrink (fun e he => he) h.contiguous (Nat.min_le_left _ _) hmin h.parts.baseTerm
  · rw [heq]
    rw [if_pos rfl]
    have hdone : ({ n with
        store := { n.store.replaced n.log with failed := false, gen := n.store.gen + 1 }
        durableIndex := n.lastLogIndex } : NodeCore ι κ).Durable :=
      ⟨h.parts.rewritten false (Nat.le_of_eq hlast), h.headers⟩
    split
    · exact durable_maybeAdvanceCommit hdone
    · exact hdone
  · rw [heq]
    exact ⟨h.parts.rewritten true hmin, h.headers⟩
  · exact absurd hrenamed hw

theorem rebased {log : List (LogEntry κ)} {m : SnapshotMeta ι}
    (hsub : ∀ e ∈ log, e ∈ n.log) (hlog : IndexedFrom (m.index + 1) log) (hpos : 0 < m.term)
    (hparts : c.logParts = { n.logParts with
      log := log, lastIncludedIndex := m.index, lastIncludedTerm := m.term })
    (hheaders : ∀ m ∈ c.headers, 0 < m.term) {w : LogStore.RewriteOutcome}
    (hw : w ≠ .failedRenamed) : (c.rewriteLog w).Durable := by
  -- the rewrite lowers the durable index to the log's end anyway
  have hcontig : c.Contiguous := by
    have hlog' : c.log = log := congrArg LogParts.log hparts
    have hbase : c.lastIncludedIndex = m.index := congrArg LogParts.lastIncludedIndex hparts
    rw [Contiguous, hlog', hbase]
    exact hlog
  have hlast := hcontig.lastLogIndex_eq
  have hshrunk : ({ c with durableIndex := min c.durableIndex c.lastLogIndex } :
      NodeCore ι κ).Durable := by
    refine ⟨?_, hheaders⟩
    have hshrink := h.parts.shrink hsub hlog
      (d := min n.durableIndex (m.index + log.length)) (Nat.min_le_left _ _)
      (Nat.min_le_right _ _) (.inr hpos)
    have hd : c.durableIndex = n.durableIndex := congrArg LogParts.durableIndex hparts
    have hend : c.lastLogIndex = m.index + log.length := by
      rw [hlast]
      exact congrArg₂ (· + ·) (congrArg LogParts.lastIncludedIndex hparts)
        (congrArg (fun v => v.log.length) hparts)
    rw [show ({ c with durableIndex := min c.durableIndex c.lastLogIndex } :
      NodeCore ι κ).logParts = { c.logParts with
        durableIndex := min c.durableIndex c.lastLogIndex } from rfl, hparts, hd, hend]
    exact hshrink
  have hrw := hshrunk.rewriteLog hw
  have hsame : (({ c with durableIndex := min c.durableIndex c.lastLogIndex } :
      NodeCore ι κ).rewriteLog w) = c.rewriteLog w := by
    simp only [NodeCore.rewriteLog]
    rw [show ({ c with durableIndex := min c.durableIndex c.lastLogIndex } :
      NodeCore ι κ).store = c.store from rfl]
    rcases c.store.rewrite_cases c.log w with hw | hw | hw | ⟨-, hw⟩ <;>
      · simp [lastLogIndex]
  rwa [hsame] at hrw

theorem captureCompact {w : LogStore.RewriteOutcome} (hw : w ≠ .failedRenamed) :
    (n.captureCompact w).Durable := by
  rw [NodeCore.captureCompact]
  split
  next m hcap =>
    have hmem : m ∈ n.headers := mem_headers.2 (.inr (.inl (by simp [captureHeader, hcap])))
    have hsub : ∀ x ∈ ({ n with capture := .idle } : NodeCore ι κ).headers, 0 < x.term := by
      intro x hx
      rcases mem_headers.1 hx with hx | hx | hx
      · exact h.headers x (mem_headers.2 (.inl hx))
      · cases hx
      · exact h.headers x (mem_headers.2 (.inr (.inr hx)))
    dsimp only
    split
    next hlt =>
      refine rebased (m := m) (c := ({ n with capture := .idle } : NodeCore ι κ).compactTo m) h
        (fun e (he : e ∈ n.log.drop (m.index - n.lastIncludedIndex)) =>
          mem_of_mem_drop he) ?_ (h.headers m hmem) ?_ hsub hw
      · by_cases hle : m.index - n.lastIncludedIndex ≤ n.log.length
        · have hdrop := IndexedFrom.drop h.contiguous _ hle
          rwa [show n.lastIncludedIndex + 1 + (m.index - n.lastIncludedIndex) = m.index + 1 by
            omega] at hdrop
        · rw [drop_eq_nil_of_le (by omega)]
          trivial
      · rw [compactTo, show ({ n with capture := .idle } : NodeCore ι κ).logFirstIndex =
          n.logFirstIndex from rfl, h.contiguous.logFirstIndex_eq, if_pos (by omega),
          show m.index - (n.lastIncludedIndex + 1) + 1 = m.index - n.lastIncludedIndex by omega]
        rfl
    · exact ⟨h.parts, hsub⟩
  · exact h

variable [CommandCodec ι κ] in
theorem installLog {w : LogStore.RewriteOutcome} (hw : w ≠ .failedRenamed) :
    (n.installLog w).1.Durable := by
  rw [NodeCore.installLog]
  split
  next m hinst =>
    have hmem : m ∈ n.headers := mem_headers.2 (.inr (.inr ⟨_, hinst⟩))
    obtain ⟨hsub, hidx⟩ := h.keptLog (h.headers m hmem)
    refine congr (rebased (m := m) h hsub hidx (h.headers m hmem) ?_ ?_ hw) rfl rfl
    · rw [replaceLog, refreshConfigFromLog_eq]
      rfl
    · intro x hx
      rw [replaceLog, refreshConfigFromLog_eq] at hx
      rcases mem_headers.1 hx with hx | hx | ⟨stage, hx⟩
      · exact h.headers x (mem_headers.2 (.inl hx))
      · exact h.headers x (mem_headers.2 (.inr (.inl hx)))
      · cases hx
        exact h.headers m hmem
  · exact h

end Durable

theorem indexedFrom_loaded {recs : List (LogEntry κ)} (hpos : ∀ e ∈ recs, 0 < e.index)
    (hhead : ((n.loaded recs).log.head?.map LogEntry.index).getD 0 ≤ n.snapIndex + 1) :
    IndexedFrom (n.snapIndex + 1) (n.loaded recs).log := by
  obtain ⟨s, hspos, hs⟩ := exists_indexedFrom_replayRecords hpos
  have hlog : (n.loaded recs).log = dropCovered n.snapIndex (replayRecords recs).entries := rfl
  rw [hlog, dropCovered_eq hs hspos] at hhead ⊢
  by_cases hle : n.snapIndex + 1 - s ≤ (replayRecords recs).entries.length
  · have hdrop := hs.drop _ hle
    rcases hd : (replayRecords recs).entries.drop (n.snapIndex + 1 - s) with _ | ⟨x, xs⟩
    · trivial
    · rw [hd] at hdrop hhead
      have hx : x.index = s + (n.snapIndex + 1 - s) := hdrop.1
      have hxle : x.index ≤ n.snapIndex + 1 := hhead
      rwa [show s + (n.snapIndex + 1 - s) = n.snapIndex + 1 by omega] at hdrop
  · rw [drop_eq_nil_of_le (by omega)]
    trivial

variable [CommandCodec ι κ] in
theorem headers_startup (n : NodeCore ι κ) (a : Option AppliedIndexState) :
    (n.startup a).headers = n.snapFile.toList := by
  rw [startup, refreshConfigFromLog_eq]
  simp [headers, captureHeader]

variable [DecidableEq ι] [CommandCodec ι κ]

/-- A start from a file whose records are all fsynced. -/
theorem durable_restart {recs : List (LogEntry κ)} {a : Option AppliedIndexState}
    {o : ReplaceOutcome} {w : LogStore.RewriteOutcome} (hplaced : n.store.renamed = [])
    (hheaders : ∀ m ∈ n.headers, 0 < m.term) (hsynced : recs.length ≤ n.store.synced)
    (hrecs : ∀ e ∈ recs, 0 < e.index ∧ 0 < e.term) (hrestart : n.restart recs a o w = some n') :
    n'.Durable := by
  obtain ⟨-, hhead, -, m, store, hm, hstore, rfl⟩ := restart_some hrestart
  have hidx := indexedFrom_loaded (fun e he => (hrecs e he).1) hhead
  have hsnap : ∀ x ∈ n.snapFile.toList, 0 < x.term := fun x hx =>
    hheaders x (mem_headers.2 (.inl (mem_toList.1 hx)))
  have hmem : ∀ e ∈ (n.loaded recs).log, e ∈ (replayRecords recs).entries := by
    intro e he
    have he' : e ∈ dropCovered n.snapIndex (replayRecords recs).entries := he
    rw [dropCovered] at he'
    split at he'
    · cases he'
    · split at he'
      · exact mem_of_mem_drop he'
      · exact he'
  have hbase : n.snapIndex = 0 ∨ 0 < (n.snapFile.map SnapshotMeta.term).getD 0 := by
    rcases hfile : n.snapFile with _ | x
    · exact .inl (by simp [snapIndex, hfile])
    · exact .inr (hsnap x (by simp [hfile]))
  -- the log and file read back, with nothing after the end of the file
  have hloaded : ({ n.loaded recs with
      durableIndex := (n.loaded recs).lastLogIndex, sync := .idle } :
      NodeCore ι κ).logParts.Durable := by
    have hcontig : (n.loaded recs).Contiguous := hidx
    exact
      { contiguous := hidx
        durable_le := Nat.le_of_eq hcontig.lastLogIndex_eq
        synced_le := Nat.min_le_right _ _
        placed := hplaced
        logTerms := fun e he => (hrecs e (mem_replayRecords (hmem e he))).2
        recsPos := hrecs
        baseTerm := hbase
        genuine := trivial
        held := fun _ => hmem
        survives := fun k hk e he _ => by
          have hk' : min n.store.synced recs.length ≤ k := hk
          rw [Nat.min_eq_right hsynced] at hk'
          rw [show (NodeCore.logParts _).recs = recs from rfl, take_of_length_le hk']
          exact hmem e he }
  have hraised : m.snapFile = n.snapFile ∧ ({ m with
      durableIndex := m.lastLogIndex, sync := .idle } : NodeCore ι κ).logParts =
      ({ n.loaded recs with durableIndex := (n.loaded recs).lastLogIndex, sync := .idle } :
        NodeCore ι κ).logParts := by
    rw [hm, raiseTerm]
    split
    · obtain ⟨_, _, _, _, _, _, _, _, _, heq⟩ := VotingOnly.persistMeta ({ n.loaded recs with
        currentTerm := (n.loaded recs).lastLogTerm, votedFor := none } : NodeCore ι κ) o
      rw [heq]
      exact ⟨rfl, rfl⟩
    · exact ⟨rfl, rfl⟩
  obtain ⟨hfile, hparts⟩ := hraised
  rw [← hparts] at hloaded
  refine ⟨?_, fun x hx => ?_⟩
  · rw [startup, refreshConfigFromLog_eq]
    rcases hstore with rfl | rfl
    · exact hloaded
    · exact hloaded.rewritten false hloaded.durable_le
  · rw [headers_startup, show ({ m with store := store, durableIndex := m.lastLogIndex } :
      NodeCore ι κ).snapFile = n.snapFile from hfile] at hx
    exact hsnap x hx

theorem Durable.crashRestart (h : n.Durable) {f : LogStore.CrashedLog}
    {a : Option AppliedIndexState} {o : ReplaceOutcome} {w : LogStore.RewriteOutcome}
    (hcovered : ∀ kept, f = .tail kept → kept ≤ n.store.synced)
    (hrestart : n.crashRestart f a o w = some n') : n'.Durable := by
  have hplaced : n.store.renamed = [] := h.parts.placed
  obtain ⟨s, hs, hrestart⟩ := bind_eq_some_iff.1 hrestart
  cases f with
  | tail kept =>
    rw [LogStore.crashed] at hs
    split at hs
    · cases hs
      refine durable_restart (n := { n with
        store := { n.store with recs := n.store.recs.take kept } }) hplaced h.headers ?_
        (fun e he => h.parts.recsPos e (mem_of_mem_take he)) hrestart
      exact Nat.le_trans (length_take_le _ _) (hcovered kept rfl)
    · cases hs
  | renamed i =>
    rw [LogStore.crashed, hplaced] at hs
    cases hs

/-- Every covered event keeps log and file in agreement. -/
theorem Durable.onLogEvent (h : n.Durable) {ev : LogEvent ι κ} (hadmits : n.Admits ev)
    (hmark : Covered n ev) (hev : n.onLogEvent ev = some (n', replies)) : n'.Durable := by
  cases ev with
  | accept req o o' =>
    have hn' := (h.handleAppendEntries hadmits.1 hadmits.2 o o').1
    rw [some.inj hev] at hn'
    exact hn'
  | append =>
    obtain ⟨c, hc, heq⟩ := map_eq_some_iff.1 hev
    cases heq
    exact h.leaderAppend hadmits.1 hadmits.2 hc
  | capture =>
    simp only [NodeCore.onLogEvent] at hev
    split at hev
    · cases hev
      exact h.syncCapture
    · cases hev
  | write o =>
    simp only [NodeCore.onLogEvent] at hev
    split at hev
    next hsync =>
      cases hev
      exact h.syncWrite hsync o
    · cases hev
  | fsync ok =>
    simp only [NodeCore.onLogEvent] at hev
    split at hev
    next hsync =>
      cases hev
      exact h.syncFsync hsync ok
    · cases hev
  | finish =>
    simp only [NodeCore.onLogEvent] at hev
    split at hev
    next hsync =>
      have hn' := h.syncFinish hsync hmark
      rw [some.inj hev] at hn'
      exact hn'
    · cases hev
  | compact w =>
    cases hev
    exact h.captureCompact hmark
  | install w =>
    have hn' := h.installLog hmark
    rw [some.inj hev] at hn'
    exact hn'
  | restart =>
    obtain ⟨c, hc, heq⟩ := map_eq_some_iff.1 hev
    cases heq
    refine h.crashRestart (fun kept hf => ?_) hc
    subst hf
    exact hmark

/-- Success is never answered for more than what is durable or covered. -/
theorem Durable.answersDurable (h : n.Durable) {ev : LogEvent ι κ} (hadmits : n.Admits ev)
    (hev : n.onLogEvent ev = some (n', replies)) : ∀ r ∈ replies, n'.AnswersDurable r.2 := by
  have hnone : replies = [] → ∀ r ∈ replies, n'.AnswersDurable r.2 := by
    rintro rfl r hr
    cases hr
  cases ev with
  | accept req o o' =>
    have hn' := (h.handleAppendEntries hadmits.1 hadmits.2 o o').2
    rw [some.inj hev] at hn'
    exact hn'
  | append =>
    obtain ⟨c, hc, heq⟩ := map_eq_some_iff.1 hev
    exact hnone (congrArg Prod.snd heq).symm
  | capture | write | fsync =>
    simp only [NodeCore.onLogEvent] at hev
    split at hev
    · exact hnone (congrArg Prod.snd (some.inj hev)).symm
    · cases hev
  | finish =>
    simp only [NodeCore.onLogEvent] at hev
    split at hev
    · simp only [NodeCore.syncFinish] at hev
      cases hev
      exact answersDurable_takeDecidedWaiters _
    · cases hev
  | compact => exact hnone (congrArg Prod.snd (some.inj hev)).symm
  | install =>
    simp only [NodeCore.onLogEvent, NodeCore.installLog] at hev
    split at hev
    · cases hev
      exact answersDurable_takeDecidedWaiters _
    · exact hnone (congrArg Prod.snd (some.inj hev)).symm
  | restart =>
    obtain ⟨c, hc, heq⟩ := map_eq_some_iff.1 hev
    exact hnone (congrArg Prod.snd heq).symm

theorem LogRun.durable (h : LogRun Covered n) : n.Durable := by
  induction h with
  | fresh id boot batchSM appliedSM => exact durable_freshCore id boot batchSM appliedSM
  | event _ hadmits hP hev ih => exact ih.onLogEvent hadmits hP hev
  | elsewhere _ hparts hheaders ih => exact ⟨hparts ▸ ih.parts, hheaders⟩

/-! ## Crash images of the log file -/

def toDisk (enc : κ → List UInt8) (e : LogEntry κ) : DiskEntry where
  term := e.term
  index := e.index
  type := e.type
  command := enc e.command

def diskRecords (n : NodeCore ι κ) (enc : κ → List UInt8) : List DiskEntry :=
  n.store.recs.map (toDisk enc)

/-- What a crash can leave under the log's name: every fsynced byte and a prefix of what
was written or queued since, or a file that was renamed over it. -/
def CrashImage (n : NodeCore ι κ) (enc : κ → List UInt8) (file : List UInt8) : Prop :=
  (∃ k, recordEnd ((n.diskRecords enc).take n.store.synced) ≤ k ∧
    file = (encodeRecords raftLogHeader (n.diskRecords enc)).take k) ∨
  ∃ records ∈ n.store.renamed, file = encodeRecords raftLogHeader (records.map (toDisk enc))

omit [DecidableEq ι] [CommandCodec ι κ] in
/-- A crash image replays to what some prefix of the records, with all fsynced ones,
replays to. -/
theorem CrashImage.replay {enc : κ → List UInt8} {file : List UInt8} (h : n.CrashImage enc file)
    (hplaced : n.store.renamed = []) (hsynced : n.store.synced ≤ n.store.recs.length)
    (hrec : ∀ e ∈ n.diskRecords enc, e.Fits ∧ Readable e) :
    ∃ m r, n.store.synced ≤ m ∧ Consensus.replay (some file) = .ok r ∧
      r.entries = (replayRecords (n.store.recs.take m)).entries.map (toDisk enc) := by
  rcases h with ⟨k, hk, rfl⟩ | ⟨records, hrecords, -⟩
  swap
  · rw [hplaced] at hrecords
    cases hrecords
  rw [recordEnd_eq] at hk
  have hlen : (n.diskRecords enc).length = n.store.recs.length := length_map _
  have hprefix : (Framing.flatten encodeRecord ((n.diskRecords enc).take n.store.synced)).length ≤
      (Framing.flatten encodeRecord (n.diskRecords enc)).length := by
    conv => rhs; rw [← take_append_drop n.store.synced (n.diskRecords enc)]
    rw [Framing.flatten_append, length_append]
    exact Nat.le_add_right _ _
  -- the cut within the records, at most at their end
  obtain ⟨j, hj, hjle, hcut⟩ : ∃ j,
      (Framing.flatten encodeRecord ((n.diskRecords enc).take n.store.synced)).length ≤ j ∧
      j ≤ (Framing.flatten encodeRecord (n.diskRecords enc)).length ∧
      (encodeRecords raftLogHeader (n.diskRecords enc)).take k = raftLogHeader ++
        (Framing.flatten encodeRecord (n.diskRecords enc)).take j := by
    refine ⟨min (k - raftLogHdrLen) (Framing.flatten encodeRecord (n.diskRecords enc)).length,
      by omega, Nat.min_le_right _ _, ?_⟩
    rw [encodeRecords_eq, take_append, length_raftLogHeader,
      take_of_length_le (by rw [length_raftLogHeader]; omega), ← take_eq_take_min]
  rw [hcut, replay_take (n.diskRecords enc) hrec j hjle]
  refine ⟨Framing.framesWithin encodeRecord (n.diskRecords enc) j, _, ?_, rfl, ?_⟩
  · exact Framing.le_framesWithin _ _ _ (by omega) hj
  · rw [diskRecords, ← map_take, replayRecords_map (toDisk enc) (fun _ => rfl)]

omit [DecidableEq ι] [CommandCodec ι κ] in
/-- A crash may keep exactly what was fsynced. -/
theorem crashImage_synced (n : NodeCore ι κ) (enc : κ → List UInt8) :
    n.CrashImage enc
      (encodeRecords raftLogHeader ((n.diskRecords enc).take n.store.synced)) := by
  refine .inl ⟨_, Nat.le_refl _, ?_⟩
  have hsplit : encodeRecords raftLogHeader (n.diskRecords enc) =
      encodeRecords raftLogHeader ((n.diskRecords enc).take n.store.synced) ++
        Framing.flatten encodeRecord ((n.diskRecords enc).drop n.store.synced) := by
    rw [encodeRecords_eq, encodeRecords_eq, append_assoc, ← Framing.flatten_append,
      take_append_drop]
  rw [hsplit, recordEnd, take_left]

theorem replay_encodeRecords {records : List DiskEntry}
    (hrec : ∀ e ∈ records, e.Fits ∧ Readable e) :
    Consensus.replay (some (encodeRecords raftLogHeader records)) =
      .ok { entries := (replayRecords records).entries, good := recordEnd records
            gapFrom := (replayRecords records).gapFrom } := by
  have hreplay := replay_take records hrec _ (Nat.le_refl _)
  rw [take_length, Framing.framesWithin_of_le _ _ (Nat.le_refl _), take_length] at hreplay
  rw [encodeRecords_eq, hreplay, recordEnd_eq]

instance instDecidableCovered (n : NodeCore ι κ) (ev : LogEvent ι κ) :
    Decidable (Covered n ev) := by
  unfold Covered
  split
  · split <;> infer_instance
  all_goals infer_instance

/-- Execute events one after another, as long as each meets the condition. -/
def runEvents (P : NodeCore ι κ → LogEvent ι κ → Prop) [∀ n ev, Decidable (P n ev)]
    (n : NodeCore ι κ) : List (LogEvent ι κ) → Option (NodeCore ι κ)
  | [] => some n
  | ev :: evs =>
    if n.Admits ev ∧ P n ev then (n.onLogEvent ev).bind fun r => r.1.runEvents P evs else none

theorem LogRun.of_runEvents {P : NodeCore ι κ → LogEvent ι κ → Prop} [∀ n ev, Decidable (P n ev)]
    (h : LogRun P n) (evs : List (LogEvent ι κ)) (hrun : n.runEvents P evs = some n') :
    LogRun P n' := by
  induction evs generalizing n with
  | nil =>
    cases hrun
    exact h
  | cons ev evs ih =>
    rw [runEvents] at hrun
    split at hrun
    next hok =>
      obtain ⟨⟨c, replies⟩, hev, hrest⟩ := bind_eq_some_iff.1 hrun
      exact ih (h.event hok.1 hok.2 hev) hrest
    · cases hrun

def payloadBytes : Payload Unit → List UInt8
  | .bytes b => b
  | .configuration _ => []

def emptyEntry (term index : Nat) : LogEntry (Payload Unit) where
  term := term
  index := index
  type := entryNormal
  command := .bytes []

/-- AppendEntries of the leader of `term` that replaces the log from its start. -/
def acceptAll (term : Nat) (entries : List (LogEntry (Payload Unit))) :
    LogEvent Unit (Payload Unit) :=
  .accept
    { source := ()
      args := { term := term, leaderID := (), prevLogIndex := 0, prevLogTerm := 0
                entries := entries, leaderCommit := 0, wantMatch := false }
      tag := .readIndex 0 } .done .done

def emptyNode : NodeCore Unit (Payload Unit) :=
  RaftNode.freshCore () Configuration.empty false false

/-- The syncer runs once, and nothing fails. -/
def syncOnce : List (LogEvent Unit (Payload Unit)) :=
  [.capture, .write .done, .fsync true, .finish]

/-- A start counts what it reads as durable, and neither it nor the next sync fsyncs it:
an entry is written, the process is killed and started again, and a power failure loses
the entry. -/
theorem load_outruns_fsync :
    ∃ n : NodeCore Unit (Payload Unit), LogRun (fun _ _ => True) n ∧ n.durableIndex = 1 ∧
      n.log = [emptyEntry 1 1] ∧
      ∃ file, n.CrashImage payloadBytes file ∧ ∃ r, Consensus.replay (some file) = .ok r ∧
        r.entries = [] := by
  have hrun : ((emptyNode.runEvents (fun _ _ => True) [acceptAll 1 [emptyEntry 1 1],
      .restart (.tail 1) none .done .done, .capture, .write .done, .finish]).any fun n =>
        n.durableIndex = 1 ∧ n.log = [emptyEntry 1 1] ∧ n.store.synced = 0 ∧
        n.store.recs = [emptyEntry 1 1]) = true := by decide
  obtain ⟨n, hn, hfacts⟩ := (any_eq_true _ _).1 hrun
  obtain ⟨hdur, hlog, hsynced, hrecs⟩ := of_decide_eq_true hfacts
  refine ⟨n, .of_runEvents (.fresh _ _ _ _) _ hn, hdur, hlog,
    _, crashImage_synced n payloadBytes, ?_⟩
  rw [diskRecords, hrecs, hsynced, take_zero,
    replay_encodeRecords (fun e he => by cases he)]
  exact ⟨_, rfl, rfl⟩

def snapshotOne : SnapshotMeta Unit where
  index := 1
  term := 1
  config := Configuration.empty
  configIndex := 0
  snapshotID := 0

/-- A rewrite that fails after its rename leaves the store with a file that has no name:
a snapshot is captured and the log rewritten without its entry, and the next entry is
fsynced to the old file. -/
theorem rewrite_loses_name :
    ∃ n : NodeCore Unit (Payload Unit), LogRun (fun _ _ => True) n ∧ n.durableIndex = 2 ∧
      n.log = [emptyEntry 1 2] ∧
      ∃ file, n.CrashImage payloadBytes file ∧ ∃ r, Consensus.replay (some file) = .ok r ∧
        r.entries = [] := by
  have hrun : ((emptyNode.runEvents (fun _ _ => True)
      (acceptAll 1 [emptyEntry 1 1] :: syncOnce)).any fun n =>
        (({ n with capture := .installed snapshotOne } : NodeCore Unit (Payload Unit)).runEvents
          (fun _ _ => True) (.compact .failedRenamed ::
            acceptAll 1 [emptyEntry 1 1, emptyEntry 1 2] :: syncOnce)).any fun n' =>
              n.snapFile = none ∧ n.install = none ∧ n'.durableIndex = 2 ∧
              n'.log = [emptyEntry 1 2] ∧ n'.store.renamed = [[]]) = true := by decide
  obtain ⟨n, hn, hnext⟩ := (any_eq_true _ _).1 hrun
  obtain ⟨n', hn', hfacts⟩ := (any_eq_true _ _).1 hnext
  obtain ⟨hsnap, hinst, hdur, hlog, hrenamed⟩ := of_decide_eq_true hfacts
  have hcaptured : LogRun (fun _ _ => True)
      ({ n with capture := .installed snapshotOne } : NodeCore Unit (Payload Unit)) := by
    refine .elsewhere (.of_runEvents (.fresh _ _ _ _) _ hn) rfl fun m hm => ?_
    rw [headers, captureHeader] at hm
    simp only [hsnap, hinst, toList_none, toList_some, nil_append, map_none, append_nil,
      mem_singleton] at hm
    rw [hm]
    decide
  refine ⟨n', .of_runEvents hcaptured _ hn', hdur, hlog, _, .inr ⟨[], ?_, rfl⟩, ?_⟩
  · rw [hrenamed]
    exact mem_singleton_self _
  · rw [map_nil, replay_encodeRecords (fun e he => by cases he)]
    exact ⟨_, rfl, rfl⟩

end NodeCore

end VeltrixDB.Consensus
