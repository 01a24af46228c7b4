import VeltrixDB.Consensus.LogFile
import Mathlib.Data.List.Induction
import Mathlib.Data.List.TakeWhile

/-!
# The log store refines the in-memory log

`logStore` of `consensus/raft_storage.go` keeps the log on disk by
appending records: `enqueue` encodes new entries into a write queue,
`flush` writes the queue, and `rewrite` replaces the whole file.  The
abstract log is a function of the index: writing an entry drops everything
from its index on.

Main results:

- Theorem `foldl_overwrite_batch`: a batch of consecutive records that
  meets the replayed log truncates it at the batch's first index and extends it.
- Theorem `refinesLog_iff_readable`: after any sequence of updates the file
  replays to the in-memory log, and every cut of it to the log after a prefix
  of the records, exactly when every written record is within the length that
  replay accepts.
-/

namespace VeltrixDB.Consensus

open List

open Bytes

variable {κ : Type} {s : LogState} {log records entries batch : List (LogEntry κ)}
  {e : LogEntry κ}

/-! ## Records as updates of an index function -/

/-- The abstract effect of writing one entry: everything from its index on is
dropped, then the entry is appended. -/
def overwrite (log : List (LogEntry κ)) (e : LogEntry κ) : List (LogEntry κ) :=
  log.takeWhile (fun x => x.index < e.index) ++ [e]

/-- The abstract log after a sequence of writes. -/
def logAfter (records : List (LogEntry κ)) : List (LogEntry κ) :=
  records.foldl overwrite []

/-- In a consecutive log the entries below an index are a positional prefix. -/
theorem IndexedFrom.takeWhile_eq {s : Nat} (h : IndexedFrom s log) (i : Nat) :
    log.takeWhile (fun x => x.index < i) = log.take (i - s) := by
  induction log generalizing s with
  | nil => simp
  | cons e es ih =>
    obtain ⟨he, hes⟩ := h
    by_cases hi : e.index < i
    · have hsub : i - s = (i - (s + 1)) + 1 := by omega
      rw [takeWhile_cons_of_pos (by simpa using hi), ih hes, hsub, take_succ_cons]
    · have hsub : i - s = 0 := by omega
      rw [takeWhile_cons_of_neg (by simpa using hi), hsub, take_zero]

/-- The record continues or overwrites the log: it leaves no index gap. -/
def Meets (log : List (LogEntry κ)) (e : LogEntry κ) : Prop :=
  ∀ last ∈ log.getLast?, e.index ≤ last.index + 1

/-- Each record of the sequence meets the log that the records before it
leave. -/
def NoGap : List (LogEntry κ) → List (LogEntry κ) → Prop
  | _, [] => True
  | log, e :: es => Meets log e ∧ NoGap (overwrite log e) es

theorem IndexedFrom.meets_iff {s : Nat} (h : IndexedFrom s log) (e : LogEntry κ) :
    Meets log e ↔ log = [] ∨ e.index ≤ s + log.length := by
  by_cases hne : log = []
  · simp [Meets, hne]
  · have hlast := h.getLast_index hne
    simp [Meets, List.getLast?_eq_some_getLast hne, hne, hlast]

/-- Overwriting at a record that leaves no gap keeps the log consecutive. -/
theorem IndexedFrom.overwrite {s : Nat} (h : IndexedFrom s log) (hmeets : Meets log e) :
    ∃ s', IndexedFrom s' (overwrite log e) := by
  rw [Consensus.overwrite, h.takeWhile_eq]
  rcases (h.meets_iff e).1 hmeets with rfl | hle
  · exact ⟨e.index, by simp⟩
  · by_cases hs : e.index ≤ s
    · exact ⟨e.index, by simp [Nat.sub_eq_zero_of_le hs]⟩
    · refine ⟨s, (indexedFrom_append _ _ _).2 ⟨h.take _, ?_⟩⟩
      simp
      omega

theorem replayRecord_eq_overwrite {s : Nat} (h : IndexedFrom s log) (hmeets : Meets log e)
    (gap : Nat) :
    replayRecord { entries := log, gapFrom := gap } e =
      { entries := overwrite log e, gapFrom := gap } := by
  rw [Consensus.overwrite, h.takeWhile_eq]
  by_cases hne : log = []
  · simp [hne, replayRecord]
  · have hhead := h.head_index hne
    have hlast := h.getLast_index hne
    have hle : e.index ≤ s + log.length := ((h.meets_iff e).1 hmeets).resolve_left hne
    simp only [replayRecord, List.head?_eq_some_head hne, List.getLast?_eq_some_getLast hne, hhead]
    split
    next hfirst => rw [Nat.sub_eq_zero_of_le hfirst, take_zero, nil_append]
    next hfirst =>
      split
      · rfl
      next hlast' => rw [if_neg (by omega), take_of_length_le (by omega)]

theorem replayRecord_of_gap {s : Nat} (h : IndexedFrom s log) (hgap : ¬Meets log e) (gap : Nat) :
    (replayRecord { entries := log, gapFrom := gap } e).entries = [e] := by
  rw [h.meets_iff, not_or] at hgap
  obtain ⟨hne, hlt⟩ := hgap
  have hhead := h.head_index hne
  have hlast := h.getLast_index hne
  simp only [replayRecord, List.head?_eq_some_head hne, List.getLast?_eq_some_getLast hne]
  rw [if_neg (by omega), if_neg (by omega), if_pos (by omega)]

theorem indexedFrom_replayRecords (records : List (LogEntry κ)) :
    ∃ s, IndexedFrom s (replayRecords records).entries := by
  have hfold : ∀ (records : List (LogEntry κ)) (acc : ReplayLog κ),
      (∃ s, IndexedFrom s acc.entries) →
        ∃ s, IndexedFrom s (records.foldl replayRecord acc).entries := by
    intro records
    induction records with
    | nil => exact fun acc h => h
    | cons e es ih =>
      rintro acc ⟨s, h⟩
      refine ih _ ?_
      by_cases hmeets : Meets acc.entries e
      · rw [replayRecord_eq_overwrite h hmeets]
        exact h.overwrite hmeets
      · rw [replayRecord_of_gap h hmeets]
        exact ⟨e.index, rfl, trivial⟩
  exact hfold records _ ⟨0, trivial⟩

theorem foldl_replayRecord_eq {s : Nat} (h : IndexedFrom s log) (hgap : NoGap log records)
    (gap : Nat) :
    records.foldl replayRecord { entries := log, gapFrom := gap } =
      { entries := records.foldl overwrite log, gapFrom := gap } := by
  induction records generalizing s log with
  | nil => rfl
  | cons e es ih =>
    obtain ⟨s', hs'⟩ := h.overwrite hgap.1
    rw [foldl_cons, foldl_cons, replayRecord_eq_overwrite h hgap.1, ih hs' hgap.2]

theorem noGap_append (log xs ys : List (LogEntry κ)) :
    NoGap log (xs ++ ys) ↔ NoGap log xs ∧ NoGap (xs.foldl overwrite log) ys := by
  induction xs generalizing log with
  | nil => simp [NoGap]
  | cons e es ih => simp [NoGap, ih, and_assoc]

/-- A batch of consecutive records that meets the log truncates it at the
batch's first index and extends it. -/
theorem foldl_overwrite_batch {s i : Nat} (hlog : IndexedFrom s log)
    (hbatch : IndexedFrom i batch) (hne : batch ≠ []) (hmeets : log = [] ∨ i ≤ s + log.length) :
    NoGap log batch ∧ batch.foldl overwrite log = log.take (i - s) ++ batch := by
  induction batch using List.reverseRecOn with
  | nil => exact absurd rfl hne
  | append_singleton es e ih =>
    rw [indexedFrom_append] at hbatch
    obtain ⟨hes, he⟩ := hbatch
    have hindex : e.index = i + es.length := by simpa using he
    rw [noGap_append, foldl_append]
    by_cases hnil : es = []
    · subst hnil
      have hm : Meets log e := (hlog.meets_iff e).2 (hmeets.imp_right (by simp [hindex]))
      simp [NoGap, hm, overwrite, hlog.takeWhile_eq, hindex]
    · obtain ⟨hgap, hfold⟩ := ih hes hnil
      have hlast := hes.getLast_index hnil
      rw [hfold]
      refine ⟨⟨hgap, ?_, trivial⟩, ?_⟩
      · intro last hlast'
        rw [List.getLast?_append, List.getLast?_eq_some_getLast hnil] at hlast'
        cases hlast'
        omega
      · have hbelow : ∀ x ∈ log.take (i - s) ++ es, decide (x.index < e.index) = true := by
          intro x hx
          rw [decide_eq_true_eq, hindex]
          rcases mem_append.1 hx with hx | hx
          · rw [← hlog.takeWhile_eq i] at hx
            have hlt := mem_takeWhile_imp hx
            rw [decide_eq_true_eq] at hlt
            omega
          · exact (hes.mem_bounds hx).2
        rw [foldl_cons, foldl_nil, overwrite, takeWhile_eq_self_iff.2 hbelow, append_assoc]

/-! ## The store -/

/-- The log store: the bytes of `raft_log.dat` and the encoded records not
yet written. -/
structure ByteStore where
  /-- Contents of `raft_log.dat`. -/
  file : List UInt8
  pend : List UInt8
deriving DecidableEq, Repr

namespace ByteStore

/-- The file that `rewriteFile` puts in place. -/
def rewriteFile (entries : List DiskEntry) : List UInt8 :=
  encodeRecords raftLogHeader entries

def fresh : ByteStore where
  file := rewriteFile []
  pend := []

/-- Append the records of `entries` to the write queue. -/
def enqueue (s : ByteStore) (entries : List DiskEntry) : ByteStore :=
  if entries.isEmpty then s else { s with pend := encodeRecords s.pend entries }

def flush (s : ByteStore) : ByteStore where
  file := s.file ++ s.pend
  pend := []

/-- Replace the file by exactly `entries`; the queue is part of it. -/
def rewrite (_ : ByteStore) (entries : List DiskEntry) : ByteStore where
  file := rewriteFile entries
  pend := []

end ByteStore

/-- The in-memory log together with its store, and the records the file and
the queue hold since the file was last rewritten. -/
structure LogState where
  log : List DiskEntry
  store : ByteStore
  written : List DiskEntry
  queued : List DiskEntry

namespace LogState

def init : LogState where
  log := []
  store := ByteStore.fresh
  written := []
  queued := []

def append (s : LogState) (entries : List DiskEntry) : LogState :=
  { s with
    log := s.log ++ entries
    store := s.store.enqueue entries
    queued := s.queued ++ entries }

/-- Truncate the log at index `i`, then append entries starting there. -/
def truncateAppend (s : LogState) (i : Nat) (entries : List DiskEntry) : LogState :=
  { s with
    log := s.log.take (i - (s.log.head?.map LogEntry.index).getD 0) ++ entries
    store := s.store.enqueue entries
    queued := s.queued ++ entries }

/-- Replace the log by its suffix after the first `k` entries. -/
def compact (s : LogState) (k : Nat) : LogState where
  log := s.log.drop k
  store := s.store.rewrite (s.log.drop k)
  written := s.log.drop k
  queued := []

def flush (s : LogState) : LogState :=
  { s with
    store := s.store.flush
    written := s.written ++ s.queued
    queued := [] }

end LogState

/-- The states that sequences of log updates reach, with flushes anywhere in
between.  Terms and indices are 64-bit words in the source. -/
inductive Issued : LogState → Prop where
  | init : Issued LogState.init
  | append {s : LogState} (h : Issued s) (entries : List DiskEntry) (first : Nat)
      (hlog : IndexedFrom first (s.log ++ entries)) (hfits : ∀ e ∈ entries, e.Fits) :
      Issued (s.append entries)
  | truncateAppend {s : LogState} (h : Issued s) (i first : Nat) (entries : List DiskEntry)
      (hlog : IndexedFrom first s.log) (hne : s.log ≠ [])
      (hi : first ≤ i) (hi' : i ≤ first + s.log.length)
      (hentries : IndexedFrom i entries) (hnil : entries ≠ [])
      (hfits : ∀ e ∈ entries, e.Fits) : Issued (s.truncateAppend i entries)
  | compact {s : LogState} (h : Issued s) (k : Nat) : Issued (s.compact k)
  | flush {s : LogState} (h : Issued s) : Issued s.flush

/-- The offset at which a sequence of records ends. -/
def recordEnd (records : List DiskEntry) : Nat :=
  (encodeRecords raftLogHeader records).length

/-- The file refines the in-memory log: once the queue is drained replay
returns exactly the log, and replay of the file cut at any byte after the
header returns the log after the records that are complete before the cut and
reports the end of the last of them.  No index gap is reported. -/
def RefinesLog (s : LogState) : Prop :=
  (s.store.pend = [] → replay (some s.store.file) =
    .ok { entries := s.log, good := s.store.file.length, gapFrom := 0 }) ∧
  ∀ k, raftLogHdrLen ≤ k → k ≤ s.store.file.length → ∃ j ≤ s.written.length,
    recordEnd (s.written.take j) ≤ k ∧
    (∀ j' ≤ s.written.length, recordEnd (s.written.take j') ≤ k → j' ≤ j) ∧
    replay (some (s.store.file.take k)) =
      .ok { entries := logAfter (s.written.take j), good := recordEnd (s.written.take j)
            gapFrom := 0 }

/-! ## The invariant of the store -/

theorem mem_of_mem_logAfter {x : LogEntry κ} (hx : x ∈ logAfter records) : x ∈ records := by
  induction records using List.reverseRecOn with
  | nil => exact hx
  | append_singleton es e ih =>
    rw [logAfter, foldl_append, foldl_cons] at hx
    rcases mem_append.1 hx with hx | hx
    · exact mem_append_left _ (ih ((takeWhile_sublist _).subset hx))
    · exact mem_append_right _ hx

/-- Consecutive entries rebuild themselves. -/
theorem noGap_nil_of_indexedFrom {s : Nat} (h : IndexedFrom s entries) :
    NoGap [] entries ∧ logAfter entries = entries := by
  by_cases hne : entries = []
  · subst hne
    exact ⟨trivial, rfl⟩
  · have hbatch := foldl_overwrite_batch (indexedFrom_nil 0) h hne (Or.inl rfl)
    simpa [logAfter] using hbatch

/-- Consecutive records after others are replayed last, and keep what lies before
them unless they leave a gap. -/
theorem replayRecords_append {i : Nat} (hbatch : IndexedFrom i batch) :
    ∃ rest, (replayRecords (records ++ batch)).entries = rest ++ batch ∧
      ∀ e ∈ (replayRecords records).entries, e.index < i →
        (∃ d ∈ (replayRecords records).entries, i ≤ d.index + 1) → e ∈ rest := by
  obtain ⟨s, hs⟩ := indexedFrom_replayRecords records
  have hfold : replayRecords (records ++ batch) =
      batch.foldl replayRecord (replayRecords records) := by
    rw [replayRecords, foldl_append]
    rfl
  rw [hfold]
  generalize replayRecords records = acc at hs ⊢
  rcases hne : batch with _ | ⟨x, xs⟩
  · exact ⟨acc.entries, (append_nil _).symm, fun e he _ _ => he⟩
  rw [← hne]
  by_cases hmeets : acc.entries = [] ∨ i ≤ s + acc.entries.length
  · obtain ⟨hgap, hlog⟩ := foldl_overwrite_batch hs hbatch (by simp [hne]) hmeets
    refine ⟨acc.entries.take (i - s), ?_, fun e he hlt _ => ?_⟩
    · rw [foldl_replayRecord_eq hs hgap acc.gapFrom, hlog]
    · obtain ⟨j, hj, rfl⟩ := mem_iff_getElem.1 he
      rw [hs.getElem_index] at hlt
      exact mem_take_iff_getElem.2 ⟨j, by omega, rfl⟩
  · have hgap : ¬Meets acc.entries x := by
      rw [hne] at hbatch
      rw [hs.meets_iff, hbatch.1]
      exact hmeets
    refine ⟨[], ?_, fun e he hlt ⟨d, hd, hle⟩ => ?_⟩
    · rw [hne] at hbatch ⊢
      obtain ⟨hnil, hself⟩ := noGap_nil_of_indexedFrom hbatch
      have hfirst := replayRecord_of_gap hs hgap acc.gapFrom
      rw [foldl_cons]
      generalize replayRecord acc x = acc' at hfirst
      have hacc : acc' = { entries := overwrite [] x, gapFrom := acc'.gapFrom } := by
        rw [show overwrite [] x = [x] from rfl, ← hfirst]
      have hx : IndexedFrom x.index (overwrite [] x) := ⟨rfl, trivial⟩
      rw [hacc, foldl_replayRecord_eq hx hnil.2]
      exact hself
    · have := (hs.mem_bounds hd).2
      omega

theorem replayRecords_of_indexedFrom {s : Nat} (h : IndexedFrom s entries) :
    replayRecords entries = { entries := entries, gapFrom := 0 } := by
  obtain ⟨hgap, hlog⟩ := noGap_nil_of_indexedFrom h
  rw [replayRecords, foldl_replayRecord_eq (indexedFrom_nil 0) hgap]
  congr 1

/-- What holds of the store after any sequence of updates. -/
structure LogState.Inv (s : LogState) : Prop where
  file_eq : s.store.file = encodeRecords raftLogHeader s.written
  pend_eq : s.store.pend = encodeRecords [] s.queued
  noGap : NoGap [] (s.written ++ s.queued)
  log_eq : logAfter (s.written ++ s.queued) = s.log
  consecutive : ∃ first, IndexedFrom first s.log
  fits : ∀ e ∈ s.written ++ s.queued, e.Fits

open LogState

namespace LogState

/-- Queueing a batch that meets the log keeps the invariant. -/
theorem Inv.enqueue (h : s.Inv) {first i : Nat} {batch log' : List DiskEntry}
    (hlog : IndexedFrom first s.log) (hbatch : IndexedFrom i batch) (hne : batch ≠ [])
    (hmeets : s.log = [] ∨ i ≤ first + s.log.length) (hfits : ∀ e ∈ batch, e.Fits)
    (hlog' : log' = s.log.take (i - first) ++ batch) (hcons : ∃ first', IndexedFrom first' log') :
    Inv { s with log := log', store := s.store.enqueue batch, queued := s.queued ++ batch } := by
  obtain ⟨hgap, hfold⟩ := foldl_overwrite_batch hlog hbatch hne hmeets
  have hrecords : (s.written ++ s.queued).foldl overwrite [] = s.log := h.log_eq
  have hempty : batch.isEmpty = false := by simpa using hne
  refine ⟨?_, ?_, ?_, ?_, hcons, ?_⟩
  · simpa [ByteStore.enqueue, hempty] using h.file_eq
  · simp [ByteStore.enqueue, hempty, h.pend_eq, encodeRecords_eq]
  · rw [← append_assoc, noGap_append]
    exact ⟨h.noGap, hrecords.symm ▸ hgap⟩
  · rw [logAfter, ← append_assoc, foldl_append, hrecords, hfold, hlog']
  · intro e he
    rw [← append_assoc] at he
    rcases mem_append.1 he with he | he
    · exact h.fits e he
    · exact hfits e he

theorem Inv.append (h : s.Inv) (entries : List DiskEntry) (first : Nat)
    (hlog : IndexedFrom first (s.log ++ entries)) (hfits : ∀ e ∈ entries, e.Fits) :
    (s.append entries).Inv := by
  by_cases hne : entries = []
  · subst hne
    simpa [LogState.append, ByteStore.enqueue] using h
  · obtain ⟨hs, hentries⟩ := (indexedFrom_append _ _ _).1 hlog
    refine h.enqueue hs hentries hne (Or.inr (Nat.le_refl _)) hfits ?_ ⟨first, hlog⟩
    rw [Nat.add_sub_cancel_left, take_length]

theorem Inv.truncateAppend (h : s.Inv) (i first : Nat) (entries : List DiskEntry)
    (hlog : IndexedFrom first s.log) (hne : s.log ≠ []) (hi : first ≤ i)
    (hi' : i ≤ first + s.log.length) (hentries : IndexedFrom i entries) (hnil : entries ≠ [])
    (hfits : ∀ e ∈ entries, e.Fits) : (s.truncateAppend i entries).Inv := by
  have hhead : (s.log.head?.map LogEntry.index).getD 0 = first := by
    simp [List.head?_eq_some_head hne, hlog.head_index hne]
  refine h.enqueue hlog hentries hnil (Or.inr hi') hfits (by rw [hhead]) ⟨first, ?_⟩
  rw [hhead, indexedFrom_append, length_take_of_le (by omega), Nat.add_sub_cancel' hi]
  exact ⟨hlog.take _, hentries⟩

theorem Inv.compact (h : s.Inv) (k : Nat) : (s.compact k).Inv := by
  obtain ⟨first, hlog⟩ := h.consecutive
  have hdrop : ∃ first', IndexedFrom first' (s.log.drop k) := by
    rcases Nat.le_total k s.log.length with hk | hk
    · exact ⟨first + k, hlog.drop k hk⟩
    · exact ⟨0, by simp [drop_eq_nil_of_le hk]⟩
  obtain ⟨first', hfirst'⟩ := hdrop
  obtain ⟨hgap, hself⟩ := noGap_nil_of_indexedFrom hfirst'
  refine ⟨rfl, rfl, ?_, ?_, ⟨first', hfirst'⟩, ?_⟩
  · simpa [LogState.compact] using hgap
  · simpa [LogState.compact] using hself
  · intro e he
    rw [LogState.compact, append_nil] at he
    exact h.fits e (mem_of_mem_logAfter (h.log_eq ▸ mem_of_mem_drop he))

theorem Inv.flush (h : s.Inv) : s.flush.Inv := by
  refine ⟨?_, rfl, ?_, ?_, h.consecutive, ?_⟩
  · simp [LogState.flush, ByteStore.flush, h.file_eq, h.pend_eq, encodeRecords_eq]
  · simpa [LogState.flush] using h.noGap
  · simpa [LogState.flush] using h.log_eq
  · simpa [LogState.flush] using h.fits

end LogState

theorem Issued.inv (h : Issued s) : s.Inv := by
  induction h with
  | init => exact ⟨rfl, rfl, trivial, rfl, ⟨0, trivial⟩, by simp [LogState.init]⟩
  | append _ entries first hlog hfits ih => exact ih.append entries first hlog hfits
  | truncateAppend _ i first entries hlog hne hi hi' hentries hnil hfits ih =>
    exact ih.truncateAppend i first entries hlog hne hi hi' hentries hnil hfits
  | compact _ k ih => exact ih.compact k
  | flush _ ih => exact ih.flush

/-! ## The refinement -/

theorem recordEnd_eq (records : List DiskEntry) :
    recordEnd records = raftLogHdrLen + (Framing.flatten encodeRecord records).length := by
  rw [recordEnd, encodeRecords_eq, length_append, length_raftLogHeader]

theorem recordEnd_take_lt (records : List DiskEntry) {i j : Nat} (hij : i < j)
    (hi : i < records.length) : recordEnd (records.take i) < recordEnd (records.take j) := by
  have hsplit : records.take j = records.take i ++ (records.drop i).take (j - i) := by
    have h := (take_append_drop i (records.take j)).symm
    rwa [take_take, Nat.min_eq_left (by omega), drop_take] at h
  have hcons : (records.drop i).take (j - i) =
      records[i] :: (records.drop (i + 1)).take (j - i - 1) := by
    rw [drop_eq_getElem_cons hi, ← take_succ_cons, Nat.sub_add_cancel (by omega)]
  rw [hsplit, hcons, recordEnd_eq, recordEnd_eq, Framing.flatten_append, Framing.flatten_cons,
    length_append, length_append, length_encodeRecord]
  simp only [recHdrLen]
  omega

theorem LogState.Inv.replayRecords_take (h : s.Inv) (j : Nat) :
    replayRecords (s.written.take j) = { entries := logAfter (s.written.take j), gapFrom := 0 } := by
  have hgap : NoGap [] (s.written.take j ++ (s.written.drop j ++ s.queued)) := by
    rw [← append_assoc, take_append_drop]
    exact h.noGap
  exact foldl_replayRecord_eq (indexedFrom_nil 0) ((noGap_append _ _ _).1 hgap).1 0

theorem LogState.Inv.file_take (h : s.Inv) (k : Nat) (hk : raftLogHdrLen ≤ k) :
    s.store.file.take k = raftLogHeader ++
      (Framing.flatten encodeRecord s.written).take (k - raftLogHdrLen) := by
  rw [h.file_eq, encodeRecords_eq, take_append, length_raftLogHeader,
    take_of_length_le (by rwa [length_raftLogHeader])]

theorem LogState.Inv.replay_take (h : s.Inv) (hread : ∀ e ∈ s.written, Readable e) (k : Nat)
    (hk : raftLogHdrLen ≤ k) (hk' : k ≤ s.store.file.length) :
    let j := Framing.framesWithin encodeRecord s.written (k - raftLogHdrLen)
    replay (some (s.store.file.take k)) =
      .ok { entries := logAfter (s.written.take j), good := recordEnd (s.written.take j)
            gapFrom := 0 } := by
  have hlen : k - raftLogHdrLen ≤ (Framing.flatten encodeRecord s.written).length := by
    rw [h.file_eq, encodeRecords_eq, length_append, length_raftLogHeader] at hk'
    omega
  have hrec : ∀ e ∈ s.written, e.Fits ∧ Readable e :=
    fun e he => ⟨h.fits e (mem_append_left _ he), hread e he⟩
  rw [h.file_take k hk, Consensus.replay_take s.written hrec _ hlen]
  simp only [h.replayRecords_take, recordEnd_eq]

/-- A written record that is too long is lost when the file is cut just
after it. -/
theorem RefinesLog.readable (h : RefinesLog s) (hinv : s.Inv) : ∀ e ∈ s.written, Readable e := by
  intro e he
  have hend : s.store.file.length = recordEnd s.written := by rw [hinv.file_eq, recordEnd]
  obtain ⟨pre, post, hwritten⟩ := append_of_mem he
  have htake : s.written.take (pre.length + 1) = pre ++ [e] := by
    rw [hwritten, take_append, take_of_length_le (by omega)]
    simp
  have hle : recordEnd (pre ++ [e]) ≤ s.store.file.length := by
    rw [hend, hwritten, recordEnd_eq, recordEnd_eq]
    simp only [Framing.flatten_append, Framing.flatten_cons, Framing.flatten_nil,
      length_append, length_nil]
    omega
  obtain ⟨j, hj, hjend, hjmax, hreplay⟩ :=
    h.2 (recordEnd (pre ++ [e])) (by rw [recordEnd_eq]; omega) hle
  have hj' : pre.length + 1 ≤ j :=
    hjmax _ (by rw [hwritten]; simp) (by rw [htake])
  have hj'' : j ≤ pre.length + 1 := by
    by_contra hlt
    have hmono := recordEnd_take_lt s.written (i := pre.length + 1) (j := j) (by omega) (by omega)
    rw [htake] at hmono
    omega
  rw [Nat.le_antisymm hj'' hj', htake] at hreplay
  rw [hinv.file_take _ (by rw [recordEnd_eq]; omega)] at hreplay
  refine readable_of_mem_replay hreplay e ?_
  simp [logAfter, overwrite]
theorem LogState.Inv.refinesLog (hinv : s.Inv) (hread : ∀ e ∈ s.written, Readable e) :
    RefinesLog s := by
  have hend : s.store.file.length = recordEnd s.written := by rw [hinv.file_eq, recordEnd]
  refine ⟨fun hpend => ?_, fun k hk hk' => ?_⟩
  · have hqueued : s.queued = [] := by
      have hpend' := hinv.pend_eq.symm.trans hpend
      rw [encodeRecords_eq, nil_append] at hpend'
      cases hq : s.queued with
      | nil => rfl
      | cons =>
        have hlen := congrArg List.length hpend'
        rw [hq, Framing.flatten_cons, length_append] at hlen
        simp [recHdrLen] at hlen
    have hlog := hinv.log_eq
    rw [hqueued, append_nil] at hlog
    have hcut := hinv.replay_take hread s.store.file.length
      (by rw [hend, recordEnd_eq]; omega) (Nat.le_refl _)
    have hall : Framing.framesWithin encodeRecord s.written
        (s.store.file.length - raftLogHdrLen) = s.written.length := by
      refine Framing.framesWithin_of_le _ _ ?_
      rw [hend, recordEnd_eq]
      omega
    simp only [hall, take_length, hlog] at hcut
    rw [hcut, hend]
  · refine ⟨_, Framing.framesWithin_le _ _, ?_, ?_, hinv.replay_take hread k hk hk'⟩
    · have hframes := @Framing.length_flatten_framesWithin_le _ _ encodeRecord s.written
        (k - raftLogHdrLen)
      rw [recordEnd_eq]
      omega
    · intro j' hj' hend'
      rw [recordEnd_eq] at hend'
      exact Framing.le_framesWithin _ _ _ hj' (by omega)

/-- After any sequence of updates the file refines the in-memory log exactly
when every written record is within the length that replay accepts. -/
theorem refinesLog_iff_readable {s : LogState} (h : Issued s) :
    RefinesLog s ↔ ∀ e ∈ s.written, Readable e :=
  ⟨fun href => href.readable h.inv, h.inv.refinesLog⟩

def smallEntry (term index : Nat) : DiskEntry := ⟨term, index, entryNormal, [7]⟩

/-- The log is rewritten without its first command, a later leader replaces the last
one, and the queue is flushed. -/
theorem refinesLog_replaced :
    RefinesLog ((((init.append [smallEntry 1 1, smallEntry 1 2]).compact 1).append
      [smallEntry 1 3]).truncateAppend 3 [smallEntry 2 3, smallEntry 2 4]).flush := by
  have h := Issued.append .init [smallEntry 1 1, smallEntry 1 2] 1 (by decide)
    (by simp [smallEntry, LogEntry.Fits])
  have h := (h.compact 1).append [smallEntry 1 3] 2 (by decide)
    (by simp [smallEntry, LogEntry.Fits])
  have h := h.truncateAppend 3 2 [smallEntry 2 3, smallEntry 2 4] (by decide) (by decide)
    (by decide) (by decide) (by decide) (by decide) (by simp [smallEntry, LogEntry.Fits])
  exact (refinesLog_iff_readable h.flush).2 (by
    simp [flush, truncateAppend, append, compact, init, smallEntry, Readable, recFixedLen,
      maxRecPayload])

/-- An entry with a command of `n` zero bytes. -/
def zerosEntry (n : Nat) : DiskEntry :=
  ⟨1, 1, entryNormal, List.replicate n 0⟩

theorem length_zerosEntry (n : Nat) : (zerosEntry n).command.length = n := length_replicate

/-- A node that appended and flushed a command of `n` bytes. -/
def flushedZeros (n : Nat) : LogState :=
  (LogState.init.append [zerosEntry n]).flush

theorem issued_flushedZeros (n : Nat) : Issued (flushedZeros n) :=
  .flush (.append .init _ 1 ⟨rfl, trivial⟩ (forall_mem_singleton.2
    ⟨(by decide : 1 < 2 ^ 64), (by decide : 1 < 2 ^ 64)⟩))

/-- A command beyond the bound is flushed and then lost with its record. -/
theorem replay_flushedZeros {n : Nat} (hn : maxRecPayload < recFixedLen + n)
    (hword : recFixedLen + n < 2 ^ 32) :
    replay (some (flushedZeros n).store.file) =
        .ok { entries := [], good := raftLogHdrLen, gapFrom := 0 } ∧
      ¬ RefinesLog (flushedZeros n) := by
  have hread : ¬ Readable (zerosEntry n) := by
    rw [Readable, length_zerosEntry]
    omega
  have hfile : (flushedZeros n).store.file =
      raftLogHeader ++ (encodeRecord (zerosEntry n) ++ []) := by
    simp [flushedZeros, flush, append, init, ByteStore.flush,
      ByteStore.enqueue, ByteStore.fresh, ByteStore.rewriteFile, encodeRecords_eq]
  refine ⟨?_, fun href => hread (href.readable (issued_flushedZeros n).inv _ ?_)⟩
  · rw [hfile, replay_header]
    simp only [Framing.scan, decodeRecord_of_not_readable (zerosEntry n) hread
      (by rwa [length_zerosEntry])]
    rfl
  · exact mem_append_right _ (mem_singleton.2 rfl)

/-- A command one byte longer than replay's bound: it is in the log and in the
file, the queue is drained, and replay returns the empty log. -/
theorem replay_oversized_command :
    Issued (flushedZeros 1073741808) ∧ (flushedZeros 1073741808).store.pend = [] ∧
      (flushedZeros 1073741808).log = [zerosEntry 1073741808] ∧
      replay (some (flushedZeros 1073741808).store.file) =
        .ok { entries := [], good := raftLogHdrLen, gapFrom := 0 } ∧
      ¬ RefinesLog (flushedZeros 1073741808) :=
  have hlost := replay_flushedZeros (n := 1073741808) (by decide) (by decide)
  ⟨issued_flushedZeros _, rfl, rfl, hlost.1, hlost.2⟩

end VeltrixDB.Consensus
