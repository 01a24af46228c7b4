import VeltrixDB.Consensus.Configuration
import VeltrixDB.Consensus.LogFile

/-!
# The persistent store of a node

The log store of `consensus/raft_storage.go` at the level of records: the
records of the log file followed by the queued ones, how many of them an fsync
has covered, and the term and vote of the meta file.  The byte level below it
is `ByteStore`.

Main definitions:

- `LogStore` with `enqueue`, `rewrite`, `saveMeta` and `crashed`.
- `ReplaceOutcome` and `RewriteOutcome`: how file operations end.
- `CrashedLog`: which log file a start finds, and how much of it.
-/

namespace VeltrixDB.Consensus

/-- How an atomic file replacement (temporary file, fsync, rename, directory
fsync) ends. -/
inductive ReplaceOutcome where
  | done
  | failed
  /-- The rename happened and the directory fsync failed: an error is reported
  although the new file is in place. -/
  | failedRenamed
deriving DecidableEq, Repr

structure RaftMeta (ι : Type) where
  currentTerm : Nat
  votedFor : Option ι
deriving DecidableEq, Repr

structure LogStore (ι κ : Type) where
  recs : List (LogEntry κ)
  synced : Nat
  /-- How many records the file had when the store was opened. -/
  found : Nat
  /-- Complete files that a rewrite renamed over the open one before its directory
  fsync failed.  The store goes on with the file it has open, while a start may find
  any of these under the log's name. -/
  renamed : List (List (LogEntry κ))
  failed : Bool
  closed : Bool
  gen : Nat
  savedMeta : RaftMeta ι
  metaFile : RaftMeta ι
deriving DecidableEq, Repr

namespace LogStore

variable {ι κ : Type} [DecidableEq ι] (s : LogStore ι κ)

/-- Append the records of `entries` to the write queue; refused once the
store has failed or is closed. -/
def enqueue (entries : List (LogEntry κ)) : Option (LogStore ι κ) :=
  if entries.isEmpty then some s
  else if s.closed || s.failed then none
  else some { s with recs := s.recs ++ entries }

/-- Records were queued or written since the last fsync.  What the store found when
it was opened does not count, fsynced or not. -/
def dirty : Bool :=
  max s.synced s.found < s.recs.length

inductive RewriteOutcome where
  | done
  | failed
  /-- The rename happened and the directory fsync failed. -/
  | failedRenamed
  | reopenFailed
deriving DecidableEq, Repr

/-- The log file with exactly `entries`, all of them fsynced. -/
def replaced (entries : List (LogEntry κ)) : LogStore ι κ :=
  { s with recs := entries, synced := entries.length, found := 0, renamed := [] }

/-- Replace the log file by exactly `entries`.  The new file is complete
and fsynced, so a sticky failure is forgotten. -/
def rewrite (entries : List (LogEntry κ)) (o : RewriteOutcome) : LogStore ι κ × Bool :=
  if s.closed then (s, false)
  else
    match o with
    | .done => ({ s.replaced entries with failed := false, gen := s.gen + 1 }, true)
    | .failed => (s, false)
    | .failedRenamed => ({ s with renamed := entries :: s.renamed }, false)
    | .reopenFailed => ({ s.replaced entries with failed := true }, false)

/-- Persist term and vote unless they are what was last written. -/
def saveMeta (m : RaftMeta ι) (o : ReplaceOutcome) : LogStore ι κ × Bool :=
  if s.closed then (s, false)
  else if s.savedMeta = m then (s, true)
  else
    match o with
    | .done => ({ s with savedMeta := m, metaFile := m }, true)
    | .failed => (s, false)
    | .failedRenamed => ({ s with metaFile := m }, false)

/-- Which log file a start finds after a crash. -/
inductive CrashedLog where
  /-- The file that was open, with its first `kept` records. -/
  | tail (kept : Nat)
  /-- A file that was renamed over it. -/
  | renamed (i : Nat)
deriving DecidableEq, Repr

/-- What a crash leaves of the store: every fsynced record, and some of those that
were written or queued since.  Which file the name leads to stays open until the
directory is fsynced. -/
def crashed : CrashedLog → Option (LogStore ι κ)
  | .tail kept =>
    if s.synced ≤ kept ∧ kept ≤ s.recs.length then some { s with recs := s.recs.take kept }
    else none
  | .renamed i => (s.renamed[i]?).map fun file =>
    { s with
      recs := file
      synced := file.length
      renamed := s.recs.take s.synced :: s.renamed.eraseIdx i }

/-! ## What the operations can do -/

omit [DecidableEq ι] in
/-- An accepted enqueue appends the records, and the store is open and healthy
unless there was nothing to append. -/
theorem enqueue_some {s s' : LogStore ι κ} {entries : List (LogEntry κ)}
    (h : s.enqueue entries = some s') :
    s' = { s with recs := s.recs ++ entries } ∧ (s.failed = false ∨ entries = []) := by
  rw [enqueue] at h
  split at h
  next hnil =>
    cases h
    rw [List.isEmpty_iff.1 hnil]
    exact ⟨by simp, .inr rfl⟩
  · split at h
    · cases h
    next hok =>
      cases h
      simp only [Bool.or_eq_true, not_or, Bool.not_eq_true] at hok
      exact ⟨rfl, .inl hok.2⟩

omit [DecidableEq ι] in
theorem rewrite_cases (entries : List (LogEntry κ)) (o : RewriteOutcome) :
    s.rewrite entries o = (s, false) ∨
      s.rewrite entries o = ({ s.replaced entries with failed := false, gen := s.gen + 1 }, true) ∨
      s.rewrite entries o = ({ s.replaced entries with failed := true }, false) ∨
      (o = .failedRenamed ∧
        s.rewrite entries o = ({ s with renamed := entries :: s.renamed }, false)) := by
  cases o with
  | done | failed | failedRenamed | reopenFailed =>
    simp only [rewrite]
    split <;> simp

omit [DecidableEq ι] in
/-- A crash changes only what the log file holds. -/
theorem crashed_some {s s' : LogStore ι κ} {f : CrashedLog} (h : s.crashed f = some s') :
    ∃ recs synced renamed, s' = { s with recs := recs, synced := synced, renamed := renamed } := by
  cases f with
  | tail =>
    rw [crashed] at h
    split at h
    · exact ⟨_, _, _, (Option.some.inj h).symm⟩
    · cases h
  | renamed =>
    obtain ⟨file, -, rfl⟩ := Option.map_eq_some_iff.1 h
    exact ⟨_, _, _, rfl⟩

/-- Saving term and vote fails without effect, finds them saved, writes them, or
fails after the file was replaced. -/
theorem saveMeta_cases (m : RaftMeta ι) (o : ReplaceOutcome) :
    s.saveMeta m o = (s, false) ∨ (s.savedMeta = m ∧ s.saveMeta m o = (s, true)) ∨
      s.saveMeta m o = ({ s with savedMeta := m, metaFile := m }, true) ∨
      s.saveMeta m o = ({ s with metaFile := m }, false) := by
  simp only [saveMeta]
  split
  · exact .inl rfl
  · split
    next h => exact .inr (.inl ⟨h, rfl⟩)
    · cases o with
      | done => exact .inr (.inr (.inl rfl))
      | failed => exact .inl rfl
      | failedRenamed => exact .inr (.inr (.inr rfl))

end LogStore

end VeltrixDB.Consensus
