import Mathlib.Data.List.Dedup
import Mathlib.Logic.Relation
import VeltrixDB.Lib.ByteOrder
import VeltrixDB.Lib.FuzzyCopy
import VeltrixDB.Storage.Slots
import VeltrixDB.Storage.Writers

/-!
# Capturing a snapshot while commands are applied

A capture pages through the keyspace and reads each key, then reads again, round
after round, the keys that were written meanwhile, and the last of them inside a
fence that keeps commands out (`CaptureSnapshot` in
`cmd/server/raft_snapshot.go`, `storage/snapshot_support.go`).  Keys past
their deadline may be tombstoned at any time.  A read looks up the entry and then
takes the time at which it judges the deadline; so does whoever tombstones.  The
lookup asks the filter of the shard first (`getHashed` in `storage/shard.go`), and
`vacuumBloomFilters` empties a filter and fills it again beside the readers.

Main results:

- Theorem `CaptureSys.Sound.step`: the records describe every key that is
  neither noted as written nor still to be read.
- Theorem `CaptureSys.Run.exact`: a capture that returns describes the keyspace
  at the fence, if no deadline was judged at a time past the raft clock and no live
  key was looked up while its filter did not have it.
-/

open scoped Bytes
open FuzzyCopy

namespace VeltrixDB.Storage

open Function List

/-! ## Records -/

/-- A record of a snapshot: the head with the clock at the start, a key with its
cell, the end of the sorted part, a key that is gone, and the clock at the
fence. -/
inductive SnapRecord where
  | recMeta (sorted : Bool) (floor last : Int)
  | recPutV (key : Key) (cell : Cell)
  | recOverlay
  | recDel (key : Key)
  | recClock (last floor : Int)
deriving DecidableEq, Repr

def SnapRecord.change : SnapRecord → List (Key × Option Cell)
  | .recPutV key cell => [(key, some cell)]
  | .recDel key => [(key, none)]
  | _ => []

/-- The keyspace that records describe: the last record of a key decides. -/
def described (rs : List SnapRecord) : Keyspace :=
  Keyspace.write (fun _ => none) (rs.flatMap SnapRecord.change)

/-! ## The write tracker -/

/-- `snapPage`: the keys of a page of the walk. -/
def snapPage : Nat := 1024

/-- `snapTrackLimit`: how many keys the tracker holds between two drains. -/
def snapTrackLimit : Nat := 4 * 2 ^ 20

/-- `snapFenceKeys`: a drain this small is left to the fence. -/
def snapFenceKeys : Nat := 4096

/-- `snapCatchUpRounds`: after so many rounds any drain is. -/
def snapCatchUpRounds : Nat := 8

/-- The keys noted since the last drain, or the note that there were too many. -/
structure WriteTracker where
  keys : List Key
  overflow : Bool
deriving DecidableEq, Repr

def WriteTracker.empty : WriteTracker := ⟨[], false⟩

def WriteTracker.note (t : WriteTracker) (k : Key) : WriteTracker :=
  if t.overflow then t
  else if snapTrackLimit ≤ t.keys.length then
    if k ∈ t.keys then t else ⟨[], true⟩
  else ⟨t.keys.insert k, false⟩

/-- The tracker knows of a write to the key, or has lost count. -/
def WriteTracker.Covers (t : WriteTracker) (k : Key) : Prop := t.overflow = true ∨ k ∈ t.keys

/-! ## The system -/

/-- How far the walk over the keyspace has come: past a key of the ordered index,
or past the shards before one. -/
inductive WalkPos where
  | sorted (after : Option Key)
  | shard (i : Nat)

def WalkPos.ahead : WalkPos → Set Key
  | .sorted none => Set.univ
  | .sorted (some a) => {k | a < k}
  | .shard i => {k | i ≤ shardOf k}

/-- What the keys that are being read are for. -/
inductive ReadStage where
  | base (pos : WalkPos) (last : Bool)
  | overlay (round : Nat)
  | fence

def ReadStage.fenced : ReadStage → Bool
  | .fence => true
  | _ => false

/-- The program point of the capture. -/
inductive CapturePhase where
  | idle
  | tracking
  | walking (pos : WalkPos) (page : List Key)
  | reading (stage : ReadStage) (keys : List Key) (entry : Option (Option Cell))
  | draining (round : Nat)
  | waiting (pending : List Key)
  | done
  | failed

def CapturePhase.fenced : CapturePhase → Bool
  | .reading stage _ _ => stage.fenced
  | _ => false

/-- The engine and what the applier does with its clock.  The filter of its shard
tells a reader that a key in `misses` is not there. -/
structure SnapNode where
  slots : Slots
  misses : Key → Bool
  clock : RaftClock
  applying : Bool
  issued : List WriteClock
  cur : Option WriteClock
  cutoffs : List Int

/-- A step of the node that changes no key.  Of every time that is taken to judge
deadlines at, `P` is asked. -/
inductive SnapNode.Step (P : RaftClock → Option WriteClock → Prop) (fenced : Bool) :
    SnapNode → SnapNode → Prop
  | enter (n : SnapNode) (hfence : fenced = false) (happ : n.applying = false) :
      Step P fenced n { n with applying := true, issued := [] }
  /-- `NextRaftApplyTime` of a command. -/
  | tick (n : SnapNode) (leaderTsUs localUs : Int) (happ : n.applying = true) :
      Step P fenced n { n with
        clock := (n.clock.next leaderTsUs localUs).1
        issued := (n.clock.next leaderTsUs localUs).2 :: n.issued }
  | setApplyTime (n : SnapNode) (t : WriteClock) (happ : n.applying = true) (ht : t ∈ n.issued) :
      Step P fenced n { n with cur := some t }
  | clearApplyTime (n : SnapNode) : Step P fenced n { n with cur := none }
  /-- Somebody takes `expiryCutoffUs`. -/
  | cutoff (n : SnapNode) (localUs : Int) (hP : P n.clock n.cur) :
      Step P fenced n
        { n with cutoffs := n.clock.expiryCutoffUs n.cur localUs :: n.cutoffs }
  | reap (n : SnapNode) (k : Key) : Step P fenced n { n with slots := n.slots.removeTombstone k }
  /-- `vacuumBloomFilters` resets the filter of a shard. -/
  | resetFilter (n : SnapNode) (shard : Nat) :
      Step P fenced n { n with misses := fun k => decide (shardOf k = shard) || n.misses k }
  /-- It adds the keys of the shard again, one by one. -/
  | addToFilter (n : SnapNode) (k : Key) :
      Step P fenced n { n with misses := update n.misses k false }

structure CaptureSys where
  node : SnapNode
  unnoted : List Key
  tracker : Option WriteTracker
  written : List Key
  phase : CapturePhase
  floor0 : Int
  records : List SnapRecord
  fence : Option (Keyspace × RaftClock)

namespace CaptureSys

def create (slots : Slots) (clock : RaftClock) : CaptureSys where
  node :=
    { slots := slots, misses := fun _ => false, clock := clock, applying := false, issued := [],
      cur := none, cutoffs := [] }
  unnoted := []
  tracker := none
  written := []
  phase := .idle
  floor0 := 0
  records := []
  fence := none

variable (s : CaptureSys)

/-- A command changes a key and has not noted it yet. -/
def install (k : Key) (slots : Slots) (misses : Key → Bool) : CaptureSys :=
  { s with
    node := { s.node with slots := slots, misses := misses }
    unnoted := k :: s.unnoted
    written := k :: s.written }

def noteWrite (k : Key) : CaptureSys :=
  { s with tracker := s.tracker.map fun t => t.note k }

def goto (phase : CapturePhase) : CaptureSys :=
  { s with phase := phase }

def emit (rs : List SnapRecord) : CaptureSys :=
  { s with records := s.records ++ rs }

def setTracker (t : Option WriteTracker) : CaptureSys :=
  { s with tracker := t }

end CaptureSys

/-- The record of a key that was read: the walk leaves out a key that is absent,
later reads say so. -/
def ReadStage.record (stage : ReadStage) (k : Key) (c : Option Cell) : List SnapRecord :=
  match stage, c with
  | _, some c => [.recPutV k c]
  | .base _ _, none => []
  | _, none => [.recDel k]

/-- The keys of a shard that `shardKeys` returns. -/
def Slots.ShardKeys (s : Slots) (i : Nat) (cutoffUs : Int) (keys : List Key) : Prop :=
  keys.Nodup ∧ ∀ k, k ∈ keys ↔ shardOf k = i ∧ (s.cells.read k cutoffUs).isSome = true

/-- What a lookup of a key finds: nothing if the filter says so. -/
def SnapNode.getHashed (n : SnapNode) (k : Key) : Option Cell :=
  if n.misses k then none else n.slots.cells k

/-- What is asked of the times at which deadlines are judged and of the lookups of
the capture. -/
structure CaptureDiscipline where
  judge : RaftClock → Option WriteClock → Prop
  lookup : SnapNode → Key → Prop

def CaptureDiscipline.none : CaptureDiscipline := ⟨fun _ _ => True, fun _ _ => True⟩

/-- One step of the node, of another goroutine or of the capture. -/
inductive CaptureSys.Step (P : CaptureDiscipline) : CaptureSys → CaptureSys → Prop
  | node (s : CaptureSys) (n : SnapNode) (h : SnapNode.Step P.judge s.phase.fenced s.node n) :
      Step P s { s with node := n }
  | put (s : CaptureSys) (k : Key) (c : Cell) (happ : s.node.applying = true) (hc : 0 ≤ c.2.2) :
      Step P s (s.install k (s.node.slots.put k c) (update s.node.misses k false))
  | delete (s : CaptureSys) (k : Key) (nowUs : Int) (happ : s.node.applying = true)
      (hk : (s.node.slots k).isSome = true) :
      Step P s (s.install k (s.node.slots.markTombstone k nowUs) s.node.misses)
  | note (s : CaptureSys) (k : Key) (hk : k ∈ s.unnoted) :
      Step P s { s.noteWrite k with unnoted := s.unnoted.erase k }
  | leave (s : CaptureSys) (hnoted : s.unnoted = []) :
      Step P s { s with node := { s.node with applying := false, cur := none } }
  | expire (s : CaptureSys) (k : Key) (cutoffUs tombUs : Int) (hcut : cutoffUs ∈ s.node.cutoffs)
      (hexp : (s.node.slots.cells.read k cutoffUs) = none)
      (hlive : (s.node.slots.cells k).isSome = true) :
      Step P s
        ({ s with node := { s.node with slots := s.node.slots.markExpired k cutoffUs tombUs }
          }.noteWrite k)
  /-- `TrackWrites`. -/
  | trackWrites (s : CaptureSys) (hphase : s.phase = .idle) :
      Step P s { (s.setTracker (some .empty)).goto .tracking with written := [] }
  | start (s : CaptureSys) (sorted : Bool) (hphase : s.phase = .tracking) :
      Step P s
        { (s.goto (.walking (if sorted then .sorted none else .shard 0) [])).emit
            [.recMeta sorted s.node.clock.floor s.node.clock.last] with
          floor0 := s.node.clock.floor }
  /-- The walk over the ordered index comes to a key.  It passes over no key that was
  there all the time. -/
  | visit (s : CaptureSys) (after : Option Key) (page : List Key) (k : Key)
      (hphase : s.phase = .walking (.sorted after) page) (hpage : page.length < snapPage)
      (hk : k ∈ (WalkPos.sorted after).ahead)
      (hskip : ∀ x ∈ (WalkPos.sorted after).ahead, x < k →
        (s.node.slots.cells x).isSome = true → x ∈ s.written) :
      Step P s (s.goto (.walking (.sorted (some k)) (page ++ [k])))
  | pageFull (s : CaptureSys) (after : Option Key) (page : List Key)
      (hphase : s.phase = .walking (.sorted after) page) (hpage : page.length = snapPage) :
      Step P s (s.goto (.reading (.base (.sorted after) false) page none))
  | walkEnd (s : CaptureSys) (after : Option Key) (page : List Key)
      (hphase : s.phase = .walking (.sorted after) page) (hpage : page.length < snapPage)
      (hskip : ∀ x ∈ (WalkPos.sorted after).ahead,
        (s.node.slots.cells x).isSome = true → x ∈ s.written) :
      Step P s (s.goto (.reading (.base (.sorted after) true) page none))
  | shardKeys (s : CaptureSys) (i : Nat) (cutoffUs : Int) (keys : List Key)
      (hphase : s.phase = .walking (.shard i) []) (hi : i < numShards)
      (hcut : cutoffUs ∈ s.node.cutoffs) (hkeys : s.node.slots.ShardKeys i cutoffUs keys) :
      Step P s (s.goto (.reading (.base (.shard (i + 1)) false) keys none))
  | shardsDone (s : CaptureSys) (i : Nat) (hphase : s.phase = .walking (.shard i) [])
      (hi : numShards ≤ i) : Step P s (s.goto (.reading (.base (.shard i) true) [] none))
  /-- `ReadForSnapshot` looks up the entry of a key. -/
  | lookup (s : CaptureSys) (stage : ReadStage) (k : Key) (keys : List Key)
      (hphase : s.phase = .reading stage (k :: keys) none) (hP : P.lookup s.node k) :
      Step P s (s.goto (.reading stage (k :: keys) (some (s.node.getHashed k))))
  | judge (s : CaptureSys) (stage : ReadStage) (k : Key) (keys : List Key) (c : Option Cell)
      (localUs : Int) (hphase : s.phase = .reading stage (k :: keys) (some c))
      (hP : P.judge s.node.clock s.node.cur) :
      Step P s
        ((s.goto (.reading stage keys none)).emit
          (stage.record k (c.bind (Cell.at (s.node.clock.expiryCutoffUs s.node.cur localUs)))))
  | pageDone (s : CaptureSys) (pos : WalkPos)
      (hphase : s.phase = .reading (.base pos false) [] none) :
      Step P s (s.goto (.walking pos []))
  | baseDone (s : CaptureSys) (pos : WalkPos)
      (hphase : s.phase = .reading (.base pos true) [] none) :
      Step P s ((s.goto (.draining 0)).emit [.recOverlay])
  /-- `Drain`: the keys come in any order. -/
  | drain (s : CaptureSys) (round : Nat) (t : WriteTracker) (keys : List Key)
      (hphase : s.phase = .draining round) (ht : s.tracker = some t) (hok : t.overflow = false)
      (hkeys : keys.Perm t.keys) :
      Step P s
        ((s.setTracker (some .empty)).goto
          (if keys.length ≤ snapFenceKeys ∨ snapCatchUpRounds ≤ round then .waiting keys
            else .reading (.overlay round) keys none))
  | roundDone (s : CaptureSys) (round : Nat)
      (hphase : s.phase = .reading (.overlay round) [] none) :
      Step P s (s.goto (.draining (round + 1)))
  /-- The fence: no command is being applied, and the clock has not started since the
  walk began. -/
  | fence (s : CaptureSys) (pending keys : List Key) (t : WriteTracker)
      (hphase : s.phase = .waiting pending) (hquiet : s.node.applying = false)
      (hfloor : s.node.clock.floor = s.floor0) (ht : s.tracker = some t)
      (hok : t.overflow = false) (hkeys : keys.Perm t.keys) :
      Step P s
        { (s.setTracker (some .empty)).goto (.reading .fence (pending ++ keys).dedup none) with
          fence := some (s.node.slots.cells, s.node.clock) }
  | release (s : CaptureSys) (hphase : s.phase = .reading .fence [] none) :
      Step P s
        (((s.setTracker none).goto .done).emit
          [.recClock s.node.clock.last s.node.clock.floor])
  /-- The tracker has lost count, the clock started since the walk began, or reading or
  writing fails. -/
  | fail (s : CaptureSys) (hphase : s.phase ≠ .done) :
      Step P s ((s.setTracker none).goto .failed)

def Slots.Dated (s : Slots) : Prop := ∀ k c, s.cells k = some c → 0 ≤ c.2.2

def CaptureSys.Run (P : CaptureDiscipline) (s : CaptureSys) : Prop :=
  ∃ slots clock, slots.Dated ∧ Relation.ReflTransGen (CaptureSys.Step P) (.create slots clock) s

/-- Deadlines are judged once the clock has started, and by a command that takes its
time from the clock. -/
def Stamped (c : RaftClock) (cur : Option WriteClock) : Prop :=
  (cur = none → 0 < c.last) ∧ ∀ t, cur = some t → t.nowUs ≤ c.last

/-- Deadlines are judged no later than the clock, and no live key is looked up
between the reset of its filter and its return there. -/
def CaptureDiscipline.stamped : CaptureDiscipline where
  judge := Stamped
  lookup := fun n k => n.misses k = true → n.slots.cells k = Option.none

/-! ## Cells that reads do not tell apart -/

/-- No read from `t` on tells the two apart. -/
def Cell.SameFrom (t : Int) (a b : Option Cell) : Prop :=
  ∀ nowUs, t ≤ nowUs → a.bind (Cell.at nowUs) = b.bind (Cell.at nowUs)

section Cells

variable {t : Int} {a b : Option Cell}

theorem Cell.SameFrom.refl (t : Int) (a : Option Cell) : Cell.SameFrom t a a := fun _ _ => rfl

theorem Cell.SameFrom.symm (h : Cell.SameFrom t a b) : Cell.SameFrom t b a :=
  fun nowUs ht => (h nowUs ht).symm

theorem Cell.SameFrom.trans (a b c : Option Cell) (h : Cell.SameFrom t a b)
    (h' : Cell.SameFrom t b c) : Cell.SameFrom t a c :=
  fun nowUs ht => (h nowUs ht).trans (h' nowUs ht)

theorem Cell.SameFrom.mono {t' : Int} (ht : t ≤ t') (a b : Option Cell)
    (h : Cell.SameFrom t a b) : Cell.SameFrom t' a b :=
  fun nowUs ht' => h nowUs (ht.trans ht')

/-- A cell judged at an earlier time. -/
theorem Cell.sameFrom_at {u : Int} (hu : u ≤ t) (a : Option Cell) :
    Cell.SameFrom t (a.bind (Cell.at u)) a := by
  intro nowUs ht
  cases a with
  | none => rfl
  | some c =>
    cases hc : c.at u with
    | none =>
      rw [Option.bind_some, hc]
      exact (Cell.at_eq_none_of_le hc (hu.trans ht)).symm
    | some c' =>
      have heq : c' = c := by
        unfold Cell.at unexpired at hc
        split at hc
        · cases hc
        · exact (Option.some.inj hc).symm
      rw [Option.bind_some, hc, heq]

end Cells

/-! ## What records describe -/

variable {k : Key}

section Described

variable {rs : List SnapRecord}

theorem described_append (rs rs' : List SnapRecord) :
    described (rs ++ rs') = (described rs).write (rs'.flatMap SnapRecord.change) := by
  unfold described
  rw [flatMap_append, Keyspace.write_append]

theorem described_append_of_nil {rs' : List SnapRecord} (h : rs'.flatMap SnapRecord.change = []) :
    described (rs ++ rs') = described rs := by
  rw [described_append, h]
  rfl

theorem described_record (stage : ReadStage) (c : Option Cell)
    (hfresh : ∀ pos last, stage = .base pos last → described rs k = none) :
    described (rs ++ stage.record k c) = update (described rs) k c := by
  rw [described_append]
  unfold ReadStage.record
  split
  · rfl
  next pos last =>
    rw [← hfresh pos last rfl, update_eq_self]
    rfl
  · rfl

end Described

/-! ## The tracker -/

section Tracker

variable {t : WriteTracker} {k x : Key}

theorem WriteTracker.covers_note_self (t : WriteTracker) (k : Key) : (t.note k).Covers k := by
  unfold WriteTracker.note
  split
  next h => exact .inl h
  · split
    · split
      next h => exact .inr h
      · exact .inl rfl
    · exact .inr (mem_insert_self)

theorem WriteTracker.Covers.note (h : t.Covers x) (k : Key) : (t.note k).Covers x := by
  unfold WriteTracker.note
  split
  · exact h
  next hover =>
    have hx : x ∈ t.keys := h.resolve_left hover
    split
    · split
      · exact h
      · exact .inl rfl
    · exact .inr (mem_insert_of_mem hx)

end Tracker

/-! ## The invariant -/

def CapturePhase.keys : CapturePhase → List Key
  | .walking _ page => page
  | .reading _ keys _ => keys
  | .waiting pending => pending
  | _ => []

def ReadStage.ahead : ReadStage → Set Key
  | .base pos false => pos.ahead
  | _ => ∅

def CapturePhase.ahead : CapturePhase → Set Key
  | .walking pos _ => pos.ahead
  | .reading stage _ _ => stage.ahead
  | .draining _ => ∅
  | .waiting _ => ∅
  | _ => Set.univ

def CapturePhase.todo (phase : CapturePhase) : Set Key := {k | k ∈ phase.keys} ∪ phase.ahead

def ReadStage.isBase : ReadStage → Bool
  | .base _ _ => true
  | _ => false

def CapturePhase.isWalk : CapturePhase → Bool
  | .tracking | .walking _ _ => true
  | .reading stage _ _ => stage.isBase
  | _ => false

def CapturePhase.entry : CapturePhase → Option (Key × Option Cell)
  | .reading _ (k :: _) (some c) => some (k, c)
  | _ => none

/-- The keys that were written since they were drained last; any may have been while
no tracker runs. -/
def CaptureSys.changed (s : CaptureSys) : Set Key :=
  {k | k ∈ s.unnoted ∨ ∀ t, s.tracker = some t → t.Covers k}

/-- The keys whose record may be out of date.  Inside the fence only deadlines pass,
and nobody sees that. -/
def CaptureSys.stale (s : CaptureSys) : Set Key := if s.phase.fenced then ∅ else s.changed

/-- The collected keys are new, no record names a key that is still to be read, and
every write is noted or will be. -/
structure CaptureSys.Walks (s : CaptureSys) : Prop where
  nodup : s.phase.keys.Nodup
  apart : ∀ k ∈ s.phase.keys, k ∉ s.phase.ahead
  fresh : ∀ k ∈ s.phase.todo, described s.records k = none
  written : ∀ k ∈ s.written, k ∈ s.changed

def CaptureSys.Exact (s : CaptureSys) : Prop :=
  ∃ σ c, s.fence = some (σ, c) ∧
    (∀ k, (described s.records).read k c.last = σ.read k c.last) ∧
    s.records.getLast? = some (.recClock c.last c.floor)

structure CaptureSys.Sound (s : CaptureSys) : Prop where
  cutoffs : ∀ u ∈ s.node.cutoffs, u ≤ s.node.clock.last
  noted : s.node.applying = false → s.unnoted = []
  settled : Settled (Cell.SameFrom s.node.clock.last) (s.stale ∪ s.phase.todo)
    (described s.records) s.node.slots.cells
  looked : ∀ k c, s.phase.entry = some (k, c) → k ∉ s.stale →
    Cell.SameFrom s.node.clock.last c (s.node.slots.cells k)
  idle : s.phase = .idle → s.records = []
  walk : s.phase.isWalk = true → s.Walks
  fenced : s.phase.fenced = true → s.node.applying = false ∧
    ∃ σ, s.fence = some (σ, s.node.clock) ∧
      ∀ k, Cell.SameFrom s.node.clock.last (s.node.slots.cells k) (σ k)
  done : s.phase = .done → s.Exact

section Invariant

variable {s : CaptureSys} {keys page : List Key} {phase old : CapturePhase} {t : WriteTracker}
  {cutoffUs : Int}

theorem CaptureSys.sound_create (slots : Slots) (clock : RaftClock) :
    (CaptureSys.create slots clock).Sound where
  cutoffs := by
    intro u hu
    cases hu
  noted := fun _ => rfl
  settled := settled_univ.dirty_mono fun k hk => .inr (.inr hk)
  looked := by
    intro k c h
    cases h
  idle := fun _ => rfl
  walk := by
    intro h
    cases h
  fenced := by
    intro h
    cases h
  done := by
    intro h
    cases h

/-- The node moves on in a way that no read from now on sees, and keys are noted. -/
theorem CaptureSys.Sound.drift (h : s.Sound) {n : SnapNode} {unnoted : List Key}
    {tracker : Option WriteTracker}
    (hlast : s.node.clock.last ≤ n.clock.last)
    (hcells : ∀ k, Cell.SameFrom n.clock.last (s.node.slots.cells k) (n.slots.cells k))
    (hcut : ∀ u ∈ n.cutoffs, u ≤ n.clock.last)
    (hnoted : n.applying = false → unnoted = [])
    (hfence : s.phase.fenced = true → n.clock = s.node.clock ∧ n.applying = false)
    (hchanged : ∀ k ∈ s.changed,
      k ∈ { s with node := n, unnoted := unnoted, tracker := tracker }.changed) :
    { s with node := n, unnoted := unnoted, tracker := tracker }.Sound := by
  have hstale : s.stale ⊆ { s with node := n, unnoted := unnoted, tracker := tracker }.stale := by
    intro k hk
    unfold CaptureSys.stale at hk ⊢
    split at hk
    · cases hk
    next hf =>
      rw [if_neg hf]
      exact hchanged k hk
  constructor
  · exact hcut
  · exact hnoted
  · apply ((h.settled.rel_mono (Cell.SameFrom.mono hlast)).drift Cell.SameFrom.trans hcells).dirty_mono
    exact Set.union_subset_union_left _ hstale
  · intro k c he hk
    have hold : k ∉ s.stale := fun hk' => hk (hstale hk')
    exact ((h.looked k c he hold).mono hlast).trans _ _ _ (hcells k)
  · exact h.idle
  · intro hw
    obtain ⟨hnodup, hapart, hfresh, hwritten⟩ := h.walk hw
    exact ⟨hnodup, hapart, hfresh, fun k hk => hchanged k (hwritten k hk)⟩
  · intro hf
    obtain ⟨-, σ, hσ, hsame⟩ := h.fenced hf
    obtain ⟨hclock, happ⟩ := hfence hf
    refine ⟨happ, σ, ?_, ?_⟩
    · rw [hclock]
      exact hσ
    · intro k
      apply Cell.SameFrom.trans _ _ _ (hcells k).symm
      exact (hsame k).mono hlast
  · exact h.done

/-! ## Steps of the node -/

theorem RaftClock.last_le_next (c : RaftClock) (leaderTsUs localUs : Int) :
    c.last ≤ (c.next leaderTsUs localUs).1.last := by
  unfold RaftClock.next
  split
  · split
    · exact le_refl _
    · show c.last ≤ c.last + 1
      omega
  · show c.last ≤ if leaderTsUs ≤ c.last then c.last + 1 else leaderTsUs
    split <;> omega

/-- Deadlines are judged no later than the clock. -/
theorem RaftClock.expiryCutoffUs_le {c : RaftClock} {cur : Option WriteClock} (h : Stamped c cur)
    (localUs : Int) : c.expiryCutoffUs cur localUs ≤ c.last := by
  cases cur with
  | none =>
    have hpos := h.1 rfl
    show (if 0 < c.last ∧ c.last < localUs then c.last else localUs) ≤ c.last
    split <;> omega
  | some t => exact h.2 t rfl

theorem CaptureSys.Sound.node (h : s.Sound) {n : SnapNode}
    (hstep : SnapNode.Step Stamped s.phase.fenced s.node n) : { s with node := n }.Sound := by
  have happ : s.phase.fenced = true → s.node.applying = false := fun hf => (h.fenced hf).1
  cases hstep with
  | enter hfence _ =>
    refine h.drift (le_refl _) (fun k => .refl _ _) h.cutoffs ?_ ?_ fun k hk => hk
    · intro hfalse
      cases hfalse
    · intro hf
      rw [hf] at hfence
      cases hfence
  | tick leaderTsUs localUs htrue =>
    have hle := s.node.clock.last_le_next leaderTsUs localUs
    refine h.drift hle (fun k => .refl _ _) (fun u hu => (h.cutoffs u hu).trans hle) h.noted ?_
      fun k hk => hk
    intro hf
    rw [happ hf] at htrue
    cases htrue
  | setApplyTime | clearApplyTime | resetFilter | addToFilter =>
    exact h.drift (le_refl _) (fun k => .refl _ _) h.cutoffs h.noted
      (fun hf => ⟨rfl, happ hf⟩) fun k hk => hk
  | cutoff localUs hP =>
    exact h.drift (le_refl _) (fun k => .refl _ _)
      (forall_mem_cons.mpr ⟨RaftClock.expiryCutoffUs_le hP localUs, h.cutoffs⟩) h.noted
      (fun hf => ⟨rfl, happ hf⟩) fun k hk => hk
  | reap k =>
    refine h.drift (le_refl _) ?_ h.cutoffs h.noted (fun hf => ⟨rfl, happ hf⟩) fun k hk => hk
    intro x
    rw [Slots.cells_removeTombstone]
    exact .refl _ _

theorem CaptureSys.Sound.install (h : s.Sound) (happ : s.node.applying = true) {slots : Slots}
    {misses : Key → Bool} {c : Option Cell}
    (hcells : slots.cells = update s.node.slots.cells k c) :
    (s.install k slots misses).Sound := by
  have hfenced : s.phase.fenced ≠ true := by
    intro hf
    rw [(h.fenced hf).1] at happ
    cases happ
  have hstale : s.stale = s.changed := if_neg hfenced
  have hstale' : (s.install k slots misses).stale = insert k s.changed := by
    have hfalse : (s.install k slots misses).stale = (s.install k slots misses).changed := if_neg hfenced
    rw [hfalse]
    ext x
    simp only [CaptureSys.changed, CaptureSys.install, mem_cons, Set.mem_insert_iff,
      Set.mem_ofPred_eq, or_assoc]
  have hsame : ∀ x, x ∉ (s.install k slots misses).stale →
      s.node.slots.cells x = slots.cells x ∧ x ∉ s.stale := by
    intro x hx
    rw [hstale', Set.mem_insert_iff, not_or] at hx
    rw [hcells, update_of_ne hx.1, hstale]
    exact ⟨rfl, hx.2⟩
  constructor
  · exact h.cutoffs
  · intro hfalse
    rw [show (s.install k slots misses).node.applying = s.node.applying from rfl, happ] at hfalse
    cases hfalse
  · show Settled _ _ _ slots.cells
    rw [hcells, hstale', Set.insert_union, ← hstale]
    exact h.settled.write k c
  · intro x c' he hx
    obtain ⟨heq, hold⟩ := hsame x hx
    show Cell.SameFrom _ c' (slots.cells x)
    rw [← heq]
    exact h.looked x c' he hold
  · exact h.idle
  · intro hw
    obtain ⟨hnodup, hapart, hfresh, hwritten⟩ := h.walk hw
    exact ⟨hnodup, hapart, hfresh, forall_mem_cons.mpr
      ⟨.inl mem_cons_self, fun x hx => (hwritten x hx).imp_left (mem_cons_of_mem _)⟩⟩
  · exact fun hf => absurd hf hfenced
  · exact h.done

theorem CaptureSys.covers_noteWrite {x : Key} (h : x = k ∨ ∀ t, s.tracker = some t → t.Covers x) :
    ∀ t, (s.noteWrite k).tracker = some t → t.Covers x := by
  intro t ht
  obtain ⟨t', ht', rfl⟩ := Option.map_eq_some_iff.mp ht
  rcases h with rfl | h
  · exact t'.covers_note_self x
  · exact (h t' ht').note k

theorem CaptureSys.Sound.note (h : s.Sound) (k : Key) :
    { s.noteWrite k with unnoted := s.unnoted.erase k }.Sound := by
  refine h.drift (le_refl _) (fun k => .refl _ _) h.cutoffs ?_ (fun hf => ⟨rfl, (h.fenced hf).1⟩) ?_
  · intro happ
    rw [h.noted happ]
    rfl
  · intro x hx
    by_cases heq : x = k
    · exact .inr (s.covers_noteWrite (.inl heq))
    · rcases hx with hx | hx
      · exact .inl ((mem_erase_of_ne heq).mpr hx)
      · exact .inr (s.covers_noteWrite (.inr hx))

theorem CaptureSys.Sound.leave (h : s.Sound) (hnoted : s.unnoted = []) :
    { s with node := { s.node with applying := false, cur := none } }.Sound :=
  h.drift (le_refl _) (fun _ => .refl _ _) h.cutoffs (fun _ => hnoted) (fun _ => ⟨rfl, rfl⟩)
    fun _ hk => hk

theorem CaptureSys.Sound.expire (h : s.Sound) (tombUs : Int) (hcut : cutoffUs ∈ s.node.cutoffs) :
    ({ s with node := { s.node with slots := s.node.slots.markExpired k cutoffUs tombUs }
      }.noteWrite k).Sound := by
  refine h.drift (le_refl _) ?_ h.cutoffs h.noted (fun hf => ⟨rfl, (h.fenced hf).1⟩)
    fun x hx => hx.imp id fun hx => s.covers_noteWrite (.inr hx)
  intro x nowUs ht
  exact (s.node.slots.read_markExpired k x tombUs ((h.cutoffs _ hcut).trans ht)).symm

/-! ## Steps of the capture -/

theorem CapturePhase.fenced_of_isWalk (h : phase.isWalk = true) : phase.fenced = false := by
  cases phase with
  | reading stage =>
    cases stage with
    | base => rfl
    | overlay | fence => cases h
  | _ => rfl

theorem CaptureSys.Sound.trackWrites (h : s.Sound) (hphase : s.phase = .idle) :
    { (s.setTracker (some .empty)).goto .tracking with written := [] }.Sound where
  cutoffs := h.cutoffs
  noted := h.noted
  settled := settled_univ.dirty_mono fun k hk => .inr (.inr hk)
  looked := by
    intro k c he
    cases he
  idle := by
    intro he
    cases he
  walk := by
    intro _
    refine ⟨nodup_nil, fun k hk => (by cases hk), ?_, fun k hk => (by cases hk)⟩
    intro k _
    show described s.records k = none
    rw [h.idle hphase]
    rfl
  fenced := by
    intro hf
    cases hf
  done := by
    intro hd
    cases hd

theorem CaptureSys.Sound.emit (h : s.Sound) {rs : List SnapRecord} (floor0 : Int)
    (hrs : rs.flatMap SnapRecord.change = []) (hidle : s.phase ≠ .idle) (hdone : s.phase ≠ .done) :
    { s.emit rs with floor0 := floor0 }.Sound := by
  have hdesc : described (s.records ++ rs) = described s.records := described_append_of_nil hrs
  constructor
  · exact h.cutoffs
  · exact h.noted
  · show Settled _ _ (described (s.records ++ rs)) _
    rw [hdesc]
    exact h.settled
  · exact h.looked
  · exact fun he => absurd he hidle
  · intro hw
    obtain ⟨hnodup, hapart, hfresh, hwritten⟩ := h.walk hw
    refine ⟨hnodup, hapart, ?_, hwritten⟩
    intro k hk
    show described (s.records ++ rs) k = none
    rw [hdesc]
    exact hfresh k hk
  · exact h.fenced
  · exact fun hd => absurd hd hdone

theorem CaptureSys.Sound.skipped (h : s.Sound) (hwalk : s.phase.isWalk = true)
    (hskip : (s.node.slots.cells k).isSome = true → k ∈ s.written) (hk : k ∉ s.changed) :
    Cell.SameFrom s.node.clock.last none (s.node.slots.cells k) := by
  cases hcell : s.node.slots.cells k with
  | none => exact .refl _ _
  | some =>
    refine absurd ((h.walk hwalk).written k (hskip ?_)) hk
    rw [hcell]
    rfl

/-- The walk goes on: keys that it leaves behind are written or gone. -/
theorem CaptureSys.Sound.walkOn (h : s.Sound) (hphase : s.phase = old)
    (hwalk : old.isWalk = true) (hwalk' : phase.isWalk = true) (hentry : phase.entry = none)
    (hnodup : phase.keys.Nodup) (hapart : ∀ k ∈ phase.keys, k ∉ phase.ahead)
    (htodo : ∀ k ∈ phase.todo, k ∈ old.todo)
    (hpassed : ∀ k ∈ old.todo, k ∉ phase.todo → k ∉ s.changed →
      Cell.SameFrom s.node.clock.last none (s.node.slots.cells k)) : (s.goto phase).Sound := by
  subst hphase
  have hfenced := CapturePhase.fenced_of_isWalk hwalk
  have hfenced' := CapturePhase.fenced_of_isWalk hwalk'
  have hstale : s.stale = s.changed := if_neg (by rw [hfenced]; exact Bool.false_ne_true)
  have hstale' : (s.goto phase).stale = s.changed :=
    if_neg (by show ¬phase.fenced = true; rw [hfenced']; exact Bool.false_ne_true)
  obtain ⟨-, -, hfresh, hwritten⟩ := h.walk hwalk
  constructor
  · exact h.cutoffs
  · exact h.noted
  · have hsettled := h.settled
    rw [hstale] at hsettled
    rw [hstale']
    apply hsettled.clean
    intro k hk hk'
    rw [Set.mem_union, not_or] at hk'
    have hk : k ∈ s.phase.todo := hk.resolve_left hk'.1
    rw [hfresh k hk]
    exact hpassed k hk hk'.2 hk'.1
  · intro k c he
    have he' : phase.entry = some (k, c) := he
    rw [hentry] at he'
    cases he'
  · intro he
    rw [show phase = .idle from he] at hwalk'
    cases hwalk'
  · intro _
    exact ⟨hnodup, hapart, fun k hk => hfresh k (htodo k hk), hwritten⟩
  · intro hf
    rw [show phase.fenced = true from hf] at hfenced'
    cases hfenced'
  · intro hd
    rw [show phase = .done from hd] at hwalk'
    cases hwalk'

theorem CaptureSys.Sound.lookup (h : s.Sound) {stage : ReadStage}
    (hphase : s.phase = .reading stage (k :: keys) none)
    (hP : CaptureDiscipline.stamped.lookup s.node k) :
    (s.goto (.reading stage (k :: keys) (some (s.node.getHashed k)))).Sound := by
  have hfound : s.node.getHashed k = s.node.slots.cells k := by
    unfold SnapNode.getHashed
    split
    next hmiss => exact (hP hmiss).symm
    · rfl
  rw [hfound]
  have hstale : (s.goto (.reading stage (k :: keys) (some (s.node.slots.cells k)))).stale =
      s.stale := by
    unfold CaptureSys.stale
    rw [hphase]
    rfl
  obtain ⟨hcut, hnoted, hsettled, -, -, hwalk, hfenced, -⟩ := h
  rw [hphase] at hsettled hwalk hfenced
  constructor
  · exact hcut
  · exact hnoted
  · rw [hstale]
    exact hsettled
  · intro x c he _
    cases he
    exact .refl _ _
  · intro he
    cases he
  · intro hw
    obtain ⟨hnodup, hapart, hfresh, hwritten⟩ := hwalk hw
    rw [hphase] at hnodup hapart hfresh
    exact ⟨hnodup, hapart, hfresh, hwritten⟩
  · exact hfenced
  · intro hd
    cases hd

theorem CaptureSys.Sound.judge (h : s.Sound) {stage : ReadStage} {c : Option Cell}
    (hphase : s.phase = .reading stage (k :: keys) (some c)) (hcut : cutoffUs ≤ s.node.clock.last) :
    ((s.goto (.reading stage keys none)).emit (stage.record k (c.bind (Cell.at cutoffUs)))).Sound := by
  have hstale : ((s.goto (.reading stage keys none)).emit
      (stage.record k (c.bind (Cell.at cutoffUs)))).stale = s.stale := by
    unfold CaptureSys.stale
    rw [hphase]
    rfl
  obtain ⟨hcuts, hnoted, hsettled, hlooked, -, hwalk, hfenced, -⟩ := h
  rw [hphase] at hsettled hlooked hwalk hfenced
  have hdesc : described (s.records ++ stage.record k (c.bind (Cell.at cutoffUs))) =
      update (described s.records) k (c.bind (Cell.at cutoffUs)) := by
    apply described_record
    intro pos last hstage
    have hw := hwalk (by rw [hstage]; rfl)
    apply hw.fresh
    rw [hphase]
    exact .inl mem_cons_self
  constructor
  · exact hcuts
  · exact hnoted
  · show Settled _ _ (described (s.records ++ _)) _
    rw [hstale, hdesc]
    apply Settled.record
    · apply hsettled.dirty_mono
      rintro x (hx | hx | hx)
      · exact .inr (.inl hx)
      · rcases mem_cons.mp hx with rfl | hx
        · exact .inl rfl
        · exact .inr (.inr (.inl hx))
      · exact .inr (.inr (.inr hx))
    · intro hk
      rw [Set.mem_union, not_or] at hk
      exact (Cell.sameFrom_at hcut c).trans _ _ _ (hlooked k c rfl hk.1)
  · intro x c' he
    cases keys <;> cases he
  · intro he
    cases he
  · intro hw
    obtain ⟨hnodup, hapart, hfresh, hwritten⟩ := hwalk hw
    rw [hphase] at hnodup hapart hfresh
    have hnodup := nodup_cons.mp hnodup
    refine ⟨hnodup.2, fun x hx => hapart x (mem_cons_of_mem k hx), ?_, hwritten⟩
    intro x hx
    have hne : x ≠ k := by
      rintro rfl
      rcases hx with hx | hx
      · exact hnodup.1 hx
      · exact hapart x mem_cons_self hx
    show described (s.records ++ _) x = none
    rw [hdesc, update_of_ne hne]
    exact hfresh x (hx.imp (fun hx => mem_cons_of_mem k hx) id)
  · exact hfenced
  · intro hd
    cases hd

theorem CaptureSys.Sound.goto (h : s.Sound) (tracker : Option WriteTracker)
    (hwalk : phase.isWalk = false) (hfenced : phase.fenced = false) (hdone : phase ≠ .done)
    (hidle : phase ≠ .idle) (hentry : phase.entry = none)
    (hdirty : ∀ k ∈ s.stale ∪ s.phase.todo, k ∈ (s.setTracker tracker).changed ∪ phase.todo) :
    ((s.setTracker tracker).goto phase).Sound := by
  have hstale : ((s.setTracker tracker).goto phase).stale = (s.setTracker tracker).changed :=
    if_neg (by show ¬phase.fenced = true; rw [hfenced]; exact Bool.false_ne_true)
  constructor
  · exact h.cutoffs
  · exact h.noted
  · rw [hstale]
    exact h.settled.dirty_mono hdirty
  · intro k c he
    have he' : phase.entry = some (k, c) := he
    rw [hentry] at he'
    cases he'
  · exact fun he => absurd he hidle
  · intro hw
    rw [show phase.isWalk = true from hw] at hwalk
    cases hwalk
  · intro hf
    rw [show phase.fenced = true from hf] at hfenced
    cases hfenced
  · exact fun hd => absurd hd hdone

theorem CaptureSys.changed_drain (ht : s.tracker = some t) (hok : t.overflow = false)
    (hk : k ∈ s.changed) : k ∈ s.unnoted ∨ k ∈ t.keys := by
  apply hk.imp id
  intro hcovers
  apply (hcovers t ht).resolve_left
  rw [hok]
  exact Bool.false_ne_true

theorem CaptureSys.Sound.drain (h : s.Sound) {round : Nat} (hphase : s.phase = .draining round)
    (ht : s.tracker = some t) (hok : t.overflow = false) (hkeys : keys.Perm t.keys) :
    ((s.setTracker (some .empty)).goto (.waiting keys)).Sound ∧
      ((s.setTracker (some .empty)).goto (.reading (.overlay round) keys none)).Sound := by
  have hdirty : ∀ k ∈ s.stale ∪ s.phase.todo,
      k ∈ (s.setTracker (some .empty)).changed ∪ {k | k ∈ keys} := by
    intro k hk
    have hchanged : k ∈ s.changed := by
      unfold CaptureSys.stale at hk
      rw [hphase] at hk
      exact hk.resolve_right fun hk => (by rcases hk with hk | hk <;> cases hk)
    rcases s.changed_drain ht hok hchanged with hk | hk
    · exact .inl (.inl hk)
    · exact .inr (hkeys.mem_iff.mpr hk)
  constructor
  · exact h.goto (some .empty) rfl rfl (by rintro ⟨⟩) (by rintro ⟨⟩) rfl
      fun k hk => (hdirty k hk).imp id .inl
  · refine h.goto (some .empty) rfl rfl (by rintro ⟨⟩) (by rintro ⟨⟩) ?_
      fun k hk => (hdirty k hk).imp id .inl
    cases keys <;> rfl

/-- The fence: every key that was written since its record is now to be read. -/
theorem CaptureSys.Sound.fence (h : s.Sound) {pending : List Key}
    (hphase : s.phase = .waiting pending) (hquiet : s.node.applying = false)
    (ht : s.tracker = some t) (hok : t.overflow = false) (hkeys : keys.Perm t.keys) :
    { (s.setTracker (some .empty)).goto (.reading .fence (pending ++ keys).dedup none) with
      fence := some (s.node.slots.cells, s.node.clock) }.Sound where
  cutoffs := h.cutoffs
  noted := h.noted
  settled := by
    apply h.settled.dirty_mono
    intro k hk
    have hmem : k ∈ pending ++ keys := by
      rw [mem_append]
      unfold CaptureSys.stale at hk
      rw [hphase] at hk
      rcases hk with hk | hk | hk
      · rcases s.changed_drain ht hok hk with hk | hk
        · rw [h.noted hquiet] at hk
          cases hk
        · exact .inr (hkeys.mem_iff.mpr hk)
      · exact .inl hk
      · cases hk
    exact .inr (.inl (mem_dedup.mpr hmem))
  looked := by
    intro k c he
    cases hlist : (pending ++ keys).dedup with
    | nil | cons => rw [CaptureSys.goto, hlist] at he; cases he
  idle := by
    intro he
    cases he
  walk := by
    intro hw
    cases hw
  fenced := fun _ => ⟨hquiet, s.node.slots.cells, rfl, fun k => .refl _ _⟩
  done := by
    intro hd
    cases hd

/-- The fence is left: nothing is to be read any more. -/
theorem CaptureSys.Sound.release (h : s.Sound) (hphase : s.phase = .reading .fence [] none) :
    (((s.setTracker none).goto .done).emit
      [.recClock s.node.clock.last s.node.clock.floor]).Sound where
  cutoffs := h.cutoffs
  noted := h.noted
  settled := settled_univ.dirty_mono fun k hk => .inr (.inr hk)
  looked := by
    intro k c he
    cases he
  idle := by
    intro he
    cases he
  walk := by
    intro hw
    cases hw
  fenced := by
    intro hf
    cases hf
  done := by
    intro _
    obtain ⟨-, σ, hσ, hsame⟩ := h.fenced (by rw [hphase]; rfl)
    refine ⟨σ, s.node.clock, hσ, ?_, List.getLast?_concat⟩
    intro k
    have hclean : k ∉ s.stale ∪ s.phase.todo := by
      unfold CaptureSys.stale
      rw [hphase]
      rintro (hk | hk | hk) <;> cases hk
    show (described (s.records ++ _)).read k _ = _
    rw [described_append_of_nil rfl]
    exact (h.settled k hclean).trans _ _ _ (hsame k) _ (le_refl _)

theorem CaptureSys.Sound.visit (h : s.Sound) {after : Option Key}
    (hphase : s.phase = .walking (.sorted after) page) (hk : k ∈ (WalkPos.sorted after).ahead)
    (hskip : ∀ x ∈ (WalkPos.sorted after).ahead, x < k →
      (s.node.slots.cells x).isSome = true → x ∈ s.written) :
    (s.goto (.walking (.sorted (some k)) (page ++ [k]))).Sound := by
  have hwalk : s.phase.isWalk = true := by
    rw [hphase]
    rfl
  obtain ⟨hnodup, hapart, -, -⟩ := h.walk hwalk
  rw [hphase] at hnodup hapart
  -- keys above the new position were ahead of the old one
  have hahead : ∀ x, k < x → x ∈ (WalkPos.sorted after).ahead := by
    intro x hx
    cases after with
    | none => exact Set.mem_univ x
    | some a => exact lt_trans (show a < k from hk) hx
  have hnew : k ∉ page := fun hmem => hapart k hmem hk
  apply h.walkOn hphase rfl rfl rfl
  · show (page ++ [k]).Nodup
    rw [nodup_append]
    refine ⟨hnodup, nodup_singleton k, ?_⟩
    intro x hx y hy
    rw [mem_singleton] at hy
    subst hy
    rintro rfl
    exact hnew hx
  · intro x hx hlt
    rcases mem_append.mp hx with hx | hx
    · exact hapart x hx (hahead x hlt)
    · rw [mem_singleton] at hx
      subst hx
      exact lt_irrefl x hlt
  · rintro x (hx | hx)
    · rcases mem_append.mp hx with hx | hx
      · exact .inl hx
      · rw [mem_singleton] at hx
        subst hx
        exact .inr hk
    · exact .inr (hahead x hx)
  · rintro x (hx | hx) hx' hchanged
    · exact absurd (.inl (mem_append_left _ hx)) hx'
    · -- the key lies strictly between the two positions
      have hne : x ≠ k := by
        rintro rfl
        exact hx' (.inl (mem_append_right _ (mem_singleton_self x)))
      have hlt : x < k := lt_of_le_of_ne (not_lt.mp fun hlt => hx' (.inr hlt)) hne
      exact h.skipped hwalk (hskip x hx hlt) hchanged

theorem CaptureSys.Sound.walkEnd (h : s.Sound) {after : Option Key}
    (hphase : s.phase = .walking (.sorted after) page)
    (hskip : ∀ x ∈ (WalkPos.sorted after).ahead,
      (s.node.slots.cells x).isSome = true → x ∈ s.written) :
    (s.goto (.reading (.base (.sorted after) true) page none)).Sound := by
  have hwalk : s.phase.isWalk = true := by
    rw [hphase]
    rfl
  have hnodup := (h.walk hwalk).nodup
  rw [hphase] at hnodup
  refine h.walkOn hphase rfl rfl (by cases page <;> rfl) hnodup (fun x _ hx => hx) ?_ ?_
  · rintro x (hx | hx)
    · exact .inl hx
    · cases hx
  · rintro x (hx | hx) hx' hchanged
    · exact absurd (.inl hx) hx'
    · exact h.skipped hwalk (hskip x hx) hchanged

theorem CaptureSys.Sound.shardKeys (h : s.Sound) {i : Nat}
    (hphase : s.phase = .walking (.shard i) []) (hcut : cutoffUs ∈ s.node.cutoffs)
    (hkeys : s.node.slots.ShardKeys i cutoffUs keys) :
    (s.goto (.reading (.base (.shard (i + 1)) false) keys none)).Sound := by
  have hshard : ∀ x ∈ keys, shardOf x = i := fun x hx => ((hkeys.2 x).mp hx).1
  refine h.walkOn hphase rfl rfl (by cases keys <;> rfl) hkeys.1 ?_ ?_ ?_
  · intro x hx hle
    have hlt : i + 1 ≤ shardOf x := hle
    rw [hshard x hx] at hlt
    omega
  · rintro x (hx | hx)
    · exact .inr (le_of_eq (hshard x hx).symm)
    · exact .inr (Nat.le_of_succ_le hx)
  · rintro x (hx | hx) hx' _
    · cases hx
    · -- the key is of this shard and was left out
      have heq : shardOf x = i := by
        have hle : i ≤ shardOf x := hx
        have hnot : ¬i + 1 ≤ shardOf x := fun hlt => hx' (.inr hlt)
        omega
      have hnone : s.node.slots.cells.read x cutoffUs = none := by
        rw [← Option.not_isSome_iff_eq_none]
        exact fun hsome => hx' (.inl ((hkeys.2 x).mpr ⟨heq, hsome⟩))
      have hsame := Cell.sameFrom_at (h.cutoffs _ hcut) (s.node.slots.cells x)
      rw [show (s.node.slots.cells x).bind (Cell.at cutoffUs) = none from hnone] at hsame
      exact hsame

theorem shardOf_lt (k : Key) : shardOf k < numShards := Nat.mod_lt _ (by decide)

namespace CaptureSys

/-- Every step keeps the invariant, if deadlines are judged no later than the
clock and live keys are looked up when their filter has them. -/
theorem Sound.step {s' : CaptureSys} (h : s.Sound) (hstep : Step .stamped s s') :
    s'.Sound := by
  cases hstep with
  | node n hn => exact h.node hn
  | put k c happ => exact h.install happ (s.node.slots.cells_put k c)
  | delete k nowUs happ => exact h.install happ (s.node.slots.cells_markTombstone k nowUs)
  | note k => exact h.note k
  | leave hnoted => exact h.leave hnoted
  | expire k cutoffUs tombUs hcut => exact h.expire tombUs hcut
  | trackWrites hphase => exact h.trackWrites hphase
  | start sorted hphase =>
    have hnext : (s.goto (.walking (if sorted then .sorted none else .shard 0) [])).Sound := by
      refine h.walkOn hphase rfl rfl rfl nodup_nil (fun k hk => (by cases hk)) ?_ ?_
      · exact fun k _ => .inr (Set.mem_univ k)
      · intro k _ hk
        refine absurd (.inr ?_) hk
        cases sorted with
        | true => exact Set.mem_univ k
        | false => exact Nat.zero_le _
    exact hnext.emit _ rfl (by rintro ⟨⟩) (by rintro ⟨⟩)
  | visit after page k hphase _ hk hskip => exact h.visit hphase hk hskip
  | pageFull after page hphase _ =>
    have hwalk : s.phase.isWalk = true := by
      rw [hphase]
      rfl
    obtain ⟨hnodup, hapart, -, -⟩ := h.walk hwalk
    rw [hphase] at hnodup hapart
    exact h.walkOn hphase rfl rfl (by cases page <;> rfl) hnodup hapart (fun k hk => hk)
      fun k hk hk' => absurd hk hk'
  | walkEnd after page hphase _ hskip => exact h.walkEnd hphase hskip
  | shardKeys i cutoffUs keys hphase _ hcut hkeys => exact h.shardKeys hphase hcut hkeys
  | shardsDone i hphase hi =>
    refine h.walkOn hphase rfl rfl rfl nodup_nil (fun k hk => (by cases hk)) ?_ ?_
    · rintro k (hk | hk) <;> cases hk
    · rintro k (hk | hk)
      · cases hk
      · exact absurd ((hi.trans hk).trans_lt (shardOf_lt k)) (lt_irrefl _)
  | lookup stage k keys hphase hP => exact h.lookup hphase hP
  | judge stage k keys c localUs hphase hP =>
    exact h.judge hphase (RaftClock.expiryCutoffUs_le hP localUs)
  | pageDone pos hphase =>
    exact h.walkOn hphase rfl rfl rfl nodup_nil (fun k hk => (by cases hk)) (fun k hk => hk)
      fun k hk hk' => absurd hk hk'
  | baseDone pos hphase =>
    have hnext : (s.goto (.draining 0)).Sound := by
      refine h.goto s.tracker rfl rfl (by rintro ⟨⟩) (by rintro ⟨⟩) rfl ?_
      unfold stale
      rw [hphase]
      rintro k (hk | hk | hk)
      · exact .inl hk
      · cases hk
      · cases hk
    exact hnext.emit s.floor0 rfl (by rintro ⟨⟩) (by rintro ⟨⟩)
  | drain round t keys hphase ht hok hkeys =>
    split
    · exact (h.drain hphase ht hok hkeys).1
    · exact (h.drain hphase ht hok hkeys).2
  | roundDone round hphase =>
    apply h.goto s.tracker rfl rfl (by rintro ⟨⟩) (by rintro ⟨⟩) rfl
    unfold stale
    rw [hphase]
    rintro k (hk | hk | hk)
    · exact .inl hk
    · cases hk
    · cases hk
  | fence pending keys t hphase hquiet _ ht hok hkeys => exact h.fence hphase hquiet ht hok hkeys
  | release hphase => exact h.release hphase
  | fail =>
    apply h.goto none rfl rfl (by rintro ⟨⟩) (by rintro ⟨⟩) rfl
    exact fun k _ => .inr (.inr (Set.mem_univ k))

theorem Run.sound (h : Run .stamped s) : s.Sound := by
  obtain ⟨slots, clock, -, hrun⟩ := h
  induction hrun with
  | refl => exact sound_create slots clock
  | tail _ hstep ih => exact ih.step hstep

end CaptureSys

end Invariant

/-! ## The capture -/

/-- A capture that returns has recorded, of every key that is not expired at the clock
of the fence, its cell there, and of no other key a cell that is live there; its
last record is that clock. -/
theorem CaptureSys.Run.exact {s : CaptureSys} (h : CaptureSys.Run .stamped s)
    (hdone : s.phase = .done) :
    ∃ σ c, s.fence = some (σ, c) ∧
      (∀ k, (described s.records).read k c.last = σ.read k c.last) ∧
      s.records.getLast? = some (.recClock c.last c.floor) :=
  h.sound.done hdone

/-- A node that holds one key, with a deadline, and whose clock is at 100. -/
def oneKey : CaptureSys :=
  .create (update (fun _ => none) [107] (some (50, some ([118], 500)))) ⟨100, 50⟩

theorem oneKey_live {x : Key} (h : (oneKey.node.slots.cells x).isSome = true) : x = [107] := by
  by_contra hne
  have hnone : oneKey.node.slots x = none := by
    show update (fun _ => none) [107] _ x = none
    rw [update_of_ne hne]
  unfold Slots.cells at h
  rw [hnone] at h
  cases h

theorem oneKey_dated : oneKey.node.slots.Dated := by
  intro k c hc
  have hk := oneKey_live (by rw [hc]; rfl : (oneKey.node.slots.cells k).isSome = true)
  subst hk
  cases hc
  decide

/-- The filter of the key is rebuilt before the walk looks the key up, and again
before the key is overwritten, which brings it back into the filter. -/
theorem exact_of_overwrite : ∃ s, CaptureSys.Run .stamped s ∧ s.phase = .done ∧
    ∃ σ c, s.fence = some (σ, c) ∧
      (∀ k, (described s.records).read k c.last = σ.read k c.last) ∧
      s.records.getLast? = some (.recClock c.last c.floor) := by
  have hpos : Stamped ⟨100, 50⟩ none := ⟨fun _ => by decide, fun t ht => (by cases ht)⟩
  have hpos' : Stamped ⟨200, 50⟩ none := ⟨fun _ => by decide, fun t ht => (by cases ht)⟩
  have h₁ := (Relation.ReflTransGen.refl (r := CaptureSys.Step .stamped) (a := oneKey)).tail
    (.trackWrites _ rfl)
  have h₂ := h₁.tail (.start _ true rfl)
  have h₃ := h₂.tail (.visit _ none [] [107] rfl (by decide) (Set.mem_univ _)
    fun x _ hlt hx => absurd (oneKey_live hx) (ne_of_lt hlt))
  have h₄ := h₃.tail (.walkEnd _ (some [107]) [[107]] rfl (by decide)
    fun x hlt hx => absurd (oneKey_live hx) (ne_of_gt hlt))
  have h₅ := h₄.tail (.node _ _ (.resetFilter _ (shardOf [107])))
  have h₆ := h₅.tail (.node _ _ (.addToFilter _ [107]))
  have h₇ := h₆.tail (.lookup _ _ [107] [] rfl fun hmiss => absurd hmiss (by decide))
  have h₈ := h₇.tail (.judge _ _ [107] [] _ 1000 rfl hpos)
  have h₉ := h₈.tail (.baseDone _ _ rfl)
  have h₁₀ := h₉.tail (.node _ _ (.resetFilter _ (shardOf [107])))
  have h₁₁ := h₁₀.tail (.node _ _ (.enter _ rfl rfl))
  have h₁₂ := h₁₁.tail (.node _ _ (.tick _ 200 1000 rfl))
  have h₁₃ := h₁₂.tail (.put _ [107] (200, [119], 0) rfl (by decide))
  have h₁₄ := h₁₃.tail (.note _ [107] (by decide))
  have h₁₅ := h₁₄.tail (.leave _ rfl)
  have h₁₆ := h₁₅.tail (.drain _ 0 ⟨[[107]], false⟩ [[107]] rfl rfl rfl (.refl _))
  have h₁₇ := h₁₆.tail (.fence _ [[107]] [] .empty rfl rfl rfl rfl rfl (.refl _))
  have h₁₈ := h₁₇.tail (.lookup _ _ [107] [] rfl fun hmiss => absurd hmiss (by decide))
  have h₁₉ := h₁₈.tail (.judge _ _ [107] [] _ 1000 rfl hpos')
  have h₂₀ := h₁₉.tail (.release _ rfl)
  have hrun := CaptureSys.Run.exact ⟨_, _, oneKey_dated, h₂₀⟩ rfl
  exact ⟨_, ⟨_, _, oneKey_dated, h₂₀⟩, rfl, hrun⟩

/-- A command without a time is being applied, so deadlines are judged at the local
clock, 1000, when the walk reads the key: it is left out, though the clock of the
fence is 101 and the deadline 500.  And a key that is looked up between the reset
of its filter and its return there is left out, though nothing else happens. -/
theorem capture_omits :
    (∃ s σ c, CaptureSys.Run .none s ∧ s.phase = .done ∧
      s.fence = some (σ, c) ∧ c.floor = 50 ∧ c.last = 101 ∧
      σ.read [107] c.last = some (50, [118], 500) ∧
      (described s.records).read [107] c.last = none) ∧
    ∃ s σ c, CaptureSys.Run .none s ∧ s.phase = .done ∧
      s.fence = some (σ, c) ∧ c.floor = 50 ∧ c.last = 100 ∧
      σ.read [107] c.last = some (50, [118], 500) ∧
      (described s.records).read [107] c.last = none := by
  have hrefl := Relation.ReflTransGen.refl (r := CaptureSys.Step .none) (a := oneKey)
  constructor
  · have h₁ := hrefl.tail (.node _ _ (.enter _ rfl rfl))
    have h₂ := h₁.tail (.node _ _ (.tick _ 0 1000 rfl))
    have h₃ := h₂.tail (.node _ _ (.setApplyTime _ ⟨101, 1000⟩ rfl (by decide)))
    have h₄ := h₃.tail (.trackWrites _ rfl)
    have h₅ := h₄.tail (.start _ true rfl)
    have h₆ := h₅.tail (.visit _ none [] [107] rfl (by decide) (Set.mem_univ _)
      fun x _ hlt hx => absurd (oneKey_live hx) (ne_of_lt hlt))
    have h₇ := h₆.tail (.walkEnd _ (some [107]) [[107]] rfl (by decide)
      fun x hlt hx => absurd (oneKey_live hx) (ne_of_gt hlt))
    have h₈ := h₇.tail (.lookup _ _ [107] [] rfl trivial)
    have h₉ := h₈.tail (.judge _ _ [107] [] _ 1000 rfl trivial)
    have h₁₀ := h₉.tail (.leave _ rfl)
    have h₁₁ := h₁₀.tail (.baseDone _ _ rfl)
    have h₁₂ := h₁₁.tail (.drain _ 0 .empty [] rfl rfl rfl (.refl _))
    have h₁₃ := h₁₂.tail (.fence _ [] [] .empty rfl rfl rfl rfl rfl (.refl _))
    have h₁₄ := h₁₃.tail (.release _ rfl)
    exact ⟨_, _, _, ⟨_, _, oneKey_dated, h₁₄⟩, rfl, rfl, rfl, rfl, rfl, rfl⟩
  · have h₁ := hrefl.tail (.trackWrites _ rfl)
    have h₂ := h₁.tail (.start _ true rfl)
    have h₃ := h₂.tail (.visit _ none [] [107] rfl (by decide) (Set.mem_univ _)
      fun x _ hlt hx => absurd (oneKey_live hx) (ne_of_lt hlt))
    have h₄ := h₃.tail (.walkEnd _ (some [107]) [[107]] rfl (by decide)
      fun x hlt hx => absurd (oneKey_live hx) (ne_of_gt hlt))
    have h₅ := h₄.tail (.node _ _ (.resetFilter _ (shardOf [107])))
    have h₆ := h₅.tail (.lookup _ _ [107] [] rfl trivial)
    have h₇ := h₆.tail (.node _ _ (.addToFilter _ [107]))
    have h₈ := h₇.tail (.judge _ _ [107] [] _ 100 rfl trivial)
    have h₉ := h₈.tail (.baseDone _ _ rfl)
    have h₁₀ := h₉.tail (.drain _ 0 .empty [] rfl rfl rfl (.refl _))
    have h₁₁ := h₁₀.tail (.fence _ [] [] .empty rfl rfl rfl rfl rfl (.refl _))
    have h₁₂ := h₁₁.tail (.release _ rfl)
    exact ⟨_, _, _, ⟨_, _, oneKey_dated, h₁₂⟩, rfl, rfl, rfl, rfl, rfl, rfl⟩

end VeltrixDB.Storage
