import Mathlib.Logic.Relation
import VeltrixDB.Storage.RaftCommand

/-!
# The applied-index cut

A raft-mode engine through any number of lives.  A life applies entries of the
raft log, writes a marker after the records of each run once they are synced,
and checkpoints the logs of its disks between runs; a crash keeps of each log
what was synced and any part of the rest, and opening cuts the replay at the
newest marker (`storage/raft_applied.go`, `NewStorageEngine`,
`checkpointVersion` and `checkpointLive`).

Main results:

- Theorem `RaftSys.Sound.step`: every step keeps the engine and every marker
  that a crash may cut at in agreement with the entries they stand for.
- Theorem `RaftSys.Run.open_eq`: opening after a crash resumes at the newest
  marker with the state after its entries, and so does everything later.
-/

namespace VeltrixDB.Storage

open Function List Engine WALEntry AppliedMarker

/-! ## The raft clock -/

/-- The raft clock: the time of the last stamped command, and of the first. -/
structure RaftClock where
  last : Int
  floor : Int
deriving DecidableEq, Repr

/-- The stamp of commands without a time before the clock started. -/
def legacyStampUs : Int := 1

/-- `NextRaftApplyTime`: the clock and the time of the next command. -/
def RaftClock.next (c : RaftClock) (leaderTsUs localUs : Int) : RaftClock × WriteClock :=
  if leaderTsUs ≤ 0 then
    if c.last = 0 then (c, { stampUs := legacyStampUs, nowUs := localUs })
    else ({ c with last := c.last + 1 }, { stampUs := c.last + 1, nowUs := localUs })
  else
    let next := if leaderTsUs ≤ c.last then c.last + 1 else leaderTsUs
    ({ last := next, floor := if c.floor = 0 then next else c.floor },
      { stampUs := next, nowUs := next })

/-- `replayNowUs`: the time at which replay judges expiry. -/
def replayNowUs (capUs localUs : Int) : Int :=
  if 0 < capUs ∧ capUs < localUs then capUs else localUs

/-! ## The raft log in order -/

/-- An entry of the raft log: its term, the leader's time and the command. -/
structure RaftEntry where
  term : Nat
  ts : Int
  cmd : RaftCmd

def RaftEntry.Ok (kvSep : Bool) (e : RaftEntry) : Prop := 0 < e.ts ∧ e.cmd.Ok kvSep

/-- The `n` entries after entry `i`. -/
def entriesFrom (log : Nat → RaftEntry) (i n : Nat) : List RaftEntry :=
  (List.range n).map fun j => log (i + j + 1)

def runEntries (kvSep : Bool) (s : Keyspace × RaftClock) (es : List RaftEntry) :
    Keyspace × RaftClock :=
  es.foldl (fun s e => (e.cmd.run kvSep (s.2.next e.ts 0).2 s.1, (s.2.next e.ts 0).1)) s

/-- The keyspace and the clock after the first `n` entries. -/
def keyspaceAt (kvSep : Bool) (log : Nat → RaftEntry) (n : Nat) : Keyspace × RaftClock :=
  runEntries kvSep (fun _ => none, ⟨0, 0⟩) (entriesFrom log 0 n)

/-- A fresh engine and its clock after the first `n` entries, applied one by
one. -/
def Engine.inOrder (codec : ValueCodec) (pool : Nat → WALEntry) (kvSep : Bool) (numDisks : Nat)
    (log : Nat → RaftEntry) : Nat → Engine × RaftClock
  | 0 => (create kvSep numDisks, ⟨0, 0⟩)
  | n + 1 =>
    let s := inOrder codec pool kvSep numDisks log n
    let a := s.2.next (log (n + 1)).ts 0
    (applyCmd codec pool a.2 (log (n + 1)).cmd s.1, a.1)

/-! ## The system -/

structure RaftSys where
  se : Engine
  logs : Nat → List WALEntry
  synced : Nat → Nat
  torn : Nat → Option Nat
  tracker : Option AppliedMarker
  clock : RaftClock
  index : Nat
  quiet : Bool

def RaftSys.create (kvSep : Bool) (numDisks : Nat) : RaftSys where
  se := .create kvSep numDisks
  logs := fun _ => []
  synced := fun _ => 0
  torn := fun _ => none
  tracker := none
  clock := ⟨0, 0⟩
  index := 0
  quiet := true

def Engine.drained (se : Engine) : Engine := { se with wals := fun _ => [] }

variable (s : RaftSys)

/-- Commands took the engine to `se` and the node to entry `index`. -/
def RaftSys.applied (se : Engine) (clock : RaftClock) (index : Nat) : RaftSys :=
  { s with
    se := se.drained
    logs := fun d => s.logs d ++ se.wals d
    clock := clock
    index := index
    quiet := false }

/-- The requests of consecutive put commands, which `ApplyBatch` hands to
one batch. -/
def coalesce (localUs : Int) : RaftClock → List RaftEntry → Option (RaftClock × List MultiPutRequest)
  | c, [] => some (c, [])
  | c, e :: es =>
    match e.cmd with
    | .put key value ttl .done =>
      let a := c.next e.ts localUs
      (coalesce localUs a.1 es).map fun p =>
        (p.1, { clk := a.2, key := key, value := value, ttl := ttl } :: p.2)
    | _ => none

namespace RaftSys

def dead (s : RaftSys) : List VersionRange :=
  match s.tracker with
  | some t => t.dead
  | none => []

def nextMarker (log : Nat → RaftEntry) (s : RaftSys) : AppliedMarker where
  index := s.index
  term := (log s.index).term
  flags := (match s.tracker with | some t => t.flags | none => 0) &&& 0xFE
  ver := s.se.version + 1
  dead := s.dead
  clock := s.clock.last
  floor := s.clock.floor

/-- `writeAppliedMarker`. -/
def writeMarker (log : Nat → RaftEntry) (nowNs : Int) (s : RaftSys) : RaftSys :=
  let d := s.se.disk appliedMarkerKey
  { s with
    se := s.se.nextVersion
    logs := update s.logs d (s.logs d ++ [(s.nextMarker log).record nowNs])
    tracker := some (s.nextMarker log)
    quiet := true }

def image (keepTombstone : Int → Int → Bool) (s : RaftSys) (d version : Nat)
    (nowNs markerNs : Int) : List WALEntry :=
  s.se.index.checkpointShards s.se.kvSep keepTombstone version nowNs
      (diskShards d s.se.numDisks) ++
    match s.tracker with
    | some t => [t.record markerNs]
    | none => []

/-- The checkpoint of one disk at a version: the image replaces what is in the
file. -/
def checkpointAt (keepTombstone : Int → Int → Bool) (s : RaftSys) (d version : Nat)
    (nowNs markerNs : Int) : RaftSys :=
  let image := s.image keepTombstone d version nowNs markerNs
  { s with
    logs := update s.logs d (image ++ (s.logs d).drop (s.synced d))
    synced := update s.synced d image.length
    torn := update s.torn d none }

/-- The checkpoint of one disk, at the version of the newest marker or at a new
one. -/
def checkpoint (keepTombstone : Int → Int → Bool) (s : RaftSys) (d : Nat)
    (nowNs markerNs : Int) : RaftSys :=
  match s.tracker with
  | some t => s.checkpointAt keepTombstone d t.ver nowNs markerNs
  | none =>
    { s with se := s.se.nextVersion }.checkpointAt keepTombstone d (s.se.version + 1) nowNs
      markerNs

/-- What a crash leaves of the logs: `keep d` records of the log of
`d`, and a part of the next one where `tear d`. -/
def crash (keep : Nat → Nat) (tear : Nat → Bool) (s : RaftSys) : RaftSys :=
  { s with
    logs := fun d => (s.logs d).take (keep d)
    torn := fun d => (s.torn d).or (if tear d then some (keep d) else none) }

/-- The records that `replayWAL` reads: it stops at a torn one. -/
def parsed (d : Nat) : List WALEntry :=
  match s.torn d with
  | some n => (s.logs d).take n
  | none => s.logs d

def allParsed : List WALEntry :=
  (List.range s.se.numDisks).flatMap s.parsed

def newest : Option AppliedMarker :=
  newestMarker ((List.range s.se.numDisks).flatMap fun d => (s.parsed d).map WALEntry.replayed)

def maxVersion : Nat :=
  s.allParsed.foldl (fun v r => max v r.version) 0

/-- Open the engine: parse the logs, cut at the newest marker, replay, and
resume at its entry.  Without a marker raft starts over. -/
def reopen (codec : ValueCodec) (localUs : Int) (s : RaftSys) : Option RaftSys :=
  let cut := cutWALAtAppliedMarker s.se.numDisks (fun d => (s.parsed d).map WALEntry.replayed)
    s.maxVersion
  cut.marker.map fun m =>
    { se := Engine.replayDisks codec (replayNowUs m.clock localUs) cut.entries
        { s.se with index := .empty, wals := fun _ => [], version := s.maxVersion }
      logs := s.logs
      synced := fun d => (s.logs d).length
      torn := s.torn
      tracker := some m
      clock := ⟨m.clock, m.floor⟩
      index := m.index
      quiet := true }

end RaftSys

/-- What is asked of a run: of a log that is appended to, of a marker and of a
checkpoint. -/
structure RaftDiscipline where
  append : RaftSys → Nat → Prop
  marker : AppliedMarker → Prop
  checkpoint : RaftSys → Nat → Int → Prop

def RaftDiscipline.none : RaftDiscipline :=
  ⟨fun _ _ => True, fun _ => True, fun _ _ _ => True⟩

/-- Records are appended to logs without a torn record, the numbers of markers
fit, and what a checkpoint drops as expired is expired at the raft clock. -/
def RaftDiscipline.sound : RaftDiscipline where
  append := fun s d => s.torn d = Option.none
  marker := AppliedMarker.Fits
  checkpoint := fun s d nowNs => ∀ k e, s.se.disk k = d → s.se.index.entries k = some e →
    e.isExpired (nowNs.tdiv 1000) = true → e.isExpired s.clock.last = true

inductive RaftSys.Step (codec : ValueCodec) (P : RaftDiscipline)
    (keepTombstone : Int → Int → Bool) (log : Nat → RaftEntry) : RaftSys → RaftSys → Prop
  | apply (s : RaftSys) (pool : Nat → WALEntry) (localUs : Int) (se' : Engine)
      (hse : se' = Engine.applyCmd codec pool (s.clock.next (log (s.index + 1)).ts localUs).2
        (log (s.index + 1)).cmd s.se)
      (hP : ∀ d, se'.wals d ≠ [] → P.append s d) :
      Step codec P keepTombstone log s
        (s.applied se' (s.clock.next (log (s.index + 1)).ts localUs).1 (s.index + 1))
  | applyPuts (s : RaftSys) (n : Nat) (localUs : Int) (c : RaftClock)
      (reqs : List MultiPutRequest)
      (hreqs : coalesce localUs s.clock (entriesFrom log s.index n) = some (c, reqs))
      (hP : ∀ d, (s.se.multiPut codec reqs).wals d ≠ [] → P.append s d) :
      Step codec P keepTombstone log s (s.applied (s.se.multiPut codec reqs) c (s.index + n))
  | sync (s : RaftSys) (d n : Nat) (hle : s.synced d ≤ n) (hn : n ≤ (s.logs d).length) :
      Step codec P keepTombstone log s { s with synced := update s.synced d n }
  | marker (s : RaftSys) (nowNs : Int)
      (hrun : ∀ d, ∀ r ∈ (s.logs d).drop (s.synced d), r.key = appliedMarkerKey)
      (hP : P.append s (s.se.disk appliedMarkerKey)) (hm : P.marker (s.nextMarker log)) :
      Step codec P keepTombstone log s (s.writeMarker log nowNs)
  | checkpoint (s : RaftSys) (d : Nat) (nowNs markerNs : Int) (hquiet : s.quiet = true)
      (hd : d < s.se.numDisks) (hP : P.checkpoint s d nowNs) :
      Step codec P keepTombstone log s (s.checkpoint keepTombstone d nowNs markerNs)
  | crash (s s' : RaftSys) (keep : Nat → Nat) (tear : Nat → Bool) (localUs : Int)
      (hkeep : ∀ d, s.synced d ≤ keep d ∧ keep d ≤ (s.logs d).length)
      (htear : ∀ d, tear d = true → keep d < (s.logs d).length)
      (hopen : (s.crash keep tear).reopen codec localUs = some s')
      (hm : ∀ m, s'.tracker = some m → P.marker m) :
      Step codec P keepTombstone log s s'

def RaftSys.Run (codec : ValueCodec) (P : RaftDiscipline) (keepTombstone : Int → Int → Bool)
    (log : Nat → RaftEntry) (kvSep : Bool) (numDisks : Nat) (s : RaftSys) : Prop :=
  Relation.ReflTransGen (RaftSys.Step codec P keepTombstone log) (.create kvSep numDisks) s

/-! ## The log in order -/

variable {last : Key → Option WALEntry} {se : Engine}

section InOrder

variable {codec : ValueCodec} {kvSep : Bool} {log : Nat → RaftEntry}

/-- A command with a time runs at a later time than all before it, and the local
clock has no part in it. -/
theorem RaftClock.next_spec (c : RaftClock) {ts : Int} (hts : 0 < ts) (localUs : Int) :
    c.next ts localUs = c.next ts 0 ∧ (c.next ts 0).2.stampUs = (c.next ts 0).1.last ∧
      (c.next ts 0).2.nowUs = (c.next ts 0).1.last ∧ c.last < (c.next ts 0).1.last ∧
      0 < (c.next ts 0).1.last := by
  have hpos : ¬ts ≤ 0 := by omega
  simp only [RaftClock.next, hpos, if_false, true_and]
  split <;> omega

theorem runEntries_append (s : Keyspace × RaftClock) (es es' : List RaftEntry) :
    runEntries kvSep s (es ++ es') = runEntries kvSep (runEntries kvSep s es) es' :=
  foldl_append

theorem keyspaceAt_add (i n : Nat) :
    keyspaceAt kvSep log (i + n) = runEntries kvSep (keyspaceAt kvSep log i) (entriesFrom log i n) := by
  have hsplit : entriesFrom log 0 (i + n) = entriesFrom log 0 i ++ entriesFrom log i n := by
    simp only [entriesFrom, range_add, map_append, map_map, Nat.zero_add]
    rfl
  rw [keyspaceAt, hsplit, runEntries_append]
  rfl

theorem keyspaceAt_succ (n : Nat) :
    keyspaceAt kvSep log (n + 1) =
      ((log (n + 1)).cmd.run kvSep ((keyspaceAt kvSep log n).2.next (log (n + 1)).ts 0).2
          (keyspaceAt kvSep log n).1,
        ((keyspaceAt kvSep log n).2.next (log (n + 1)).ts 0).1) := by
  rw [keyspaceAt_add]
  rfl

theorem keyspaceAt_eq_empty (hlog : ∀ n, (log n).Ok kvSep) {n : Nat}
    (h : (keyspaceAt kvSep log n).2.last ≤ 0) : (keyspaceAt kvSep log n).1 = fun _ => none := by
  cases n with
  | zero => rfl
  | succ n =>
    obtain ⟨-, -, -, -, hpos⟩ := (keyspaceAt kvSep log n).2.next_spec (hlog (n + 1)).1 0
    rw [keyspaceAt_succ] at h
    exact absurd hpos (Int.not_lt.mpr h)

theorem coalesce_spec {localUs : Int} (es : List RaftEntry) :
    ∀ {c c' : RaftClock} {reqs : List MultiPutRequest}, (∀ e ∈ es, e.Ok kvSep) →
      coalesce localUs c es = some (c', reqs) →
      (∀ q ∈ reqs, q.Ok kvSep) ∧ c.last ≤ c'.last ∧
        ∀ σ, runEntries kvSep (σ, c) es = (σ.write (batchCells reqs), c') := by
  induction es with
  | nil =>
    intro c c' reqs _ h
    cases h
    exact ⟨fun q hq => (by cases hq), Int.le_refl _, fun σ => rfl⟩
  | cons e es ih =>
    intro c c' reqs hes h
    rw [coalesce] at h
    split at h
    next key value ttl hcmd =>
      obtain ⟨⟨c₁, reqs₁⟩, hrest, hpair⟩ := Option.map_eq_some_iff.mp h
      cases hpair
      obtain ⟨hts, hok⟩ := hes e (mem_cons_self ..)
      obtain ⟨hlocal, hstamp, -, hlt, hpos⟩ := c.next_spec hts localUs
      rw [hcmd] at hok
      obtain ⟨hreqs, hle, hrun⟩ := ih (fun e' he' => hes e' (mem_cons_of_mem _ he')) hrest
      rw [hlocal] at hrest hle hrun ⊢
      refine ⟨?_, (Int.le_of_lt hlt).trans hle, ?_⟩
      · exact forall_mem_cons.mpr ⟨⟨hok.1, by show _ ≠ _; rw [hstamp]; omega⟩, hreqs⟩
      · intro σ
        have hcons : runEntries kvSep (σ, c) (e :: es) = runEntries kvSep
            (e.cmd.run kvSep (c.next e.ts 0).2 σ, (c.next e.ts 0).1) es := rfl
        rw [hcons, hcmd, hrun]
        rfl
    · cases h

namespace Engine

structure StandsAt (codec : ValueCodec) (kvSep : Bool) (log : Nat → RaftEntry) (n : Nat)
    (se : Engine) (c : RaftClock) : Prop where
  clock : c = (keyspaceAt kvSep log n).2
  keyspace : (se.keyspace codec).AgreeFrom c.last (keyspaceAt kvSep log n).1

theorem StandsAt.applyCmd {c : RaftClock} {n : Nat} (hlog : ∀ n, (log n).Ok kvSep)
    (h : se.StandsAt codec kvSep log n c) (hse : se.Holds codec last) (hkv : se.kvSep = kvSep)
    (hpos : 0 < se.numDisks) (pool : Nat → WALEntry) (localUs : Int) :
    (∃ rs es, se.Wrote codec se.version last
        (applyCmd codec pool (c.next (log (n + 1)).ts localUs).2 (log (n + 1)).cmd se)
        rs es) ∧
      (applyCmd codec pool (c.next (log (n + 1)).ts localUs).2 (log (n + 1)).cmd
        se).StandsAt codec kvSep log (n + 1) (c.next (log (n + 1)).ts localUs).1 := by
  obtain ⟨hts, hok⟩ := hlog (n + 1)
  obtain ⟨hlocal, hstamp, hnow, hlt, hlast⟩ := c.next_spec hts localUs
  rw [hlocal]
  have hagree : (se.keyspace codec).AgreeFrom (c.next (log (n + 1)).ts 0).2.nowUs
      (keyspaceAt kvSep log n).1 := h.keyspace.mono (by omega)
  obtain ⟨hwrote, hrun⟩ := Holds.applyCmd pool (by rw [hstamp]; omega)
    (log (n + 1)).cmd se last _ hse hkv hpos hok hagree
  refine ⟨hwrote, ?_, ?_⟩
  · rw [keyspaceAt_succ, ← h.clock]
  · rw [keyspaceAt_succ, ← h.clock, ← hnow]
    exact hrun

/-- A batch of puts leads where the puts lead one by one. -/
theorem StandsAt.multiPut {c c' : RaftClock} {i n : Nat} {localUs : Int}
    {reqs : List MultiPutRequest} (hlog : ∀ n, (log n).Ok kvSep)
    (h : se.StandsAt codec kvSep log i c) (hse : se.Holds codec last) (hkv : se.kvSep = kvSep)
    (hpos : 0 < se.numDisks) (hreqs : coalesce localUs c (entriesFrom log i n) = some (c', reqs)) :
    (∃ rs es, se.Wrote codec se.version last (se.multiPut codec reqs) rs es) ∧ c.last ≤ c'.last ∧
      (se.multiPut codec reqs).StandsAt codec kvSep log (i + n) c' := by
  have hok : ∀ e ∈ entriesFrom log i n, e.Ok kvSep := by
    intro e he
    obtain ⟨j, -, rfl⟩ := mem_map.mp he
    exact hlog _
  obtain ⟨hreqsOk, hle, hrun⟩ := coalesce_spec _ hok hreqs
  rw [← hkv] at hreqsOk
  obtain ⟨rs, es, hw, hes⟩ := hse.wrote_multiPut hpos hreqsOk
  have hkeys : keyspaceAt kvSep log (i + n) =
      ((keyspaceAt kvSep log i).1.write (batchCells reqs), c') := by
    rw [keyspaceAt_add, ← hrun, h.clock]
  refine ⟨⟨rs, es, hw⟩, hle, ?_, ?_⟩
  · rw [hkeys]
  · rw [hkeys]
    have hagree := hw.agree hse (h.keyspace.mono hle)
    rw [Keyspace.write_congr _ hes] at hagree
    exact hagree

/-- A fresh engine that applies the entries in order holds the keyspace they
lead to. -/
theorem standsAt_inOrder (codec : ValueCodec) (pool : Nat → WALEntry) {numDisks : Nat}
    (hpos : 0 < numDisks) (hlog : ∀ n, (log n).Ok kvSep) (n : Nat) :
    (inOrder codec pool kvSep numDisks log n).1.StandsAt codec kvSep log n
      (inOrder codec pool kvSep numDisks log n).2 := by
  suffices h : ∃ last, (inOrder codec pool kvSep numDisks log n).1.Holds codec last ∧
      (inOrder codec pool kvSep numDisks log n).1.kvSep = kvSep ∧
      (inOrder codec pool kvSep numDisks log n).1.numDisks = numDisks ∧
      (inOrder codec pool kvSep numDisks log n).1.StandsAt codec kvSep log n
        (inOrder codec pool kvSep numDisks log n).2 by
    obtain ⟨-, -, -, -, h⟩ := h
    exact h
  induction n with
  | zero =>
    exact ⟨_, holds_create codec kvSep numDisks, rfl, rfl, rfl, fun _ _ _ => rfl⟩
  | succ n ih =>
    obtain ⟨last, hse, hkv, hnum, hat⟩ := ih
    obtain ⟨⟨rs, es, hw⟩, hat'⟩ := hat.applyCmd hlog hse hkv (by rw [hnum]; exact hpos) pool 0
    exact ⟨_, hw.holds, hw.grows.kvSep.trans hkv, hw.grows.numDisks.trans hnum, hat'⟩

end Engine

end InOrder

/-! ## What the logs stand for -/

def Engine.recordKeyspace (codec : ValueCodec) (se : Engine) (rs : Nat → List WALEntry) : Keyspace :=
  fun k => (recordsIn (rs (se.disk k)) k).getLast?.bind (se.cell codec)

namespace RaftSys

/-- The records of a log that are not markers and whose version is
`alive`. -/
def kept (alive : Nat → Bool) (d : Nat) : List WALEntry :=
  (s.logs d).filter fun r => decide (r.key ≠ appliedMarkerKey) && alive r.version

def alive (v : Nat) : Bool := !isDead s.dead v

def Logged (m : AppliedMarker) : Prop :=
  ∃ d, ∃ r ∈ s.logs d, isAppliedMarker r.replayed = some m

def Durable (m : AppliedMarker) : Prop :=
  ∃ d, ∃ r ∈ (s.logs d).take (s.synced d), isAppliedMarker r.replayed = some m

def Marks (m : AppliedMarker) : Prop := s.Logged m ∨ s.tracker = some m

structure SameMark (s : RaftSys) (m m' : AppliedMarker) : Prop where
  index : m.index = m'.index
  clock : m.clock = m'.clock
  floor : m.floor = m'.floor
  dead : ∀ d, ∀ r ∈ s.logs d, r.key ≠ appliedMarkerKey → r.version ≤ m.ver →
    isDead m.dead r.version = isDead m'.dead r.version

/-- A cut at the marker keeps the state after the marker's entries, and what it
keeps is synced. -/
structure CutAt (codec : ValueCodec) (kvSep : Bool) (log : Nat → RaftEntry) (s : RaftSys)
    (m : AppliedMarker) : Prop where
  clock : ⟨m.clock, m.floor⟩ = (keyspaceAt kvSep log m.index).2
  agree : (s.se.recordKeyspace codec (s.kept m.covers)).AgreeFrom m.clock
    (keyspaceAt kvSep log m.index).1
  synced : ∀ d, ∀ r ∈ (s.logs d).drop (s.synced d), r.key ≠ appliedMarkerKey →
    m.covers r.version = false

/-- Nothing but markers waits for a sync, and the newest marker names all that
is applied. -/
structure Settled (s : RaftSys) : Prop where
  synced : ∀ d, ∀ r ∈ (s.logs d).drop (s.synced d), r.key = appliedMarkerKey
  named : ∀ t, s.tracker = some t → t.index = s.index ∧ (⟨t.clock, t.floor⟩ : RaftClock) = s.clock ∧
    ∀ d, ∀ r ∈ s.logs d, r.key ≠ appliedMarkerKey → s.alive r.version = true → r.version ≤ t.ver
  fresh : s.tracker = none → (∀ d, s.logs d = []) ∧ s.se.index.keys = []

/-- The engine and each marker that a crash may cut at agree with the entries
they stand for. -/
structure Sound (codec : ValueCodec) (kvSep : Bool) (log : Nat → RaftEntry)
    (s : RaftSys) : Prop where
  kvSep_eq : s.se.kvSep = kvSep
  numDisks_pos : 0 < s.se.numDisks
  engine : ∃ last, s.se.Holds codec last ∧ last appliedMarkerKey = none ∧
    ∀ k r, last k = some r → s.se.Direct r ∧ r.replayed.stampUs ≠ 0
  wals : ∀ d, s.se.wals d = []
  standsAt : s.se.StandsAt codec kvSep log s.index s.clock
  routed : ∀ d, s.se.numDisks ≤ d → s.logs d = []
  synced_le : ∀ d, s.synced d ≤ (s.logs d).length
  torn_eq : ∀ d n, s.torn d = some n → n = (s.logs d).length ∧ s.synced d = n
  version_le : ∀ d, ∀ r ∈ s.logs d, r.version ≤ s.se.version
  data : ∀ d, ∀ r ∈ s.logs d, r.key ≠ appliedMarkerKey →
    s.se.Replayable codec r ∧ s.se.disk r.key = d ∧ r.replayed.stampUs ≠ 0
  tracked : ∀ t, s.tracker = some t → t.ver ≤ s.se.version ∧ ∀ r ∈ t.dead, r.hi ≤ s.se.version
  mark : ∀ m, s.Marks m → m.Fits ∧ isDead m.dead m.ver = false ∧
    ∃ t, s.tracker = some t ∧ m.ver ≤ t.ver
  same : ∀ m m', s.Marks m → s.Marks m' → m.ver = m'.ver → s.SameMark m m'
  current : (s.se.recordKeyspace codec (s.kept s.alive)).AgreeFrom s.clock.last
    (keyspaceAt kvSep log s.index).1
  cut : ∀ m, s.Logged m → (∀ m', s.Durable m' → m'.ver ≤ m.ver) → s.CutAt codec kvSep log m
  settled : s.quiet = true → s.Settled

end RaftSys

open RaftSys

section Invariant

variable {codec : ValueCodec} {kvSep : Bool} {log : Nat → RaftEntry} {s : RaftSys} {r : WALEntry}
  {d : Nat} {m : AppliedMarker}

theorem RaftSys.mem_kept {alive : Nat → Bool} :
    r ∈ s.kept alive d ↔ r ∈ s.logs d ∧ r.key ≠ appliedMarkerKey ∧ alive r.version = true := by
  simp [kept]

theorem RaftSys.kept_congr {alive alive' : Nat → Bool}
    (h : ∀ r ∈ s.logs d, r.key ≠ appliedMarkerKey → alive r.version = alive' r.version) :
    s.kept alive d = s.kept alive' d := by
  apply filter_congr
  intro r hr
  by_cases hk : r.key = appliedMarkerKey
  · simp [hk]
  · rw [h r hr hk]

/-- Records read the same in a later engine. -/
theorem Engine.recordKeyspace_grow {se' : Engine} {rs : Nat → List WALEntry} (hg : se.Grows se')
    (hrs : ∀ d, ∀ r ∈ rs d, se.Stored r) :
    se'.recordKeyspace codec rs = se.recordKeyspace codec rs := by
  funext k
  rw [recordKeyspace, recordKeyspace, hg.disk]
  cases hl : (recordsIn (rs (se.disk k)) k).getLast? with
  | none => rfl
  | some r =>
    have hmem := (mem_recordsIn.mp (mem_of_getLast? hl)).1
    exact (hrs _ r hmem).cell_grow hg

theorem Engine.grows_drained (se : Engine) : se.Grows se.drained :=
  ⟨rfl, rfl, fun _ => VLog.Extends.refl _⟩

theorem Engine.Holds.drained (h : se.Holds codec last) : se.drained.Holds codec last :=
  { h with
    routed := fun d r hr => (by cases hr)
    stored := fun d r hr => (by cases hr)
    located := fun hkv _ _ => h.located_grow se.grows_drained hkv
    last_stored := h.last_stored_grow se.grows_drained }

theorem AppliedMarker.covers_of_lt {v : Nat} (h : m.ver < v) : m.covers v = false := by
  simp [covers, Nat.not_le_of_lt h]

theorem le_foldl_max (l : List WALEntry) (v : Nat) :
    v ≤ l.foldl (fun v r => max v r.version) v ∧
      ∀ r ∈ l, r.version ≤ l.foldl (fun v r => max v r.version) v := by
  induction l generalizing v with
  | nil => exact ⟨Nat.le_refl _, fun r hr => (by cases hr)⟩
  | cons x l ih =>
    obtain ⟨hle, hmem⟩ := ih (max v x.version)
    exact ⟨(Nat.le_max_left ..).trans hle,
      forall_mem_cons.mpr ⟨(Nat.le_max_right ..).trans hle, hmem⟩⟩

theorem WALEntry.settled_direct (hr : se.Direct r) (hstamp : r.replayed.stampUs ≠ 0) (nowUs : Int) :
    se.Direct (r.settled nowUs) ∧ (r.settled nowUs).replayed.stampUs ≠ 0 := by
  rw [settled]
  split
  · exact ⟨⟨⟨fun ht => (by cases ht), fun ht => (by cases ht)⟩, fun ht => (by cases ht)⟩, hstamp⟩
  · exact ⟨hr, hstamp⟩

/-- What a record leaves at the time of the replay or later does not depend on
how it was settled. -/
theorem Engine.cell_settled (codec : ValueCodec) (se : Engine) (r : WALEntry) {nowUs t : Int}
    (ht : nowUs ≤ t) :
    (se.cell codec (r.settled nowUs)).bind (Cell.at t) = (se.cell codec r).bind (Cell.at t) := by
  have hat : ∀ r' : WALEntry, (se.cell codec r').bind (Cell.at t) =
      ((se.outcome codec r').bind (unexpired t)).map fun p => (r'.replayed.stampUs, p) := by
    intro r'
    rw [cell]
    cases se.outcome codec r' <;> rfl
  have hstamp : (r.settled nowUs).replayed.stampUs = r.replayed.stampUs := by
    rw [settled]
    split <;> rfl
  rw [hat, hat, se.outcome_settled codec r ht, hstamp]

theorem Engine.cell_settled_eq_none (h : se.cell codec r = none) (nowUs : Int) :
    se.cell codec (r.settled nowUs) = none := by
  rw [settled]
  split
  · rfl
  · exact h

/-- Replay judges expiry no later than the clock of the marker, if the clock had
started. -/
theorem replayNowUs_le {capUs : Int} (hcap : 0 < capUs) (localUs : Int) :
    replayNowUs capUs localUs ≤ capUs := by
  rw [replayNowUs]
  split <;> omega

namespace RaftSys

section

variable (h : s.Sound codec kvSep log)
include h

theorem Sound.kept_stored (alive : Nat → Bool) (d : Nat) :
    ∀ r ∈ s.kept alive d, s.se.Stored r := by
  intro r hr
  obtain ⟨hr, hk, -⟩ := mem_kept.mp hr
  exact (h.data d r hr hk).1.stored

theorem Sound.ver_le (hm : s.Marks m) : m.ver ≤ s.se.version := by
  obtain ⟨-, -, t, ht, hle⟩ := h.mark m hm
  exact hle.trans (h.tracked t ht).1

theorem Sound.dead_le : ∀ r ∈ s.dead, r.hi ≤ s.se.version := by
  intro r hr
  rw [dead] at hr
  split at hr
  next t ht => exact (h.tracked t ht).2 r hr
  · cases hr

theorem Sound.alive_of_lt {v : Nat} (hv : s.se.version < v) : s.alive v = true := by
  rw [alive, Bool.not_eq_true', ← Bool.not_eq_true, isDead_iff]
  rintro ⟨r, hr, hv'⟩
  obtain ⟨hlo, hhi⟩ := VersionRange.contains_iff.mp hv'
  have hle := h.dead_le r hr
  omega

/-! ## Applying commands -/

section Applied

variable {se' : Engine} {last : Key → Option WALEntry} {rs : List WALEntry}
  {es : List (Key × Option Cell)} {c : RaftClock} {n : Nat}

variable (hw : s.se.Wrote codec s.se.version last se' rs es)
include hw

theorem Sound.logs_applied (d : Nat) :
    (s.applied se' c n).logs d = s.logs d ++ rs.filter fun r => s.se.disk r.key = d := by
  show s.logs d ++ se'.wals d = _
  rw [hw.wals, h.wals, nil_append]

theorem Sound.mem_logs_applied (hr : r ∈ (s.applied se' c n).logs d) :
    r ∈ s.logs d ∨ r ∈ rs ∧ s.se.disk r.key = d := by
  rw [h.logs_applied hw] at hr
  rcases mem_append.mp hr with hr | hr
  · exact .inl hr
  · exact .inr (by simpa using mem_filter.mp hr)

/-- No marker is among the new records. -/
theorem Sound.logged_applied (hm : (s.applied se' c n).Logged m) : s.Logged m := by
  obtain ⟨d, r, hr, hmark⟩ := hm
  rcases h.mem_logs_applied hw hr with hr | ⟨hr, -⟩
  · exact ⟨d, r, hr, hmark⟩
  · exact absurd (isAppliedMarker_eq_some hmark).1 (hw.keys r hr)

theorem Sound.kept_applied (alive : Nat → Bool) (d : Nat) :
    (s.applied se' c n).kept alive d = s.kept alive d ++
      (rs.filter fun r => s.se.disk r.key = d).filter fun r => alive r.version := by
  have hkeys : ((rs.filter fun r => s.se.disk r.key = d).filter fun r =>
      decide (r.key ≠ appliedMarkerKey) && alive r.version) =
      (rs.filter fun r => s.se.disk r.key = d).filter fun r => alive r.version := by
    apply filter_congr
    intro r hr
    simp [hw.keys r (mem_filter.mp hr).1]
  rw [kept, h.logs_applied hw, filter_append, hkeys]
  rfl

theorem Sound.current_applied :
    se'.recordKeyspace codec ((s.applied se' c n).kept s.alive) =
      (s.se.recordKeyspace codec (s.kept s.alive)).write es := by
  have hlast : ∀ k, lastAfter (fun k => (recordsIn (s.kept s.alive (s.se.disk k)) k).getLast?) rs k =
      (recordsIn ((s.applied se' c n).kept s.alive (se'.disk k)) k).getLast? := by
    intro k
    have halive : ((rs.filter fun r => s.se.disk r.key = s.se.disk k).filter fun r =>
        s.alive r.version) = rs.filter fun r => s.se.disk r.key = s.se.disk k :=
      filter_eq_self.mpr fun r hr =>
        h.alive_of_lt (hw.versions r (mem_filter.mp hr).1).1
    have hkey : recordsIn (rs.filter fun r => s.se.disk r.key = s.se.disk k) k =
        recordsIn rs k := by
      rw [recordsIn, filter_filter]
      apply filter_congr
      intro r _
      by_cases hk : r.key = k
      · simp [hk]
      · simp [hk]
    rw [lastAfter_apply, hw.grows.disk, h.kept_applied hw, halive, recordsIn_append, hkey,
      List.getLast?_append]
  have hcell := hw.bind_cell_eq (fun k => (recordsIn (s.kept s.alive (s.se.disk k)) k).getLast?)
    fun k r hr => h.kept_stored _ _ r (mem_recordsIn.mp (mem_of_getLast? hr)).1
  simp only [hlast] at hcell
  exact hcell

theorem Sound.cutAt_applied (hm : s.Logged m) (hcut : s.CutAt codec kvSep log m) :
    (s.applied se' c n).CutAt codec kvSep log m := by
  have hver := h.ver_le (.inl hm)
  have hnew : ∀ r ∈ rs, m.covers r.version = false := fun r hr =>
    covers_of_lt (Nat.lt_of_le_of_lt hver (hw.versions r hr).1)
  have hkept : (s.applied se' c n).kept m.covers = s.kept m.covers := by
    funext d
    have hnil : ((rs.filter fun r => s.se.disk r.key = d).filter fun r => m.covers r.version) = [] :=
      filter_eq_nil_iff.mpr fun r hr => by simp [hnew r (mem_filter.mp hr).1]
    rw [h.kept_applied hw, hnil, append_nil]
  refine ⟨hcut.clock, ?_, ?_⟩
  · rw [hkept]
    show (se'.recordKeyspace codec (s.kept m.covers)).AgreeFrom _ _
    rw [recordKeyspace_grow hw.grows (h.kept_stored _)]
    exact hcut.agree
  · intro d r hr hk
    rw [h.logs_applied hw] at hr
    have hdrop : (s.logs d ++ rs.filter fun r => s.se.disk r.key = d).drop (s.synced d) =
        (s.logs d).drop (s.synced d) ++ rs.filter fun r => s.se.disk r.key = d :=
      drop_append_of_le_length (h.synced_le d)
    have hr' : r ∈ (s.logs d ++ rs.filter fun r => s.se.disk r.key = d).drop (s.synced d) := hr
    rw [hdrop] at hr'
    rcases mem_append.mp hr' with hr' | hr'
    · exact hcut.synced d r hr' hk
    · exact hnew r (mem_filter.mp hr').1

theorem Sound.applied (hse : s.se.Holds codec last) (hnone : last appliedMarkerKey = none)
    (hlast : ∀ k r, last k = some r → s.se.Direct r ∧ r.replayed.stampUs ≠ 0)
    (hc : s.clock.last ≤ c.last)
    (hat : se'.StandsAt codec kvSep log n c) (hP : ∀ d, se'.wals d ≠ [] → s.torn d = none) :
    (s.applied se' c n).Sound codec kvSep log where
  kvSep_eq := hw.grows.kvSep.trans h.kvSep_eq
  numDisks_pos := by
    show 0 < se'.numDisks
    rw [hw.grows.numDisks]
    exact h.numDisks_pos
  engine := by
    refine ⟨_, hw.holds.drained, ?_, fun k r hr => ?_⟩
    · have hnil : recordsIn rs appliedMarkerKey = [] :=
        filter_eq_nil_iff.mpr fun r hr => by simp [hw.keys r hr]
      rw [lastAfter_apply, hnil, hnone]
      rfl
    rw [lastAfter_apply, Option.or_eq_some_iff] at hr
    rcases hr with hr | ⟨-, hr⟩
    · have hmem := (mem_recordsIn.mp (mem_of_getLast? hr)).1
      exact ⟨(hw.replayable r hmem).direct.grow se'.grows_drained, hw.stamps r hmem⟩
    · exact ⟨(hlast k r hr).1.grow (hw.grows.trans se'.grows_drained), (hlast k r hr).2⟩
  wals := fun _ => rfl
  standsAt := { hat with }
  routed := by
    intro d hd
    have hd' : s.se.numDisks ≤ d := hw.grows.numDisks ▸ hd
    rw [h.logs_applied hw, h.routed d hd', nil_append, filter_eq_nil_iff]
    intro r _ hr
    have hlt := diskFor_lt h.numDisks_pos r.key
    have hr' : s.se.disk r.key = d := by simpa using hr
    rw [disk] at hr'
    omega
  synced_le := by
    intro d
    rw [h.logs_applied hw, length_append]
    exact Nat.le_add_right_of_le (h.synced_le d)
  torn_eq := by
    intro d k hk
    have hnil : se'.wals d = [] := by
      by_contra hne
      exact absurd ((hP d hne).symm.trans hk) (by simp)
    show k = (s.logs d ++ se'.wals d).length ∧ s.synced d = k
    rw [hnil, append_nil]
    exact h.torn_eq d k hk
  version_le := by
    intro d r hr
    rcases h.mem_logs_applied hw hr with hr | ⟨hr, -⟩
    · exact (h.version_le d r hr).trans hw.version_le
    · exact (hw.versions r hr).2
  data := by
    intro d r hr hk
    rcases h.mem_logs_applied hw hr with hr | ⟨hr, hd⟩
    · obtain ⟨hrep, hd, hstamp⟩ := h.data d r hr hk
      exact ⟨hrep.grow (hw.grows.trans se'.grows_drained), (hw.grows.disk _).trans hd, hstamp⟩
    · exact ⟨(hw.replayable r hr).grow se'.grows_drained, (hw.grows.disk _).trans hd,
        hw.stamps r hr⟩
  tracked := by
    intro t ht
    obtain ⟨hver, hdead⟩ := h.tracked t ht
    exact ⟨hver.trans hw.version_le, fun r hr => (hdead r hr).trans hw.version_le⟩
  mark := fun m hm => h.mark m (hm.imp (h.logged_applied hw) id)
  same := by
    intro m m' hm hm' hver
    have hold : s.Marks m := hm.imp (h.logged_applied hw) id
    have hsame := h.same m m' hold (hm'.imp (h.logged_applied hw) id) hver
    refine { hsame with dead := fun d r hr hk hle => ?_ }
    rcases h.mem_logs_applied hw hr with hr | ⟨hr, -⟩
    · exact hsame.dead d r hr hk hle
    · have hlt := (hw.versions r hr).1
      have hle' := h.ver_le hold
      omega
  current := by
    show (se'.recordKeyspace codec ((s.applied se' c n).kept s.alive)).AgreeFrom c.last _
    have hlive : (s.se.recordKeyspace codec (s.kept s.alive)).AgreeFrom s.clock.last
        (s.se.keyspace codec) := h.current.trans h.standsAt.keyspace.symm
    have hstep := (hlive.write es).mono hc
    rw [← hw.keyspace_eq hse] at hstep
    rw [h.current_applied hw]
    exact hstep.trans hat.keyspace
  cut := by
    intro m hm hdur
    have hm' := h.logged_applied hw hm
    refine h.cutAt_applied hw hm' (h.cut m hm' fun m' hd => hdur m' ?_)
    obtain ⟨d, r, hr, hmark⟩ := hd
    refine ⟨d, r, ?_, hmark⟩
    show r ∈ (s.logs d ++ _).take (s.synced d)
    rw [take_append_of_le_length (h.synced_le d)]
    exact hr
  settled := fun hq => (by cases hq)

end Applied

/-! ## Syncs and markers -/

theorem Sound.sync {synced : Nat → Nat} (hle : ∀ d, s.synced d ≤ synced d)
    (hn : ∀ d, synced d ≤ (s.logs d).length) :
    { s with synced := synced }.Sound codec kvSep log := by
  have hdrop : ∀ d, ∀ r ∈ (s.logs d).drop (synced d), r ∈ (s.logs d).drop (s.synced d) :=
    fun d r hr => (drop_subset_drop_left _ (hle d)) hr
  exact
    { h with
      synced_le := hn
      torn_eq := by
        intro d n htorn
        obtain ⟨hlen, hsync⟩ := h.torn_eq d n htorn
        refine ⟨hlen, Nat.le_antisymm ?_ (hsync ▸ hle d)⟩
        rw [hlen]
        exact hn d
      cut := by
        intro m hm hdur
        have hcut := h.cut m hm fun m' hd => hdur m' (by
          obtain ⟨d, r, hr, hmark⟩ := hd
          exact ⟨d, r, take_subset_take_left _ (hle d) hr, hmark⟩)
        exact { hcut with synced := fun d r hr => hcut.synced d r (hdrop d r hr) }
      same := fun m m' hm hm' hver =>
        let hsame := h.same m m' hm hm' hver
        { hsame with }
      settled := fun hq =>
        let hs := h.settled hq
        { hs with synced := fun d r hr => hs.synced d r (hdrop d r hr) } }

theorem Sound.nextVersion {torn : Nat → Option Nat}
    (htorn : ∀ d n, torn d = some n → s.torn d = some n) :
    { s with se := s.se.nextVersion, torn := torn }.Sound codec kvSep log :=
  { h with
    engine := by
      obtain ⟨last, hse, hnone, hlast⟩ := h.engine
      exact ⟨last, hse.grow s.se.grows_nextVersion rfl rfl hse.tail_pos, hnone,
        fun k r hr => ⟨(hlast k r hr).1.grow s.se.grows_nextVersion, (hlast k r hr).2⟩⟩
    standsAt := ⟨h.standsAt.clock, h.standsAt.keyspace⟩
    torn_eq := fun d n hn => h.torn_eq d n (htorn d n hn)
    version_le := fun d r hr => (h.version_le d r hr).trans (Nat.le_succ _)
    data := by
      intro d r hr hk
      obtain ⟨hrep, hd, hstamp⟩ := h.data d r hr hk
      exact ⟨hrep.grow s.se.grows_nextVersion, hd, hstamp⟩
    tracked := fun t ht => ⟨(h.tracked t ht).1.trans (Nat.le_succ _),
      fun r hr => ((h.tracked t ht).2 r hr).trans (Nat.le_succ _)⟩
    same := fun m m' hm hm' hver =>
      let hsame := h.same m m' hm hm' hver
      ⟨hsame.index, hsame.clock, hsame.floor, hsame.dead⟩
    cut := fun m hm hdur =>
      let hcut := h.cut m hm hdur
      { hcut with }
    settled := fun hq =>
      let hs := h.settled hq
      { hs with } }

end

theorem mem_logs_writeMarker {nowNs : Int} :
    r ∈ (s.writeMarker log nowNs).logs d ↔
      r ∈ s.logs d ∨ d = s.se.disk appliedMarkerKey ∧ r = (s.nextMarker log).record nowNs := by
  by_cases hd : d = s.se.disk appliedMarkerKey
  · subst hd
    simp [writeMarker]
  · simp [writeMarker, hd]

theorem kept_writeMarker (s : RaftSys) (log : Nat → RaftEntry) (nowNs : Int)
    (alive : Nat → Bool) : (s.writeMarker log nowNs).kept alive = s.kept alive := by
  funext d
  by_cases hd : d = s.se.disk appliedMarkerKey
  · subst hd
    simp [kept, writeMarker, record]
  · simp [kept, writeMarker, hd]

theorem logged_writeMarker {nowNs : Int} (hm : (s.nextMarker log).Fits)
    (h : (s.writeMarker log nowNs).Marks m) : s.Logged m ∨ m = s.nextMarker log := by
  rcases h with ⟨d, r, hr, hmark⟩ | h
  · rcases mem_logs_writeMarker.mp hr with hr | ⟨-, rfl⟩
    · exact .inl ⟨d, r, hr, hmark⟩
    · rw [isAppliedMarker_record hm] at hmark
      exact .inr (Option.some.inj hmark).symm
  · exact .inr (Option.some.inj h).symm

/-- The synced part of the logs does not change. -/
theorem Sound.take_writeMarker (h : s.Sound codec kvSep log) (nowNs : Int) (d : Nat) :
    ((s.writeMarker log nowNs).logs d).take (s.synced d) = (s.logs d).take (s.synced d) := by
  by_cases hd : d = s.se.disk appliedMarkerKey
  · subst hd
    simp only [writeMarker, update_self]
    exact take_append_of_le_length (h.synced_le _)
  · simp [writeMarker, hd]

theorem Sound.writeMarker (h : s.Sound codec kvSep log) (nowNs : Int)
    (hrun : ∀ d, ∀ r ∈ (s.logs d).drop (s.synced d), r.key = appliedMarkerKey)
    (htorn : s.torn (s.se.disk appliedMarkerKey) = none) (hm : (s.nextMarker log).Fits) :
    (s.writeMarker log nowNs).Sound codec kvSep log := by
  have hnext : Sound codec kvSep log { s with se := s.se.nextVersion } :=
    h.nextVersion fun _ _ hn => hn
  have hdata : ∀ d, ∀ r ∈ (s.writeMarker log nowNs).logs d, r.key ≠ appliedMarkerKey →
      r ∈ s.logs d := by
    intro d r hr hk
    rcases mem_logs_writeMarker.mp hr with hr | ⟨-, rfl⟩
    · exact hr
    · exact absurd rfl hk
  have hdrop : ∀ d, ∀ r ∈ ((s.writeMarker log nowNs).logs d).drop (s.synced d),
      r.key = appliedMarkerKey := by
    refine (forall_update_iff _ fun d (l : List WALEntry) => ∀ r ∈ l.drop (s.synced d),
      r.key = appliedMarkerKey).mpr ⟨?_, fun d _ => hrun d⟩
    rw [drop_append_of_le_length (h.synced_le _)]
    exact forall_mem_append.mpr ⟨hrun _, forall_mem_singleton.mpr rfl⟩
  -- the new marker covers all that is not dead
  have hcovers : ∀ d, ∀ r ∈ s.logs d, r.key ≠ appliedMarkerKey →
      (s.nextMarker log).covers r.version = s.alive r.version := by
    intro d r hr _
    have hle := h.version_le d r hr
    have hle' : r.version ≤ (s.nextMarker log).ver := hle.trans (Nat.le_succ _)
    simp only [covers, hle', decide_true, Bool.true_and]
    rfl
  have hlive : isDead s.dead (s.se.version + 1) = false := by
    have halive := h.alive_of_lt (Nat.lt_succ_self s.se.version)
    rwa [alive, Bool.not_eq_true'] at halive
  exact
    { hnext with
      routed := by
        intro d hd
        have hlt : s.se.disk appliedMarkerKey < s.se.numDisks := diskFor_lt h.numDisks_pos _
        have hne : d ≠ s.se.disk appliedMarkerKey := by
          have hd' : s.se.numDisks ≤ d := hd
          omega
        simp only [RaftSys.writeMarker, update_of_ne hne]
        exact h.routed d hd
      synced_le := by
        refine (forall_update_iff _ fun d l => s.synced d ≤ length l).mpr
          ⟨?_, fun d _ => h.synced_le d⟩
        rw [length_append]
        exact Nat.le_add_right_of_le (h.synced_le _)
      torn_eq := by
        intro d n hn
        have hne : d ≠ s.se.disk appliedMarkerKey := by
          rintro rfl
          exact absurd (htorn.symm.trans hn) (by simp)
        simp only [RaftSys.writeMarker, update_of_ne hne]
        exact h.torn_eq d n hn
      version_le := by
        intro d r hr
        rcases mem_logs_writeMarker.mp hr with hr | ⟨-, rfl⟩
        · exact hnext.version_le d r hr
        · exact Nat.le_refl _
      data := fun d r hr hk => hnext.data d r (hdata d r hr hk) hk
      tracked := by
        intro t ht
        cases ht
        exact ⟨Nat.le_refl _, hnext.dead_le⟩
      mark := by
        intro m hmark
        rcases logged_writeMarker hm hmark with hold | rfl
        · obtain ⟨hfits, hdead, -⟩ := h.mark m (.inl hold)
          exact ⟨hfits, hdead, _, rfl, hnext.ver_le (.inl hold)⟩
        · exact ⟨hm, hlive, _, rfl, Nat.le_refl _⟩
      same := by
        intro m m' hmark hmark' hver
        have hlt : ∀ {m}, s.Logged m → m.ver ≠ (s.nextMarker log).ver := fun hold => by
          have hle := h.ver_le (.inl hold)
          show _ ≠ s.se.version + 1
          omega
        rcases logged_writeMarker hm hmark with hold | rfl
        · rcases logged_writeMarker hm hmark' with hold' | rfl
          · have hsame := h.same m m' (.inl hold) (.inl hold') hver
            exact { hsame with dead := fun d r hr hk => hsame.dead d r (hdata d r hr hk) hk }
          · exact absurd hver (hlt hold)
        · rcases logged_writeMarker hm hmark' with hold' | rfl
          · exact absurd hver.symm (hlt hold')
          · exact ⟨rfl, rfl, rfl, fun _ _ _ _ _ => rfl⟩
      current := by
        rw [kept_writeMarker]
        exact h.current
      cut := by
        intro m hlogged hdur
        rcases logged_writeMarker hm (.inl hlogged) with hold | rfl
        · have hcut := h.cut m hold fun m' hd => hdur m' (by
            obtain ⟨d, r, hr, hmark⟩ := hd
            refine ⟨d, r, ?_, hmark⟩
            show r ∈ ((s.writeMarker log nowNs).logs d).take (s.synced d)
            rw [h.take_writeMarker]
            exact hr)
          refine ⟨hcut.clock, ?_, fun d r hr hk => absurd (hdrop d r hr) hk⟩
          rw [kept_writeMarker]
          exact hcut.agree
        · refine ⟨h.standsAt.clock, ?_, fun d r hr hk => absurd (hdrop d r hr) hk⟩
          have hkept : s.kept (s.nextMarker log).covers = s.kept s.alive :=
            funext fun d => kept_congr (hcovers d)
          rw [kept_writeMarker, hkept]
          exact h.current
      settled := by
        intro _
        refine ⟨hdrop, fun t ht => ?_, fun ht => (by cases ht)⟩
        cases ht
        exact ⟨rfl, rfl, fun d r hr hk _ => hnext.version_le d r (hdata d r hr hk)⟩ }

/-! ## Checkpoints -/

section Checkpoint

variable {keepTombstone : Int → Int → Bool} {d : Nat} {nowNs markerNs : Int} {t : AppliedMarker}

theorem recordsIn_image (s : RaftSys) (d version : Nat) (k : Key) :
    recordsIn (s.se.index.checkpointShards s.se.kvSep keepTombstone version nowNs
        (diskShards d s.se.numDisks)) k =
      if s.se.disk k = d then
        (s.se.index.checkpointKey s.se.kvSep keepTombstone version nowNs k).toList else [] := by
  rw [ShardedIndex.recordsIn_checkpointShards _ _ _ _ _ (nodup_diskShards d _)]
  simp only [mem_diskShards]

/-- A record of the image says what the index holds of its key. -/
structure ImageRecord (codec : ValueCodec) (s : RaftSys) (d version : Nat) (c : WALEntry) :
    Prop where
  replayable : s.se.Replayable codec c
  disk : s.se.disk c.key = d
  stamp : c.replayed.stampUs ≠ 0
  key : c.key ≠ appliedMarkerKey
  version : c.version = version

/-- What a checkpoint writes of a key, when it drops nothing that the raft clock
still shows. -/
theorem Sound.imaged (h : s.Sound codec kvSep log)
    (hexp : RaftDiscipline.sound.checkpoint s d nowNs) (keepTombstone : Int → Int → Bool) (version : Nat) :
    (∀ c ∈ s.se.index.checkpointShards s.se.kvSep keepTombstone version nowNs
        (diskShards d s.se.numDisks), s.ImageRecord codec d version c) ∧
      ∀ k, s.se.disk k = d → ∀ nowUs, s.clock.last ≤ nowUs →
        ((s.se.index.checkpointKey s.se.kvSep keepTombstone version nowNs k).bind
            (s.se.cell codec)).bind (Cell.at nowUs) = (s.se.keyspace codec).read k nowUs := by
  obtain ⟨last, hse, hnone, hlast⟩ := h.engine
  have him : ∀ k, s.se.disk k = d → s.se.Imaged codec [s.clock.last] k (last k)
      (s.se.index.checkpointKey s.se.kvSep keepTombstone version nowNs k) := by
    intro k hk
    refine hse.imaged_checkpointKey (hlast k) keepTombstone version nowNs ?_
    intro e he hx nowUs hnow
    exact e.isExpired_mono (hexp k e hk he hx) (hnow _ (mem_singleton_self _))
  refine ⟨fun c hc => ?_, fun k hk nowUs hnow => ?_⟩
  · have hmem := mem_recordsIn.mpr ⟨hc, rfl⟩
    rw [recordsIn_image] at hmem
    split at hmem
    next hk =>
      have hkey := Option.mem_toList.mp hmem
      obtain ⟨-, -, -, r, hr, hstamp, -⟩ := (him c.key hk).same c hkey
      obtain ⟨e, -, hrec⟩ := Option.bind_eq_some_iff.mp hkey
      refine ⟨hse.replayable_checkpointKey (him c.key hk) hkey, hk, ?_, ?_,
        (checkpointRecord_eq_some hrec).2.1⟩
      · rw [hstamp]
        exact (hlast c.key r hr).2
      · intro heq
        rw [heq, hnone] at hr
        cases hr
    · cases hmem
  · rw [Keyspace.read, hse.keyspace_eq]
    cases hck : s.se.index.checkpointKey s.se.kvSep keepTombstone version nowNs k with
    | none =>
      have hgone := (him k hk).gone hck nowUs (by simpa using hnow)
      cases hl : last k with
      | none => rfl
      | some r =>
        rw [hl, Option.bind_some] at hgone
        rw [Option.bind_some, cell]
        cases ho : s.se.outcome codec r with
        | none => rfl
        | some =>
          rw [ho, Option.bind_some] at hgone
          simp [Cell.at, hgone]
    | some c =>
      obtain ⟨-, -, -, r, hr, hstamp, hout⟩ := (him k hk).same c hck
      rw [hr, Option.bind_some, Option.bind_some, cell, cell, hstamp, hout]

/-- A record of a checkpointed log is one of another disk, of the image, the
marker or one that was not synced. -/
theorem mem_logs_checkpointAt (ht : s.tracker = some t) {version d' : Nat}
    (hr : r ∈ (s.checkpointAt keepTombstone d version nowNs markerNs).logs d') :
    (d' ≠ d ∧ r ∈ s.logs d') ∨
      d' = d ∧ (r ∈ s.se.index.checkpointShards s.se.kvSep keepTombstone version nowNs
        (diskShards d s.se.numDisks) ∨ r = t.record markerNs ∨
        r ∈ (s.logs d).drop (s.synced d)) := by
  by_cases hd : d' = d
  · subst hd
    simp only [checkpointAt, image, ht, update_self, mem_append, mem_singleton, or_assoc] at hr
    exact .inr ⟨rfl, hr⟩
  · simp only [checkpointAt, update_of_ne hd] at hr
    exact .inl ⟨hd, hr⟩

theorem drop_checkpointAt (s : RaftSys) (d version d' : Nat) :
    ((s.checkpointAt keepTombstone d version nowNs markerNs).logs d').drop
      ((s.checkpointAt keepTombstone d version nowNs markerNs).synced d') =
      (s.logs d').drop (s.synced d') := by
  by_cases hd : d' = d
  · subst hd
    simp only [checkpointAt, update_self, drop_left]
  · simp only [checkpointAt, update_of_ne hd]

section
variable (h : s.Sound codec kvSep log) (ht : s.tracker = some t)
  (hexp : RaftDiscipline.sound.checkpoint s d nowNs)
include h ht hexp

/-- A checkpoint brings no marker that was not there. -/
theorem Sound.marks_checkpointAt
    (hm : (s.checkpointAt keepTombstone d t.ver nowNs markerNs).Marks m) : s.Marks m := by
  rcases hm with ⟨d', r, hr, hmark⟩ | hm
  · rcases mem_logs_checkpointAt ht hr with ⟨-, hr⟩ | ⟨-, hr | rfl | hr⟩
    · exact .inl ⟨d', r, hr, hmark⟩
    · have himage := (h.imaged hexp keepTombstone t.ver).1
      exact absurd (isAppliedMarker_eq_some hmark).1 (himage r hr).key
    · rw [isAppliedMarker_record (h.mark t (.inr ht)).1] at hmark
      exact .inr (ht.trans hmark)
    · exact .inl ⟨d, r, mem_of_mem_drop hr, hmark⟩
  · exact .inr hm

variable (hs : s.Settled)
include hs

/-- Data in a checkpointed log is of another disk or of the image. -/
theorem Sound.data_checkpointAt {d' : Nat}
    (hr : r ∈ (s.checkpointAt keepTombstone d t.ver nowNs markerNs).logs d')
    (hk : r.key ≠ appliedMarkerKey) :
    (d' ≠ d ∧ r ∈ s.logs d') ∨ d' = d ∧ s.ImageRecord codec d t.ver r := by
  rcases mem_logs_checkpointAt ht hr with hr | ⟨hd', hr | rfl | hr⟩
  · exact .inl hr
  · exact .inr ⟨hd', (h.imaged hexp keepTombstone t.ver).1 r hr⟩
  · exact absurd rfl hk
  · exact absurd (hs.synced d r hr) hk

/-- The last record of a key that is alive after the checkpoint. -/
theorem Sound.kept_checkpointAt (k : Key) :
    (recordsIn ((s.checkpointAt keepTombstone d t.ver nowNs markerNs).kept s.alive
      (s.se.disk k)) k).getLast? = if s.se.disk k = d then
        s.se.index.checkpointKey s.se.kvSep keepTombstone t.ver nowNs k
      else (recordsIn (s.kept s.alive (s.se.disk k)) k).getLast? := by
  have himage := (h.imaged hexp keepTombstone t.ver).1
  have halive : s.alive t.ver = true := by
    rw [alive, dead, ht, (h.mark t (.inr ht)).2.1]
    rfl
  split
  next hk =>
    have hself : (s.se.index.checkpointShards s.se.kvSep keepTombstone t.ver nowNs
        (diskShards d s.se.numDisks)).filter (fun r =>
          decide (r.key ≠ appliedMarkerKey) && s.alive r.version) = _ :=
      filter_eq_self.mpr fun r hr => by
        simp [(himage r hr).key, (himage r hr).version, halive]
    have hmarker : [t.record markerNs].filter (fun r =>
        decide (r.key ≠ appliedMarkerKey) && s.alive r.version) = [] := by
      simp [record]
    have hrest : ((s.logs d).drop (s.synced d)).filter (fun r =>
        decide (r.key ≠ appliedMarkerKey) && s.alive r.version) = [] :=
      filter_eq_nil_iff.mpr fun r hr => by simp [hs.synced d r hr]
    rw [kept, hk]
    simp only [checkpointAt, image, ht, update_self]
    rw [filter_append, filter_append, hself, hmarker, hrest, append_nil,
      append_nil, recordsIn_image, if_pos hk]
    cases s.se.index.checkpointKey s.se.kvSep keepTombstone t.ver nowNs k <;> rfl
  next hk =>
    rw [kept, kept]
    simp only [checkpointAt, update_of_ne hk]

theorem Sound.agree_checkpointAt :
    (s.se.recordKeyspace codec
      ((s.checkpointAt keepTombstone d t.ver nowNs markerNs).kept s.alive)).AgreeFrom s.clock.last
      (keyspaceAt kvSep log s.index).1 := by
  intro k nowUs hnow
  rw [Keyspace.read, recordKeyspace, h.kept_checkpointAt ht hexp hs]
  split
  next hk =>
    have hreads := (h.imaged hexp keepTombstone t.ver).2
    exact (hreads k hk nowUs hnow).trans (h.standsAt.keyspace k nowUs hnow)
  next hk => exact h.current k nowUs hnow

/-- A marker at the version of the newest covers just what is alive. -/
theorem Sound.covers_checkpointAt (hm : s.Marks m) (hver : m.ver = t.ver) {d' : Nat}
    (hr : r ∈ (s.checkpointAt keepTombstone d t.ver nowNs markerNs).logs d')
    (hk : r.key ≠ appliedMarkerKey) : m.covers r.version = s.alive r.version := by
  have hdead : s.dead = t.dead := by rw [dead, ht]
  rcases h.data_checkpointAt ht hexp hs hr hk with ⟨-, hr⟩ | ⟨-, hr⟩
  · by_cases hle : r.version ≤ t.ver
    · have hsame := (h.same m t hm (.inr ht) hver).dead d' r hr hk (hver ▸ hle)
      simp only [covers, hver, hle, decide_true, Bool.true_and, hsame, alive, hdead]
    · rw [covers_of_lt (by omega)]
      by_contra hne
      exact hle ((hs.named t ht).2.2 d' r hr hk (by simpa using Ne.symm hne))
  · obtain ⟨-, hlive, -⟩ := h.mark m hm
    rw [hr.version, alive, hdead, (h.mark t (.inr ht)).2.1, ← hver]
    simp [covers, hlive]

theorem Sound.checkpointAt (hd : d < s.se.numDisks) :
    (s.checkpointAt keepTombstone d t.ver nowNs markerNs).Sound codec kvSep log := by
  set s' := s.checkpointAt keepTombstone d t.ver nowNs markerNs
  have himage := (h.imaged hexp keepTombstone t.ver).1
  obtain ⟨hindex, hclock, hnamed⟩ := hs.named t ht
  have hdata : ∀ d', ∀ r ∈ s'.logs d', r.key ≠ appliedMarkerKey →
      (d' ≠ d ∧ r ∈ s.logs d') ∨ d' = d ∧ s.ImageRecord codec d t.ver r :=
    fun _ _ => h.data_checkpointAt ht hexp hs
  have hmarks : ∀ {m}, s'.Marks m → s.Marks m := h.marks_checkpointAt ht hexp
  have hcurrent : (s.se.recordKeyspace codec (s'.kept s.alive)).AgreeFrom s.clock.last
      (keyspaceAt kvSep log s.index).1 := h.agree_checkpointAt ht hexp hs
  have hdrop : ∀ d', ∀ r ∈ (s'.logs d').drop (s'.synced d'), r.key = appliedMarkerKey := by
    intro d' r hr
    rw [drop_checkpointAt] at hr
    exact hs.synced d' r hr
  exact
    { h with
      routed := by
        intro d' hd'
        have hne : d' ≠ d := by
          have hle : s.se.numDisks ≤ d' := hd'
          omega
        simp only [s', RaftSys.checkpointAt, update_of_ne hne]
        exact h.routed d' hd'
      synced_le := by
        intro d'
        by_cases hd' : d' = d
        · subst hd'
          simp only [s', RaftSys.checkpointAt, update_self, length_append]
          omega
        · simp only [s', RaftSys.checkpointAt, update_of_ne hd']
          exact h.synced_le d'
      torn_eq := by
        intro d' n hn
        by_cases hd' : d' = d
        · subst hd'
          simp only [s', RaftSys.checkpointAt, update_self] at hn
          cases hn
        · simp only [s', RaftSys.checkpointAt, update_of_ne hd'] at hn ⊢
          exact h.torn_eq d' n hn
      version_le := by
        intro d' r hr
        rcases mem_logs_checkpointAt ht hr with ⟨-, hr⟩ | ⟨-, hr | rfl | hr⟩
        · exact h.version_le d' r hr
        · rw [(himage r hr).version]
          exact (h.tracked t ht).1
        · exact (h.tracked t ht).1
        · exact h.version_le d r (mem_of_mem_drop hr)
      data := by
        intro d' r hr hk
        rcases hdata d' r hr hk with ⟨-, hr⟩ | ⟨rfl, hr⟩
        · exact h.data d' r hr hk
        · exact ⟨hr.replayable, hr.disk, hr.stamp⟩
      mark := fun m hm => h.mark m (hmarks hm)
      same := by
        intro m m' hm hm' hver
        have hsame := h.same m m' (hmarks hm) (hmarks hm') hver
        refine { hsame with dead := fun d' r hr hk hle => ?_ }
        rcases hdata d' r hr hk with ⟨-, hr⟩ | ⟨-, hr⟩
        · exact hsame.dead d' r hr hk hle
        · -- the version of the image is that of both markers, which do not count it dead
          obtain ⟨-, hm₁, t', ht', hle'⟩ := h.mark m (hmarks hm)
          obtain ⟨-, hm₂, -⟩ := h.mark m' (hmarks hm')
          rw [ht] at ht'
          cases ht'
          rw [hr.version] at hle ⊢
          have heq : t.ver = m.ver := Nat.le_antisymm hle hle'
          rw [heq, hm₁, hver, hm₂]
      current := hcurrent
      cut := by
        intro m hm hdur
        have hold := hmarks (.inl hm)
        have hle : t.ver ≤ m.ver := by
          refine hdur t ⟨d, t.record markerNs, ?_,
            isAppliedMarker_record (h.mark t (.inr ht)).1 markerNs⟩
          simp only [s', RaftSys.checkpointAt, update_self, take_left, image, ht]
          simp
        obtain ⟨-, -, t', ht', hle'⟩ := h.mark m hold
        rw [ht] at ht'
        cases ht'
        have hver : m.ver = t.ver := Nat.le_antisymm hle' hle
        have hsame := h.same m t hold (.inr ht) hver
        have hkept' : s'.kept m.covers = s'.kept s.alive :=
          funext fun d' => kept_congr fun _ => h.covers_checkpointAt ht hexp hs hold hver
        have hmclock : (⟨m.clock, m.floor⟩ : RaftClock) = s.clock := by
          rw [hsame.clock, hsame.floor, hclock]
        have hmindex : m.index = s.index := hsame.index.trans hindex
        refine ⟨?_, ?_, fun d' r hr hk => absurd (hdrop d' r hr) hk⟩
        · rw [hmclock, hmindex]
          exact h.standsAt.clock
        · rw [hkept', hmindex]
          have hlast : m.clock = s.clock.last := congrArg RaftClock.last hmclock
          rw [hlast]
          exact hcurrent
      settled := by
        intro _
        refine ⟨hdrop, fun t' ht' => ?_, fun ht' => ?_⟩
        · have heq : t' = t := Option.some.inj (ht'.symm.trans ht)
          subst heq
          refine ⟨hindex, hclock, fun d' r hr hk ha => ?_⟩
          rcases hdata d' r hr hk with ⟨-, hr⟩ | ⟨-, hr⟩
          · exact hnamed d' r hr hk ha
          · exact Nat.le_of_eq hr.version
        · exact absurd (ht.symm.trans ht') (by simp) }

end

theorem Sound.checkpoint (h : s.Sound codec kvSep log) (hquiet : s.quiet = true)
    (hd : d < s.se.numDisks) (hexp : RaftDiscipline.sound.checkpoint s d nowNs) :
    (s.checkpoint keepTombstone d nowNs markerNs).Sound codec kvSep log := by
  have hs := h.settled hquiet
  rw [RaftSys.checkpoint]
  split
  next t ht => exact h.checkpointAt ht hexp hs hd
  next ht =>
    -- nothing was applied: the image is empty, as the logs are
    obtain ⟨hempty, hkeys⟩ := hs.fresh ht
    have himage : { s with se := s.se.nextVersion }.image keepTombstone d (s.se.version + 1) nowNs
        markerNs = [] := by
      simp only [image, ht, append_nil]
      refine ShardedIndex.checkpointShards_eq_nil (fun k hk => ?_) _
      have hmem : k ∈ s.se.index.keys := hk
      rw [hkeys] at hmem
      cases hmem
    have hlogs : update s.logs d ([] ++ (s.logs d).drop (s.synced d)) = s.logs := by
      rw [hempty d, drop_nil, append_nil, ← hempty d, update_eq_self]
    have hsynced : update s.synced d 0 = s.synced := by
      have hle := h.synced_le d
      rw [hempty d, length_nil, Nat.le_zero] at hle
      rw [← hle, update_eq_self]
    simp only [RaftSys.checkpointAt, himage, length_nil, hlogs, hsynced]
    exact h.nextVersion ((forall_update_iff _ fun d o => ∀ n, o = some n → s.torn d = some n).mpr
      ⟨fun n hn => (by cases hn), fun d _ n hn => hn⟩)

end Checkpoint

/-! ## Opening -/

section Open

variable {keep : Nat → Nat} {tear : Nat → Bool} {m : AppliedMarker} {localUs : Int}

/-- The marker that opening resumes from. -/
def cutMarker (s : RaftSys) (m : AppliedMarker) : AppliedMarker :=
  { m with
    dead := deadAfterCut m ((List.range s.se.numDisks).flatMap fun d =>
      ((s.parsed d).map WALEntry.replayed).filter WalReplayEntry.isData) s.maxVersion }

/-- The engine before replay. -/
def emptied (s : RaftSys) : Engine :=
  { s.se with index := .empty, wals := fun _ => [], version := s.maxVersion }

/-- What opening at the marker `m` leads to. -/
def resumed (codec : ValueCodec) (localUs : Int) (s : RaftSys) (m : AppliedMarker) :
    RaftSys where
  se := Engine.replayDisks codec (replayNowUs m.clock localUs)
    (fun d => (s.kept m.covers d).map WALEntry.replayed) s.emptied
  logs := s.logs
  synced := fun d => (s.logs d).length
  torn := s.torn
  tracker := some (s.cutMarker m)
  clock := ⟨m.clock, m.floor⟩
  index := m.index
  quiet := true

/-- The records that the cut keeps. -/
theorem filter_map_replayed (s : RaftSys) (alive : Nat → Bool) (d : Nat) :
    ((((s.logs d).map WALEntry.replayed).filter WalReplayEntry.isData).filter fun e =>
      alive e.version) = (s.kept alive d).map WALEntry.replayed := by
  rw [filter_filter, filter_map]
  congr 1
  apply filter_congr
  intro r _
  rw [Bool.and_comm]
  rfl

theorem reopen_eq (hm : s.newest = some m) (localUs : Int) :
    s.reopen codec localUs = some
      { s with
        se := replayDisks codec (replayNowUs m.clock localUs)
          (fun d => (((s.parsed d).map WALEntry.replayed).filter WalReplayEntry.isData).filter
            fun e => m.covers e.version) s.emptied
        synced := fun d => (s.logs d).length
        tracker := some (s.cutMarker m)
        clock := ⟨m.clock, m.floor⟩
        index := m.index
        quiet := true } := by
  rw [newest] at hm
  simp only [reopen, cutWALAtAppliedMarker, hm]
  rfl

theorem reopen_of_newest (hparsed : ∀ d, s.parsed d = s.logs d) (hm : s.newest = some m) :
    s.reopen codec localUs = some (s.resumed codec localUs m) := by
  have hkept : (fun d => (((s.parsed d).map WALEntry.replayed).filter
      WalReplayEntry.isData).filter fun e => m.covers e.version) =
      fun d => (s.kept m.covers d).map WALEntry.replayed := by
    funext d
    rw [hparsed, filter_map_replayed]
  rw [reopen_eq hm, hkept]
  rfl

theorem newest_of_reopen {s' : RaftSys} (h : s.reopen codec localUs = some s') :
    ∃ m, s.newest = some m := by
  cases hm : s.newest with
  | some m => exact ⟨m, rfl⟩
  | none =>
    rw [newest] at hm
    simp only [reopen, cutWALAtAppliedMarker, hm] at h
    cases h

/-- A torn record lies after all records that are read. -/
theorem Sound.parsed_crash (h : s.Sound codec kvSep log) (d : Nat) :
    (s.crash keep tear).parsed d = (s.crash keep tear).logs d := by
  simp only [parsed, crash]
  cases ht : s.torn d with
  | some n =>
    have hn := (h.torn_eq d n ht).1
    simp only [Option.some_or]
    rw [take_of_length_le (by rw [length_take]; omega)]
  | none =>
    cases tear d with
    | true => simp only [Option.none_or, if_true, take_take, Nat.min_self]
    | false => rfl

structure Crashed (codec : ValueCodec) (kvSep : Bool) (log : Nat → RaftEntry)
    (s s₁ : RaftSys) (m : AppliedMarker) : Prop where
  sound : s.Sound codec kvSep log
  se : s₁.se = s.se
  logs : ∀ d, s₁.logs d <+: s.logs d
  synced : ∀ d, (s.logs d).take (s.synced d) <+: s₁.logs d
  parsed : ∀ d, s₁.parsed d = s₁.logs d
  torn : ∀ d n, s₁.torn d = some n → n = (s₁.logs d).length
  newest : s₁.newest = some m

theorem Sound.crashed (h : s.Sound codec kvSep log)
    (hkeep : ∀ d, s.synced d ≤ keep d ∧ keep d ≤ (s.logs d).length)
    (hm : (s.crash keep tear).newest = some m) :
    Crashed codec kvSep log s (s.crash keep tear) m where
  sound := h
  se := rfl
  logs := fun d => take_prefix _ _
  synced := fun d => take_prefix_take_left (hkeep d).1
  parsed := h.parsed_crash
  torn := by
    intro d n hn
    have hlen : ((s.crash keep tear).logs d).length = keep d := by
      show ((s.logs d).take (keep d)).length = keep d
      rw [length_take]
      exact Nat.min_eq_left (hkeep d).2
    rw [hlen]
    simp only [crash] at hn
    cases ht : s.torn d with
    | some =>
      rw [ht] at hn
      cases hn
      obtain ⟨hk, hsync⟩ := h.torn_eq d n ht
      have hk' := hkeep d
      omega
    | none =>
      rw [ht] at hn
      split at hn
      · exact (Option.some.inj hn).symm
      · cases hn
  newest := hm

section Crashed

variable {s₁ : RaftSys} {m' : AppliedMarker}

theorem grows_emptied (s : RaftSys) : s.se.Grows s.emptied :=
  ⟨rfl, rfl, fun _ => VLog.Extends.refl _⟩

theorem holds_emptied (hse : s.se.Holds codec last) :
    (s.emptied.withIndex .empty).Holds codec fun _ => none := by
  exact
    { hse with
      routed := fun d r hr => (by cases hr)
      stored := fun d r hr => (by cases hr)
      noDirty := fun _ _ => rfl
      entry_stored := fun k e he => (by cases he)
      located := fun _ k e he => (by cases he)
      inMemory := fun _ k e he => (by cases he)
      last_stored := fun k r hr => (by cases hr)
      shows := fun _ => .inr ⟨rfl, rfl⟩ }

theorem SameMark.symm {m' : AppliedMarker} (h : s.SameMark m m') (hver : m.ver = m'.ver) :
    s.SameMark m' m :=
  ⟨h.index.symm, h.clock.symm, h.floor.symm, fun d r hr hk hle =>
    (h.dead d r hr hk (hver ▸ hle)).symm⟩

theorem SameMark.trans {m' m'' : AppliedMarker} (h : s.SameMark m m')
    (h' : s.SameMark m' m'') (hver : m.ver = m'.ver) : s.SameMark m m'' :=
  ⟨h.index.trans h'.index, h.clock.trans h'.clock, h.floor.trans h'.floor, fun d r hr hk hle =>
    (h.dead d r hr hk hle).trans (h'.dead d r hr hk (hver ▸ hle))⟩

variable (hc : Crashed codec kvSep log s s₁ m)
include hc

theorem Crashed.lt_numDisks (hr : r ∈ s₁.logs d) : d < s₁.se.numDisks := by
  by_contra hd
  rw [hc.se] at hd
  have hmem := (hc.logs d).subset hr
  rw [hc.sound.routed d (Nat.le_of_not_lt hd)] at hmem
  cases hmem

theorem Crashed.mem_allParsed (hr : r ∈ s₁.logs d) : r ∈ s₁.allParsed :=
  mem_flatMap.mpr ⟨d, mem_range.mpr (hc.lt_numDisks hr), by rw [hc.parsed]; exact hr⟩

theorem Crashed.le_maxVersion (hr : r ∈ s₁.logs d) : r.version ≤ s₁.maxVersion :=
  (le_foldl_max _ 0).2 r (hc.mem_allParsed hr)

theorem Crashed.logged (hm : s₁.Logged m') : s.Logged m' := by
  obtain ⟨d, r, hr, hmark⟩ := hm
  exact ⟨d, r, (hc.logs d).subset hr, hmark⟩

theorem Crashed.newest_spec :
    s₁.Logged m ∧ m.ver ≤ s₁.maxVersion ∧ ∀ m', s₁.Logged m' → m'.ver ≤ m.ver := by
  have hnew := newest_newestMarker ((List.range s₁.se.numDisks).flatMap fun d =>
    (s₁.parsed d).map replayed)
  have hm : newestMarker ((List.range s₁.se.numDisks).flatMap fun d =>
    (s₁.parsed d).map replayed) = some m := hc.newest
  obtain ⟨e, he, hmark⟩ := hnew.mem m hm
  obtain ⟨d, -, he⟩ := mem_flatMap.mp he
  obtain ⟨r, hr, rfl⟩ := mem_map.mp he
  rw [hc.parsed] at hr
  refine ⟨⟨d, r, hr, hmark⟩, ?_, ?_⟩
  · rw [(isAppliedMarker_eq_some hmark).2]
    exact hc.le_maxVersion hr
  · rintro m' ⟨d', r', hr', hmark'⟩
    refine hnew.ge m hm r'.replayed (mem_flatMap.mpr ⟨d', ?_, ?_⟩) m' hmark'
    · exact mem_range.mpr (hc.lt_numDisks hr')
    · rw [hc.parsed]
      exact mem_map_of_mem hr'

theorem Crashed.cutAt (hm : s₁.Logged m') (hver : m.ver ≤ m'.ver) : s.CutAt codec kvSep log m' := by
  refine hc.sound.cut m' (hc.logged hm) fun m'' hd => ?_
  obtain ⟨d, r, hr, hmark⟩ := hd
  exact (hc.newest_spec.2.2 m'' ⟨d, r, (hc.synced d).subset hr, hmark⟩).trans hver

/-- What the cut keeps was synced, so the crash lost nothing of it. -/
theorem Crashed.kept_eq (hcut : s.CutAt codec kvSep log m') :
    s₁.kept m'.covers = s.kept m'.covers := by
  funext d
  obtain ⟨lost, hlost⟩ := hc.logs d
  obtain ⟨more, hmore⟩ := hc.synced d
  have hdrop : (s.logs d).drop (s.synced d) = more ++ lost := by
    apply append_cancel_left
    rw [take_append_drop, ← append_assoc, hmore, hlost]
  have hnil : (lost.filter fun r => decide (r.key ≠ appliedMarkerKey) && m'.covers r.version) = [] := by
    refine filter_eq_nil_iff.mpr fun r hr => ?_
    by_cases hk : r.key = appliedMarkerKey
    · simp [hk]
    · have hmem : r ∈ (s.logs d).drop (s.synced d) := by
        rw [hdrop]
        exact mem_append_right _ hr
      simp [hcut.synced d r hmem hk]
  rw [kept, kept, ← hlost, filter_append, hnil, append_nil]

theorem Crashed.isDead_cutMarker (hr : r ∈ s₁.logs d) (hk : r.key ≠ appliedMarkerKey) :
    isDead (s₁.cutMarker m).dead r.version = !m.covers r.version := by
  refine isDead_deadAfterCut (e := r.replayed) (mem_flatMap.mpr ⟨d, ?_, ?_⟩) (hc.le_maxVersion hr)
  · exact mem_range.mpr (hc.lt_numDisks hr)
  · refine mem_filter.mpr ⟨?_, decide_eq_true hk⟩
    rw [hc.parsed]
    exact mem_map_of_mem hr

/-- What the cut keeps is what the marker's entries lead to, whenever replay
judges expiry. -/
theorem Crashed.agree_settled (hlog : ∀ n, (log n).Ok kvSep) (localUs : Int) :
    Keyspace.AgreeFrom m.clock
      (fun k => ((recordsIn (s₁.kept m.covers (s.se.disk k)) k).getLast?.map
        (·.settled (replayNowUs m.clock localUs))).bind (s.se.cell codec))
      (keyspaceAt kvSep log m.index).1 := by
  have hcut := hc.cutAt hc.newest_spec.1 (Nat.le_refl _)
  have hagree := hcut.agree
  rw [← hc.kept_eq hcut] at hagree
  by_cases hpos : 0 < m.clock
  · refine Keyspace.AgreeFrom.trans (fun k t ht => ?_) hagree
    rw [Keyspace.read, Keyspace.read, recordKeyspace]
    cases (recordsIn (s₁.kept m.covers (s.se.disk k)) k).getLast? with
    | none => rfl
    | some r =>
      simp only [Option.map_some, Option.bind_some]
      exact s.se.cell_settled codec r ((replayNowUs_le hpos localUs).trans ht)
  · -- no entry was applied, and what has a deadline is not yet past it
    have hempty : (keyspaceAt kvSep log m.index).1 = fun _ => none := by
      apply keyspaceAt_eq_empty hlog
      rw [← hcut.clock]
      exact Int.not_lt.mp hpos
    rw [hempty] at hagree ⊢
    refine fun k t _ => ?_
    have hnone : s.se.recordKeyspace codec (s₁.kept m.covers) k = none := by
      cases hcell : s.se.recordKeyspace codec (s₁.kept m.covers) k with
      | none => rfl
      | some c =>
        have hread := hagree k m.clock (Int.le_refl _)
        rw [Keyspace.read, hcell] at hread
        have hlive : unexpired m.clock c.2 = some c.2 :=
          if_neg fun hexp => hpos (Int.lt_of_lt_of_le hexp.1 hexp.2)
        simp [Keyspace.read, Cell.at, hlive] at hread
    rw [Keyspace.read, Keyspace.read]
    rw [recordKeyspace] at hnone
    cases hl : (recordsIn (s₁.kept m.covers (s.se.disk k)) k).getLast? with
    | none => rfl
    | some =>
      rw [hl, Option.bind_some] at hnone
      rw [Option.map_some, Option.bind_some, cell_settled_eq_none hnone]

theorem Crashed.replayed (localUs : Int) :
    ∃ idx last, (s₁.resumed codec localUs m).se = s₁.emptied.withIndex idx ∧
      (s₁.emptied.withIndex idx).Holds codec last ∧
      ∀ k, last k = (recordsIn (s₁.kept m.covers (s.se.disk k)) k).getLast?.map
        (·.settled (replayNowUs m.clock localUs)) := by
  have hkept : ∀ d, ∀ r ∈ s₁.kept m.covers d,
      s₁.emptied.Replayable codec r ∧ s₁.emptied.disk r.key = d := by
    intro d r hr
    obtain ⟨hr, hk, -⟩ := mem_kept.mp hr
    obtain ⟨hrep, hd, -⟩ := hc.sound.data d r ((hc.logs d).subset hr) hk
    rw [← hc.se] at hrep hd
    exact ⟨hrep.grow s₁.grows_emptied, hd⟩
  have hempty : (s₁.emptied.withIndex .empty).Holds codec fun _ => none := by
    obtain ⟨last, hse, -⟩ := hc.sound.engine
    rw [← hc.se] at hse
    exact holds_emptied hse
  obtain ⟨idx, hidx, hholds⟩ := holds_replayDisks hempty hkept (replayNowUs m.clock localUs)
  refine ⟨idx, _, hidx, hholds, fun k => ?_⟩
  have hdisk : s.se.disk k = s₁.emptied.disk k := by
    rw [← hc.se]
    rfl
  have hpos : 0 < s₁.emptied.numDisks := by
    show 0 < s₁.se.numDisks
    rw [hc.se]
    exact hc.sound.numDisks_pos
  rw [lastSettled, recordsIn_flatMap (fun d r hr => (hkept d r hr).2) nodup_range
    (mem_range.mpr (diskFor_lt hpos k)), hdisk]

/-- The dead ranges after the cut do not reach above the engine's version, and
leave the marker itself alone. -/
theorem Crashed.dead_cutMarker :
    (∀ r ∈ (s₁.cutMarker m).dead, r.hi ≤ s₁.maxVersion) ∧
      isDead (s₁.cutMarker m).dead m.ver = false := by
  obtain ⟨hm, hmax, -⟩ := hc.newest_spec
  have halive : ∀ r ∈ m.dead, ¬(r.contains m.ver = true) := by
    have hdead := (hc.sound.mark m (.inl (hc.logged hm))).2.1
    rw [← Bool.not_eq_true, isDead_iff] at hdead
    exact fun r hr hv => hdead ⟨r, hr, hv⟩
  constructor
  · intro r hr
    rcases mem_deadAfterCut hr with ⟨hr, v, hv, hin⟩ | ⟨rfl, -⟩
    · have hout := halive r hr
      rw [VersionRange.contains_iff] at hin hout
      omega
    · exact Nat.le_refl _
  · rw [← Bool.not_eq_true, isDead_iff]
    rintro ⟨r, hr, hin⟩
    rcases mem_deadAfterCut hr with ⟨hr, -⟩ | ⟨rfl, -⟩
    · exact halive r hr hin
    · exact absurd (VersionRange.contains_iff.mp hin).1 (Nat.lt_irrefl _)

/-- The marker that opening resumes from cuts like the one in the log. -/
theorem Crashed.sameMark_cutMarker :
    (s₁.resumed codec localUs m).SameMark (s₁.cutMarker m) m where
  index := rfl
  clock := rfl
  floor := rfl
  dead := by
    intro d r hr hk hle
    have hle' : r.version ≤ m.ver := hle
    rw [hc.isDead_cutMarker hr hk, covers, decide_eq_true hle', Bool.true_and, Bool.not_not]

theorem Crashed.marks (hm : (s₁.resumed codec localUs m).Marks m') :
    ∃ m'', s₁.Logged m'' ∧ m'.ver = m''.ver ∧ (s₁.resumed codec localUs m).SameMark m' m'' := by
  rcases hm with hm | hm
  · exact ⟨m', hm, rfl, rfl, rfl, rfl, fun _ _ _ _ _ => rfl⟩
  · cases hm
    exact ⟨m, hc.newest_spec.1, rfl, hc.sameMark_cutMarker⟩

/-- What is alive after the open is what the cut kept. -/
theorem Crashed.alive_resumed (hr : r ∈ s₁.logs d)
    (hk : r.key ≠ appliedMarkerKey) :
    (s₁.resumed codec localUs m).alive r.version = m.covers r.version := by
  show (!isDead (s₁.cutMarker m).dead r.version) = _
  rw [hc.isDead_cutMarker hr hk, Bool.not_not]

theorem Crashed.grows_resumed (localUs : Int) : s.se.Grows (s₁.resumed codec localUs m).se := by
  obtain ⟨idx, last, hidx, -⟩ := hc.replayed localUs
  rw [hidx, ← hc.se]
  exact ⟨rfl, rfl, fun _ => VLog.Extends.refl _⟩

/-- What a marker covers reads after the open as it did before the crash. -/
theorem Crashed.agree_resumed (hcut : s.CutAt codec kvSep log m') (localUs : Int) :
    ((s₁.resumed codec localUs m).se.recordKeyspace codec (s₁.kept m'.covers)).AgreeFrom m'.clock
      (keyspaceAt kvSep log m'.index).1 := by
  rw [hc.kept_eq hcut, recordKeyspace_grow (hc.grows_resumed localUs) (hc.sound.kept_stored _)]
  exact hcut.agree

/-- The index that replay builds holds the kept records and stands at the marker. -/
theorem Crashed.engine_resumed (hlog : ∀ n, (log n).Ok kvSep) (localUs : Int) :
    (∃ last, (s₁.resumed codec localUs m).se.Holds codec last ∧ last appliedMarkerKey = none ∧
      ∀ k r, last k = some r →
        (s₁.resumed codec localUs m).se.Direct r ∧ r.replayed.stampUs ≠ 0) ∧
      (s₁.resumed codec localUs m).se.StandsAt codec kvSep log m.index ⟨m.clock, m.floor⟩ := by
  obtain ⟨idx, last, hidx, hholds, hlast⟩ := hc.replayed localUs
  have hmem : ∀ k r, last k = some r → ∃ r' ∈ s₁.kept m.covers (s.se.disk k),
      r'.key = k ∧ r = r'.settled (replayNowUs m.clock localUs) := by
    intro k r hr
    rw [hlast] at hr
    obtain ⟨r', hl, rfl⟩ := Option.map_eq_some_iff.mp hr
    obtain ⟨hmem, hk⟩ := mem_recordsIn.mp (mem_of_getLast? hl)
    exact ⟨r', hmem, hk, rfl⟩
  refine ⟨⟨last, hidx ▸ hholds, ?_, fun k r hr => ?_⟩,
    (hc.cutAt hc.newest_spec.1 (Nat.le_refl _)).clock, ?_⟩
  · cases hl : last appliedMarkerKey with
    | none => rfl
    | some r =>
      obtain ⟨r', hr', hk, -⟩ := hmem _ r hl
      exact absurd hk (mem_kept.mp hr').2.1
  · obtain ⟨r', hr', -, rfl⟩ := hmem k r hr
    obtain ⟨hr', hk, -⟩ := mem_kept.mp hr'
    obtain ⟨hrep, -, hstamp⟩ := hc.sound.data _ r' ((hc.logs _).subset hr') hk
    exact settled_direct (hrep.direct.grow (hc.grows_resumed localUs)) hstamp _
  · have hkeys : (s₁.resumed codec localUs m).se.keyspace codec = fun k =>
        ((recordsIn (s₁.kept m.covers (s.se.disk k)) k).getLast?.map
          (·.settled (replayNowUs m.clock localUs))).bind (s.se.cell codec) := by
      funext k
      rw [hidx, hholds.keyspace_eq, hlast]
      cases hl : (recordsIn (s₁.kept m.covers (s.se.disk k)) k).getLast? with
      | none => rfl
      | some => rw [← hc.se]; rfl
    rw [hkeys]
    exact hc.agree_settled hlog localUs

theorem Crashed.mark_resumed (hfits : (s₁.cutMarker m).Fits)
    (hm : (s₁.resumed codec localUs m).Marks m') :
    m'.Fits ∧ isDead m'.dead m'.ver = false ∧ m'.ver ≤ m.ver := by
  obtain ⟨m'', hlogged, hver, -⟩ := hc.marks hm
  have hle : m'.ver ≤ m.ver := hver ▸ hc.newest_spec.2.2 m'' hlogged
  rcases hm with hm | hm
  · obtain ⟨hfits, hdead, -⟩ := hc.sound.mark m' (.inl (hc.logged hm))
    exact ⟨hfits, hdead, hle⟩
  · cases hm
    exact ⟨hfits, hc.dead_cutMarker.2, hle⟩

theorem Crashed.same_resumed {m₁ m₂ : AppliedMarker} (hm₁ : (s₁.resumed codec localUs m).Marks m₁)
    (hm₂ : (s₁.resumed codec localUs m).Marks m₂) (hver : m₁.ver = m₂.ver) :
    (s₁.resumed codec localUs m).SameMark m₁ m₂ := by
  obtain ⟨m₁', hl₁, hv₁, hsame₁⟩ := hc.marks hm₁
  obtain ⟨m₂', hl₂, hv₂, hsame₂⟩ := hc.marks hm₂
  have hold := hc.sound.same m₁' m₂' (.inl (hc.logged hl₁)) (.inl (hc.logged hl₂)) (by omega)
  have hmid : (s₁.resumed codec localUs m).SameMark m₁' m₂' :=
    { hold with dead := fun d r hr => hold.dead d r ((hc.logs d).subset hr) }
  exact (hsame₁.trans hmid hv₁).trans (hsame₂.symm hv₂) (by omega)

theorem Crashed.sound_resumed (hlog : ∀ n, (log n).Ok kvSep) (hfits : (s₁.cutMarker m).Fits)
    (localUs : Int) : (s₁.resumed codec localUs m).Sound codec kvSep log := by
  obtain ⟨idx, last, hidx, -⟩ := hc.replayed localUs
  obtain ⟨hm, hmax, -⟩ := hc.newest_spec
  obtain ⟨hengine, hstands⟩ := hc.engine_resumed hlog localUs
  have hg := hc.grows_resumed localUs
  have hver : (s₁.resumed codec localUs m).se.version = s₁.maxVersion := by
    rw [hidx]
    rfl
  have hsync : ∀ d, ((s₁.resumed codec localUs m).logs d).drop
      ((s₁.resumed codec localUs m).synced d) = [] := fun d => drop_length
  exact
    { kvSep_eq := hg.kvSep.trans hc.sound.kvSep_eq
      numDisks_pos := by
        rw [hg.numDisks]
        exact hc.sound.numDisks_pos
      engine := hengine
      wals := by
        intro d
        rw [hidx]
        rfl
      standsAt := hstands
      routed := by
        intro d hd
        rw [hg.numDisks] at hd
        have hnil := hc.logs d
        rw [hc.sound.routed d hd] at hnil
        exact prefix_nil.mp hnil
      synced_le := fun d => Nat.le_refl _
      torn_eq := fun d n hn => ⟨hc.torn d n hn, (hc.torn d n hn).symm⟩
      version_le := by
        intro d r hr
        rw [hver]
        exact hc.le_maxVersion hr
      data := by
        intro d r hr hk
        obtain ⟨hrep, hd, hstamp⟩ := hc.sound.data d r ((hc.logs d).subset hr) hk
        exact ⟨hrep.grow hg, (hg.disk _).trans hd, hstamp⟩
      tracked := by
        intro t ht
        cases ht
        rw [hver]
        exact ⟨hmax, hc.dead_cutMarker.1⟩
      mark := by
        intro m' hm'
        obtain ⟨hfits', hdead, hle⟩ := hc.mark_resumed hfits hm'
        exact ⟨hfits', hdead, s₁.cutMarker m, rfl, hle⟩
      same := fun _ _ => hc.same_resumed
      current := by
        have hkept : (s₁.resumed codec localUs m).kept (s₁.resumed codec localUs m).alive =
            s₁.kept m.covers :=
          funext fun d => kept_congr fun r hr hk => hc.alive_resumed hr hk
        rw [hkept]
        exact hc.agree_resumed (hc.cutAt hm (Nat.le_refl _)) localUs
      cut := by
        intro m' hm' hdur
        have hver' : m.ver ≤ m'.ver := by
          refine hdur m ?_
          obtain ⟨d, r, hr, hmark⟩ := hm
          exact ⟨d, r, take_length.symm ▸ hr, hmark⟩
        have hcut := hc.cutAt hm' hver'
        refine ⟨hcut.clock, hc.agree_resumed hcut localUs, fun d r hr => ?_⟩
        rw [hsync] at hr
        cases hr
      settled := fun _ =>
        { synced := fun d r hr => by
            rw [hsync] at hr
            cases hr
          named := by
            intro t ht
            cases ht
            refine ⟨rfl, rfl, fun d r hr hk halive => ?_⟩
            rw [hc.alive_resumed hr hk] at halive
            exact of_decide_eq_true (Bool.and_eq_true_iff.mp halive).1
          fresh := fun ht => (by cases ht) } }

end Crashed

end Open

/-! ## Runs -/

section Run

variable {keepTombstone : Int → Int → Bool} {s' : RaftSys}

theorem sound_create (codec : ValueCodec) (kvSep : Bool) (log : Nat → RaftEntry)
    {numDisks : Nat} (hpos : 0 < numDisks) :
    (create kvSep numDisks).Sound codec kvSep log where
  kvSep_eq := rfl
  numDisks_pos := hpos
  engine := ⟨_, holds_create codec kvSep numDisks, rfl, fun k r hr => (by cases hr)⟩
  wals := fun _ => rfl
  standsAt := ⟨rfl, fun _ _ _ => rfl⟩
  routed := fun _ _ => rfl
  synced_le := fun _ => Nat.le_refl _
  torn_eq := fun d n hn => (by cases hn)
  version_le := fun d r hr => (by cases hr)
  data := fun d r hr => (by cases hr)
  tracked := fun t ht => (by cases ht)
  mark := by
    rintro m (⟨d, r, hr, -⟩ | hm)
    · cases hr
    · cases hm
  same := by
    rintro m m' (⟨d, r, hr, -⟩ | hm) -
    · cases hr
    · cases hm
  current := fun _ _ _ => rfl
  cut := by
    rintro m ⟨d, r, hr, -⟩
    cases hr
  settled := fun _ =>
    { synced := fun d r hr => (by cases hr)
      named := fun t ht => (by cases ht)
      fresh := fun _ => ⟨fun _ => rfl, rfl⟩ }

section

variable (hlog : ∀ n, (log n).Ok kvSep)
include hlog

/-- Every step that meets the conditions keeps the engine and every marker that a
crash may cut at in agreement with the entries they stand for. -/
theorem Sound.step (h : s.Sound codec kvSep log)
    (hstep : Step codec .sound keepTombstone log s s') : s'.Sound codec kvSep log := by
  obtain ⟨last, hse, hnone, hlast⟩ := h.engine
  cases hstep with
  | apply pool localUs se' hse' hP =>
    obtain ⟨⟨rs, es, hw⟩, hat⟩ := h.standsAt.applyCmd hlog hse h.kvSep_eq h.numDisks_pos pool
      localUs
    obtain ⟨hlocal, -, -, hlt, -⟩ := s.clock.next_spec (hlog (s.index + 1)).1 localUs
    subst hse'
    refine h.applied hw hse hnone hlast ?_ hat hP
    rw [hlocal]
    exact Int.le_of_lt hlt
  | applyPuts n localUs c reqs hreqs hP =>
    obtain ⟨⟨rs, es, hw⟩, hle, hat⟩ := h.standsAt.multiPut hlog hse h.kvSep_eq h.numDisks_pos hreqs
    exact h.applied hw hse hnone hlast hle hat hP
  | sync d n hle hn =>
    refine h.sync ?_ ?_
    · exact (forall_update_iff _ fun d n => s.synced d ≤ n).mpr ⟨hle, fun _ _ => Nat.le_refl _⟩
    · exact (forall_update_iff _ fun d n => n ≤ (s.logs d).length).mpr
        ⟨hn, fun d _ => h.synced_le d⟩
  | marker nowNs hrun hP hm => exact h.writeMarker nowNs hrun hP hm
  | checkpoint d nowNs markerNs hquiet hd hP => exact h.checkpoint hquiet hd hP
  | crash _ keep tear localUs hkeep htear hopen hm =>
    obtain ⟨m, hnew⟩ := newest_of_reopen hopen
    rw [reopen_of_newest h.parsed_crash hnew] at hopen
    cases hopen
    exact (h.crashed hkeep hnew).sound_resumed hlog (hm _ rfl) localUs

theorem Sound.steps (h : s.Sound codec kvSep log)
    (hrun : Relation.ReflTransGen (Step codec .sound keepTombstone log) s s') :
    s'.Sound codec kvSep log := by
  induction hrun with
  | refl => exact h
  | tail _ hstep ih => exact ih.step hlog hstep

end

/-- After any run of lives, opening cuts at the newest marker and resumes with
the state after its entries, and everything later stays in step with the
entries: nothing that the cut left out comes back. -/
theorem Run.open_eq {numDisks : Nat} {keep : Nat → Nat} {tear : Nat → Bool}
    {m : AppliedMarker} (hlog : ∀ n, (log n).Ok kvSep) (hpos : 0 < numDisks)
    (hrun : Run codec .sound keepTombstone log kvSep numDisks s)
    (hkeep : ∀ d, s.synced d ≤ keep d ∧ keep d ≤ (s.logs d).length)
    (hm : (s.crash keep tear).newest = some m) (hfits : ((s.crash keep tear).cutMarker m).Fits)
    (pool : Nat → WALEntry) (localUs : Int) :
    ∃ s', (s.crash keep tear).reopen codec localUs = some s' ∧ s'.index = m.index ∧
      ∀ s'', Relation.ReflTransGen (Step codec .sound keepTombstone log) s' s'' →
        ∀ k nowUs, s''.clock.last ≤ nowUs → (s''.se.keyspace codec).read k nowUs =
          ((inOrder codec pool kvSep numDisks log s''.index).1.keyspace codec).read k
            nowUs := by
  have hsound := (sound_create codec kvSep log hpos).steps hlog hrun
  have hopened := (hsound.crashed hkeep hm).sound_resumed hlog hfits localUs
  refine ⟨_, reopen_of_newest hsound.parsed_crash hm, rfl, fun s'' hlater k nowUs hnow => ?_⟩
  have hat := (hopened.steps hlog hlater).standsAt
  have hfresh := standsAt_inOrder codec pool hpos hlog s''.index
  have hclock : (inOrder codec pool kvSep numDisks log s''.index).2 = s''.clock :=
    hfresh.clock.trans hat.clock.symm
  have hagree := hfresh.keyspace
  rw [hclock] at hagree
  exact (hat.keyspace.trans hagree.symm) k nowUs hnow

end Run

end RaftSys

def putLog (ttl : Int) : Nat → RaftEntry := fun n =>
  { term := 1, ts := 10, cmd := .put [107] [UInt8.ofNat (96 + n)] ttl .done }

theorem putLog_ok (ttl : Int) (n : Nat) : (putLog ttl n).Ok true :=
  ⟨Int.natCast_pos.mpr (Nat.succ_pos 9), ⟨by simp [appliedMarkerKey], fun h => (by cases h)⟩, trivial⟩

def pooledRecord : Nat → WALEntry := fun _ => putRecord 0 0 [] [] 0 false

/-- Small numbers fit. -/
theorem AppliedMarker.fits_of_lt {index ver : Nat} {dead : List VersionRange} {clock : Int}
    (hindex : index < 2 ^ 16) (hver : ver < 2 ^ 16)
    (hdead : ∀ r ∈ dead, r.lo < 2 ^ 16 ∧ r.hi < 2 ^ 16) (hlen : dead.length < 2 ^ 16)
    (hpos : 0 ≤ clock) (hclock : clock < 2 ^ 16) :
    AppliedMarker.Fits ⟨index, 1, 0, ver, dead, clock, 10⟩ where
  index_lt := by simp only; omega
  term_lt := by simp only; omega
  ver_lt := by simp only; omega
  dead_lt := fun r hr => by
    have := hdead r hr
    omega
  dead_length := by simp only; omega
  clock_range := by simp only; omega
  floor_range := by simp only; omega

theorem AppliedMarker.fits_first : AppliedMarker.Fits ⟨1, 1, 0, 2, [], 10, 10⟩ :=
  fits_of_lt (by decide) (by decide) (by decide) (by decide) (by decide) (by decide)

/-- Two disks.  The first life applies an entry, writes its marker and applies a
second entry, whose record survives the crash above the marker.  Opening cuts
it, the second life applies the entry again and writes a marker that carries the
dead range, and the record of the first life is still in the log when the second
life ends. -/
theorem open_eq_two_lives :
    ∃ s m, RaftSys.Run .plain .sound (fun _ _ => false) (putLog 0) true 2 s ∧
      (s.logs 0).map (·.version) = [1, 3, 4] ∧ m.index = 2 ∧ m.ver = 5 ∧ m.dead = [⟨2, 3⟩] ∧
      (s.crash (fun d => (s.logs d).length) fun _ => false).newest = some m ∧
      ∃ s', (s.crash (fun d => (s.logs d).length) fun _ => false).reopen .plain 30 = some s' ∧
        s'.index = m.index ∧
        ∀ s'', Relation.ReflTransGen (RaftSys.Step .plain .sound (fun _ _ => false) (putLog 0)) s' s'' →
          ∀ k nowUs, s''.clock.last ≤ nowUs → (s''.se.keyspace .plain).read k nowUs =
            ((inOrder .plain pooledRecord true 2 (putLog 0) s''.index).1.keyspace
              .plain).read k nowUs := by
  have hcut : AppliedMarker.Fits ⟨1, 1, 0, 2, [⟨2, 3⟩], 10, 10⟩ :=
    fits_of_lt (by decide) (by decide) (by decide) (by decide) (by decide) (by decide)
  have hsecond : AppliedMarker.Fits ⟨2, 1, 0, 5, [⟨2, 3⟩], 11, 10⟩ :=
    fits_of_lt (by decide) (by decide) (by decide) (by decide) (by decide) (by decide)
  have h₀ : RaftSys.Run .plain .sound (fun _ _ => false) (putLog 0) true 2 (.create true 2) := .refl
  have h₁ := h₀.tail (.apply _ pooledRecord 0 _ rfl fun _ _ => rfl)
  have h₂ := h₁.tail (.sync _ 0 1 (Nat.zero_le _) (Nat.le_refl _))
  have h₃ := h₂.tail (.marker _ 20000 (by rintro (_ | _ | d) r hr <;> cases hr) rfl fits_first)
  have h₄ := h₃.tail (.sync _ 1 1 (by decide) (Nat.le_refl _))
  have h₅ := h₄.tail (.apply _ pooledRecord 0 _ rfl fun _ _ => rfl)
  have h₆ := h₅.tail (.crash _ _ (fun d => if d = 0 then 2 else if d = 1 then 1 else 0)
    (fun _ => false) 30
    (by
      rintro (_ | _ | d)
      · exact ⟨Nat.le_succ _, Nat.le_refl _⟩
      · exact ⟨Nat.le_refl _, Nat.le_refl _⟩
      · exact ⟨Nat.le_refl _, Nat.zero_le _⟩)
    (fun d h => by cases h)
    (reopen_eq (m := ⟨1, 1, 0, 2, [], 10, 10⟩)
      (by
        refine newestMarker_concat_record [_, _] fits_first (fun e he hkey => ?_) 20000
        rcases mem_pair.mp he with rfl | rfl <;> cases hkey) 30)
    (by
      intro m hm
      cases hm
      exact hcut))
  have h₇ := h₆.tail (.apply _ pooledRecord 0 _ rfl fun _ _ => rfl)
  have h₈ := h₇.tail (.sync _ 0 3 (by decide) (Nat.le_refl _))
  have h₉ := h₈.tail (.marker _ 20000 (by rintro (_ | _ | d) r hr <;> cases hr) rfl hsecond)
  have h₁₀ := h₉.tail (.sync _ 1 2 (Nat.le_succ 1) (Nat.le_refl _))
  have hlast : ∃ s, RaftSys.Run .plain .sound (fun _ _ => false) (putLog 0) true 2 s ∧
      (∀ d, s.synced d = (s.logs d).length) ∧ (s.logs 0).map (·.version) = [1, 3, 4] ∧
      (s.crash (fun d => (s.logs d).length) fun _ => false).newest =
        some ⟨2, 1, 0, 5, [⟨2, 3⟩], 11, 10⟩ ∧
      ((s.crash (fun d => (s.logs d).length) fun _ => false).cutMarker
        ⟨2, 1, 0, 5, [⟨2, 3⟩], 11, 10⟩).Fits := by
    refine ⟨_, h₁₀, ?_, rfl, newestMarker_concat_record [_, _, _, _] hsecond ?_ 20000, hsecond⟩
    · rintro (_ | _ | d) <;> rfl
    · intro e he hkey
      simp only [mem_cons, not_mem_nil, or_false] at he
      rcases he with rfl | rfl | rfl | rfl
      · cases hkey
      · cases hkey
      · cases hkey
      · exact Nat.le_add_right 2 3
  obtain ⟨s, hrun, hsync, hversions, hnew, hfits⟩ := hlast
  exact ⟨s, _, hrun, hversions, rfl, rfl, rfl, hnew, RaftSys.Run.open_eq (putLog_ok 0) Nat.two_pos
    hrun (fun d => ⟨Nat.le_of_eq (hsync d), Nat.le_refl _⟩) hnew hfits pooledRecord 30⟩

theorem RaftSys.checkpoint_of_nil {keepTombstone : Int → Int → Bool} {t : AppliedMarker}
    {nowNs markerNs : Int} (ht : s.tracker = some t)
    (hnil : s.se.index.checkpointShards s.se.kvSep keepTombstone t.ver nowNs
      (diskShards d s.se.numDisks) = []) :
    s.checkpoint keepTombstone d nowNs markerNs =
      { s with
        logs := update s.logs d (t.record markerNs :: (s.logs d).drop (s.synced d))
        synced := update s.synced d 1
        torn := update s.torn d none } := by
  have himage : s.image keepTombstone d t.ver nowNs markerNs = [t.record markerNs] := by
    rw [image, hnil, ht]
    rfl
  simp only [checkpoint, ht, checkpointAt, himage]
  rfl

/-- A checkpoint that judges expiry by the local clock drops a key that the raft
clock still holds, and a record after a torn one is lost although the marker
of its entry on another disk is not: in both cases opening resumes at the newest
marker without what its entries wrote. -/
theorem open_ne_checkpoint_torn :
    (∃ s s', RaftSys.Run .plain .none (fun _ _ => false) (putLog 1) true 1 s ∧
      (∀ d, s.synced d = (s.logs d).length) ∧
      (s.crash (fun d => (s.logs d).length) fun _ => false).reopen .plain 2000000 = some s' ∧
      s'.index = 1 ∧ s'.clock.last = 10 ∧ (s'.se.keyspace .plain).read [107] 10 = none ∧
      ((inOrder .plain pooledRecord true 1 (putLog 1) 1).1.keyspace .plain).read [107] 10 =
        some (10, [97], 1000010)) ∧
    ∃ s s', RaftSys.Run .plain .none (fun _ _ => false) (putLog 0) true 2 s ∧
      (∀ d, s.synced d = (s.logs d).length) ∧
      (s.crash (fun d => (s.logs d).length) fun _ => false).reopen .plain 30 = some s' ∧
      s'.index = 2 ∧ s'.clock.last = 11 ∧
      (s'.se.keyspace .plain).read [107] 11 = some (10, [97], 0) ∧
      ((inOrder .plain pooledRecord true 2 (putLog 0) 2).1.keyspace .plain).read [107] 11 =
        some (11, [98], 0) := by
  constructor
  · have h₀ : RaftSys.Run .plain .none (fun _ _ => false) (putLog 1) true 1 (.create true 1) :=
      .refl
    have h₁ := h₀.tail (.apply _ pooledRecord 0 _ rfl fun _ _ => trivial)
    have h₂ := h₁.tail (.sync _ 0 1 (Nat.zero_le _) (Nat.le_refl _))
    have h₃ := h₂.tail (.marker _ 20000 (by rintro (_ | d) r hr <;> cases hr) trivial trivial)
    have h₄ := h₃.tail (.sync _ 0 2 (by decide) (Nat.le_refl _))
    have h₅ := h₄.tail (.checkpoint _ 0 2000000000 20000 rfl Nat.one_pos trivial)
    rw [checkpoint_of_nil (t := ⟨1, 1, 0, 2, [], 10, 10⟩) rfl
      (ShardedIndex.checkpointShards_eq_nil (fun k hk => by
        cases hk with
        | head => rfl
        | tail _ hk => cases hk) _)] at h₅
    refine ⟨_, _, h₅, ?_, reopen_eq (m := ⟨1, 1, 0, 2, [], 10, 10⟩) ?_ 2000000, rfl, rfl, ?_, ?_⟩
    · rintro (_ | d) <;> rfl
    · exact newestMarker_concat_record [] fits_first (fun e he => (by cases he)) 20000
    · rfl
    · rfl
  · have hm' : AppliedMarker.Fits ⟨2, 1, 0, 4, [], 11, 10⟩ := fits_of_lt (by decide)
      (by decide) (by decide) (by decide) (by decide) (by decide)
    have h₀ : RaftSys.Run .plain .none (fun _ _ => false) (putLog 0) true 2 (.create true 2) :=
      .refl
    have h₁ := h₀.tail (.apply _ pooledRecord 0 _ rfl fun _ _ => trivial)
    have h₂ := h₁.tail (.sync _ 0 1 (Nat.zero_le _) (Nat.le_refl _))
    have h₃ := h₂.tail (.marker _ 20000 (by rintro (_ | _ | d) r hr <;> cases hr) trivial trivial)
    have h₄ := h₃.tail (.sync _ 1 1 (by decide) (Nat.le_refl _))
    have h₅ := h₄.tail (.apply _ pooledRecord 0 _ rfl fun _ _ => trivial)
    have h₆ := h₅.tail (.crash _ _ (fun d => if d < 2 then 1 else 0) (fun d => decide (d = 0)) 30
      (by
        rintro (_ | _ | d)
        · exact ⟨Nat.le_refl _, Nat.le_succ _⟩
        · exact ⟨Nat.le_refl _, Nat.le_refl _⟩
        · exact ⟨Nat.le_refl _, Nat.zero_le _⟩)
      (by
        rintro (_ | _ | d) h
        · exact Nat.lt_succ_self _
        · cases h
        · cases h)
      (reopen_eq (m := ⟨1, 1, 0, 2, [], 10, 10⟩)
        (by
          refine newestMarker_concat_record [_] fits_first (fun e he _ => ?_) 20000
          cases he with
          | head => exact Nat.le_succ 1
          | tail _ he => cases he) 30)
      fun _ _ => trivial)
    have h₇ := h₆.tail (.apply _ pooledRecord 0 _ rfl fun _ _ => trivial)
    have h₈ := h₇.tail (.sync _ 0 2 (Nat.le_succ 1) (Nat.le_refl _))
    have h₉ := h₈.tail (.marker _ 20000 (by rintro (_ | _ | d) r hr <;> cases hr) trivial trivial)
    have h₁₀ := h₉.tail (.sync _ 1 2 (Nat.le_succ 1) (Nat.le_refl _))
    refine ⟨_, _, h₁₀, ?_, reopen_eq (m := ⟨2, 1, 0, 4, [], 11, 10⟩) ?_ 30, rfl, rfl, ?_, ?_⟩
    · rintro (_ | _ | d) <;> rfl
    · exact newestMarker_concat_record [_, _] hm' (forall_mem_cons.mpr
        ⟨fun _ => Nat.le_add_right 1 3, forall_mem_singleton.mpr fun _ => Nat.le_add_right 2 2⟩) 20000
    · rfl
    · rfl

end Invariant

end VeltrixDB.Storage
