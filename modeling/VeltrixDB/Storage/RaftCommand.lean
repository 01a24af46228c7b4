import VeltrixDB.Storage.AppliedMarker
import VeltrixDB.Storage.Recover

/-!
# Raft commands on the engine

A raft command runs at one time that every node derives from the log
(`storage/raft_clock.go`, `applyOne` in `cmd/server/raft_fsm.go`): its
writes are stamped with it, and what it decides it decides from reads at it.
The keyspace is what raft replicates; the engine holds it in an index, value
logs and a log of records.

Main results:

- Theorem `Engine.Wrote.keyspace_eq`: what an operation logged is what it did
  to the keyspace.
- Theorem `Engine.Holds.applyCmd`: a command does to the engine what it does to
  the keyspace, and logs records that replay rebuilds.
-/

namespace VeltrixDB.Storage

open Function List

/-! ## Keyspaces -/

/-- What a key holds: the stamp of its last write, the value and the
deadline. -/
abbrev Cell := Int × List UInt8 × Int

/-- What raft replicates. -/
abbrev Keyspace := Key → Option Cell

/-- What is left of a cell at `nowUs`. -/
def Cell.at (nowUs : Int) (c : Cell) : Option Cell :=
  (unexpired nowUs c.2).map fun p => (c.1, p)

/-- What a read of a key at `nowUs` finds. -/
def Keyspace.read (σ : Keyspace) (k : Key) (nowUs : Int) : Option Cell :=
  (σ k).bind (Cell.at nowUs)

def Keyspace.write (σ : Keyspace) (es : List (Key × Option Cell)) : Keyspace :=
  es.foldl (fun σ e => update σ e.1 e.2) σ

/-- No read from `t` on tells the two apart. -/
def Keyspace.AgreeFrom (t : Int) (σ σ' : Keyspace) : Prop :=
  ∀ k nowUs, t ≤ nowUs → σ.read k nowUs = σ'.read k nowUs

/-! ## Commands -/

/-- What a command does, one engine operation after the other.  Further
operations may depend on what a read finds. -/
inductive RaftCmd where
  | done
  | put (key : Key) (value : List UInt8) (ttl : Int) (next : RaftCmd)
  | delete (key : Key) (next : RaftCmd)
  | multiPut (reqs : List (Key × List UInt8 × Int)) (next : RaftCmd)
  | atomic (key : Key) (op : AtomicOp) (ttl : Int) (next : RaftCmd)
  | read (key : Key) (next : Option Cell → RaftCmd)

/-- The deadline that a time to live gives, 0 for none. -/
def deadlineUs (nowUs ttl : Int) : Int :=
  if 0 < walTTLExpiryUs nowUs ttl then walTTLExpiryUs nowUs ttl else 0

def putCell (clk : WriteClock) (value : List UInt8) (ttl : Int) : Cell :=
  (clk.stampUs, value, deadlineUs clk.nowUs ttl)

/-- The value an atomic operation writes when it finds `cur`, if it
writes. -/
def AtomicOp.value (cur : Option (List UInt8)) : AtomicOp → Option (List UInt8)
  | .compareAndSwap expected newValue =>
    match cur with
    | some c => if c = expected then some newValue else none
    | none => none
  | .increment delta =>
    match cur with
    | some c => (parseInt c).map fun n => formatInt (saturatingAdd n delta)
    | none => some (formatInt (saturatingAdd 0 delta))
  | .setIfNotExists value =>
    match cur with
    | some _ => none
    | none => some value

def batchCells (reqs : List MultiPutRequest) : List (Key × Option Cell) :=
  reqs.map fun q => (q.key, some (putCell q.clk q.value q.ttl))

def batchAt (clk : WriteClock) (reqs : List (Key × List UInt8 × Int)) : List MultiPutRequest :=
  reqs.map fun q => { clk := clk, key := q.1, value := q.2.1, ttl := q.2.2 }

/-- What a command does to the keyspace.  Atomic operations are refused without
key-value separation. -/
def RaftCmd.run (kvSep : Bool) (clk : WriteClock) : RaftCmd → Keyspace → Keyspace
  | .done, σ => σ
  | .put key value ttl next, σ =>
    next.run kvSep clk (σ.write [(key, some (putCell clk value ttl))])
  | .delete key next, σ => next.run kvSep clk (σ.write [(key, none)])
  | .multiPut reqs next, σ => next.run kvSep clk (σ.write (batchCells (batchAt clk reqs)))
  | .atomic key op ttl next, σ =>
    if kvSep then
      match op.value ((σ.read key clk.nowUs).map fun c => c.2.1) with
      | some value => next.run kvSep clk (σ.write [(key, some (putCell clk value ttl))])
      | none => next.run kvSep clk σ
    else next.run kvSep clk σ
  | .read key next, σ => (next (σ.read key clk.nowUs)).run kvSep clk σ

def Engine.keyspace (codec : ValueCodec) (se : Engine) : Keyspace := fun k =>
  (se.index.visible codec se.vlogs k).bind fun c => c.2.map fun p => (c.1, p)

/-- Run a command.  Deletes build their records in pooled ones. -/
def Engine.applyCmd (codec : ValueCodec) (pool : Nat → WALEntry) (clk : WriteClock) :
    RaftCmd → Engine → Engine
  | .done, se => se
  | .put key value ttl next, se =>
    applyCmd codec pool clk next (se.putOrigin codec clk key value ttl 0 false)
  | .delete key next, se =>
    applyCmd codec pool clk next (se.delOrigin clk (pool se.version) key false)
  | .multiPut reqs next, se => applyCmd codec pool clk next (se.multiPut codec (batchAt clk reqs))
  | .atomic key op ttl next, se =>
    applyCmd codec pool clk next (se.atomic codec clk key op ttl)
  | .read key next, se =>
    applyCmd codec pool clk (next ((se.keyspace codec).read key clk.nowUs)) se

/-- A put that is logged with its value and not under the reserved key. -/
def PutOk (kvSep : Bool) (key : Key) (value : List UInt8) : Prop :=
  key ≠ appliedMarkerKey ∧ (kvSep = false → value ≠ [])

/-- No operation of the command writes the reserved key, and without key-value
separation none writes an empty value. -/
def RaftCmd.Ok (kvSep : Bool) : RaftCmd → Prop
  | .done => True
  | .put key value _ next => PutOk kvSep key value ∧ next.Ok kvSep
  | .delete key next => key ≠ appliedMarkerKey ∧ next.Ok kvSep
  | .multiPut reqs next => (∀ q ∈ reqs, PutOk kvSep q.1 q.2.1) ∧ next.Ok kvSep
  | .atomic key _ _ next => key ≠ appliedMarkerKey ∧ next.Ok kvSep
  | .read _ next => ∀ c, (next c).Ok kvSep

/-! ## Agreement of keyspaces -/

section Keyspaces

variable {σ σ' : Keyspace} {t : Int}

namespace Keyspace

theorem AgreeFrom.symm (h : σ.AgreeFrom t σ') : σ'.AgreeFrom t σ :=
  fun k nowUs ht => (h k nowUs ht).symm

theorem AgreeFrom.trans {σ'' : Keyspace} (h : σ.AgreeFrom t σ') (h' : σ'.AgreeFrom t σ'') :
    σ.AgreeFrom t σ'' := fun k nowUs ht => (h k nowUs ht).trans (h' k nowUs ht)

theorem AgreeFrom.mono (h : σ.AgreeFrom t σ') {t' : Int} (ht : t ≤ t') :
    σ.AgreeFrom t' σ' := fun k nowUs ht' => h k nowUs (ht.trans ht')

/-- The last change of a key decides. -/
theorem write_apply (σ : Keyspace) (es : List (Key × Option Cell)) (k : Key) :
    σ.write es k = (((es.filter fun e => e.1 = k).getLast?).map Prod.snd).getD (σ k) := by
  induction es using List.reverseRecOn with
  | nil => rfl
  | append_singleton es e ih =>
    have hstep : σ.write (es ++ [e]) = update (σ.write es) e.1 e.2 := by
      rw [write, write, foldl_append]
      rfl
    rw [hstep, filter_append]
    by_cases hk : k = e.1
    · subst hk
      simp
    · rw [update_of_ne hk, ih]
      simp [Ne.symm hk]

theorem write_append (σ : Keyspace) (es es' : List (Key × Option Cell)) :
    σ.write (es ++ es') = (σ.write es).write es' :=
  foldl_append

/-- Changes of different keys commute. -/
theorem write_congr (σ : Keyspace) {es es' : List (Key × Option Cell)}
    (h : ∀ k, (es.filter fun e => e.1 = k) = es'.filter fun e => e.1 = k) :
    σ.write es = σ.write es' := by
  funext k
  rw [write_apply, write_apply, h k]

theorem AgreeFrom.write (h : σ.AgreeFrom t σ') (es : List (Key × Option Cell)) :
    (σ.write es).AgreeFrom t (σ'.write es) := by
  intro k nowUs ht
  rw [read, read, write_apply, write_apply]
  cases ((es.filter fun e => e.1 = k).getLast?).map Prod.snd with
  | none => exact h k nowUs ht
  | some => rfl

end Keyspace

end Keyspaces

/-! ## What an operation logs -/

def Engine.cell (codec : ValueCodec) (se : Engine) (r : WALEntry) : Option Cell :=
  (se.outcome codec r).map fun p => (r.replayed.stampUs, p)

/-- The last record of each key after `rs`. -/
def lastAfter (last : Key → Option WALEntry) (rs : List WALEntry) : Key → Option WALEntry :=
  rs.foldl (fun last r => update last r.key (some r)) last

/-- Operations took the engine to `se'`, logging `rs` at versions above
`lo`, and changed the keys `es`. -/
structure Engine.Wrote (codec : ValueCodec) (lo : Nat) (se : Engine)
    (last : Key → Option WALEntry) (se' : Engine) (rs : List WALEntry)
    (es : List (Key × Option Cell)) : Prop where
  grows : se.Grows se'
  wals : ∀ d, se'.wals d = se.wals d ++ rs.filter fun r => se.disk r.key = d
  holds : se'.Holds codec (lastAfter last rs)
  replayable : ∀ r ∈ rs, se'.Replayable codec r
  version_le : se.version ≤ se'.version
  versions : ∀ r ∈ rs, lo < r.version ∧ r.version ≤ se'.version
  stamps : ∀ r ∈ rs, r.replayed.stampUs ≠ 0
  keys : ∀ r ∈ rs, r.key ≠ appliedMarkerKey
  cells : rs.map (fun r => (r.key, se'.cell codec r)) = es

/-- A write whose record replay rebuilds, at a version above `lo` that is
taken. -/
structure Engine.Loggable (codec : ValueCodec) (lo : Nat) (se : Engine) (w : Write) : Prop where
  ready : se.Ready codec w
  replayable : se.Replayable codec w.record
  lt_version : lo < w.record.version
  version_le : w.record.version ≤ se.version
  stamp : w.record.replayed.stampUs ≠ 0
  key : w.record.key ≠ appliedMarkerKey

section Wrote

variable {codec : ValueCodec} {lo : Nat} {se se' se'' : Engine} {last : Key → Option WALEntry}
  {rs rs' : List WALEntry} {es es' : List (Key × Option Cell)}

theorem lastAfter_apply (last : Key → Option WALEntry) (rs : List WALEntry) (k : Key) :
    lastAfter last rs k = ((recordsIn rs k).getLast?).or (last k) := by
  induction rs using List.reverseRecOn with
  | nil => rfl
  | append_singleton rs r ih =>
    have hstep : lastAfter last (rs ++ [r]) =
        update (lastAfter last rs) r.key (some r) := by
      rw [lastAfter, lastAfter, foldl_append]
      rfl
    rw [hstep, recordsIn_append]
    by_cases hk : k = r.key
    · subst hk
      simp [recordsIn]
    · rw [update_of_ne hk, ih]
      simp [recordsIn, Ne.symm hk]

theorem lastAfter_append (last : Key → Option WALEntry) (rs rs' : List WALEntry) :
    lastAfter last (rs ++ rs') = lastAfter (lastAfter last rs) rs' :=
  foldl_append

theorem Engine.Stored.cell_grow {r : WALEntry} (hr : se.Stored r) (h : se.Grows se') :
    se'.cell codec r = se.cell codec r := by
  rw [Engine.cell, Engine.cell, hr.outcome_grow h]

/-- The keyspace holds of each key what its last installed record leaves. -/
theorem Engine.Holds.keyspace_eq (h : se.Holds codec last) (k : Key) :
    se.keyspace codec k = (last k).bind (se.cell codec) := by
  rw [Engine.keyspace]
  rcases h.shows k with ⟨r, hr, hs⟩ | ⟨hs, hnone⟩
  · rw [hs, hr]
    rfl
  · rw [hs]
    cases hl : last k with
    | none => rfl
    | some =>
      rw [hl, Option.bind_some] at hnone
      rw [Option.bind_some, Engine.cell, hnone]
      rfl

theorem Engine.Wrote.refl (h : se.Holds codec last) (lo : Nat) :
    se.Wrote codec lo last se [] [] where
  grows := Engine.Grows.refl se
  wals := fun d => by rw [filter_nil, append_nil]
  holds := h
  replayable := fun r hr => (by cases hr)
  version_le := Nat.le_refl _
  versions := fun r hr => (by cases hr)
  stamps := fun r hr => (by cases hr)
  keys := fun r hr => (by cases hr)
  cells := rfl

theorem Engine.Wrote.trans (h : se.Wrote codec lo last se' rs es)
    (h' : se'.Wrote codec lo (lastAfter last rs) se'' rs' es') :
    se.Wrote codec lo last se'' (rs ++ rs') (es ++ es') where
  grows := h.grows.trans h'.grows
  wals := by
    intro d
    rw [h'.wals, h.wals, filter_append, append_assoc]
    simp only [h.grows.disk]
  holds := by
    rw [lastAfter_append]
    exact h'.holds
  replayable := forall_mem_append.mpr
    ⟨fun r hr => (h.replayable r hr).grow h'.grows, h'.replayable⟩
  version_le := h.version_le.trans h'.version_le
  versions := forall_mem_append.mpr
    ⟨fun r hr => ⟨(h.versions r hr).1, (h.versions r hr).2.trans h'.version_le⟩, h'.versions⟩
  stamps := forall_mem_append.mpr ⟨h.stamps, h'.stamps⟩
  keys := forall_mem_append.mpr ⟨h.keys, h'.keys⟩
  cells := by
    rw [map_append, h'.cells, ← h.cells]
    congr 1
    apply map_congr_left
    intro r hr
    rw [(h.replayable r hr).stored.cell_grow h'.grows]

theorem Engine.Wrote.weaken (h : se.Wrote codec lo last se' rs es) {lo' : Nat} (hlo : lo' ≤ lo) :
    se.Wrote codec lo' last se' rs es :=
  { h with versions := fun r hr => ⟨Nat.lt_of_le_of_lt hlo (h.versions r hr).1, (h.versions r hr).2⟩ }

/-- What was logged is what happened to the keys, wherever they stood. -/
theorem Engine.Wrote.bind_cell_eq (h : se.Wrote codec lo last se' rs es)
    (last' : Key → Option WALEntry) (hlast : ∀ k r, last' k = some r → se.Stored r) :
    (fun k => (lastAfter last' rs k).bind (se'.cell codec)) =
      Keyspace.write (fun k => (last' k).bind (se.cell codec)) es := by
  funext k
  rw [lastAfter_apply, Keyspace.write_apply, ← h.cells, filter_map]
  have hfilter : (rs.filter ((fun e => decide (e.1 = k)) ∘ fun r => (r.key, se'.cell codec r))) =
      recordsIn rs k := rfl
  rw [hfilter, List.getLast?_map, Option.map_map]
  cases (recordsIn rs k).getLast? with
  | some => rfl
  | none =>
    rw [Option.none_or, Option.map_none]
    cases hl : last' k with
    | none => rfl
    | some r =>
      exact (hlast k r hl).cell_grow h.grows

/-- What was logged is what happened to the keyspace. -/
theorem Engine.Wrote.keyspace_eq (hse : se.Holds codec last) (h : se.Wrote codec lo last se' rs es) :
    se'.keyspace codec = (se.keyspace codec).write es := by
  have hold : se.keyspace codec = fun k => (last k).bind (se.cell codec) :=
    funext hse.keyspace_eq
  have hnew : se'.keyspace codec = fun k => (lastAfter last rs k).bind (se'.cell codec) :=
    funext h.holds.keyspace_eq
  rw [hold, hnew]
  exact h.bind_cell_eq last fun k r hr => (hse.last_stored k r hr).2

theorem Engine.version_write (se : Engine) (w : Write) : (se.write w).version = se.version := by
  rw [Engine.write]
  cases w.install <;> rfl

theorem Engine.Loggable.grow {w : Write} (h : se.Loggable codec lo w) (hg : se.Grows se')
    (hver : se.version ≤ se'.version) : se'.Loggable codec lo w :=
  { h with
    ready := h.ready.grow hg
    replayable := h.replayable.grow hg
    version_le := h.version_le.trans hver }

theorem Engine.Holds.wrote_write (h : se.Holds codec last) {w : Write}
    (hw : se.Loggable codec lo w) :
    se.Wrote codec lo last (se.write w) [w.record] [(w.record.key, se.cell codec w.record)] where
  grows := se.grows_write w
  wals := by
    intro d
    rw [Engine.write, Engine.install_wals]
    by_cases hd : d = se.disk w.record.key
    · subst hd
      simp [Engine.appendWAL]
    · simp [Engine.appendWAL, hd, Ne.symm hd]
  holds := (h.appendWAL hw.ready.stored).install (hw.ready.grow (se.grows_appendWAL _))
  replayable := by
    intro r hr
    rw [mem_singleton.mp hr]
    exact hw.replayable.grow (se.grows_write w)
  version_le := Nat.le_of_eq (se.version_write w).symm
  versions := by
    intro r hr
    rw [mem_singleton.mp hr, se.version_write w]
    exact ⟨hw.lt_version, hw.version_le⟩
  stamps := by
    intro r hr
    rw [mem_singleton.mp hr]
    exact hw.stamp
  keys := by
    intro r hr
    rw [mem_singleton.mp hr]
    exact hw.key
  cells := by
    rw [map_singleton, hw.ready.stored.cell_grow (se.grows_write w)]

theorem Engine.Holds.wrote_foldl_write {ws : List Write} (h : se.Holds codec last)
    (hw : ∀ w ∈ ws, se.Loggable codec lo w) :
    se.Wrote codec lo last (ws.foldl Engine.write se) (ws.map Write.record)
      (ws.map fun w => (w.record.key, se.cell codec w.record)) := by
  induction ws generalizing se last with
  | nil => exact Engine.Wrote.refl h lo
  | cons w ws ih =>
    have hone := h.wrote_write (hw w (mem_cons_self ..))
    have hrest := ih hone.holds fun w' hw' =>
      (hw w' (mem_cons_of_mem _ hw')).grow hone.grows hone.version_le
    have hcells : (ws.map fun w' => (w'.record.key, (se.write w).cell codec w'.record)) =
        ws.map fun w' => (w'.record.key, se.cell codec w'.record) := by
      apply map_congr_left
      intro w' hw'
      rw [(hw w' (mem_cons_of_mem _ hw')).ready.stored.cell_grow hone.grows]
    rw [hcells] at hrest
    exact hone.trans hrest

/-- Storing values ahead of the writes that use them. -/
theorem Engine.Holds.wrote_nil (h : se.Holds codec last) (hg : se.Grows se')
    (hidx : se'.index = se.index) (hwals : se'.wals = se.wals)
    (htail : ∀ d, 0 < (se'.vlogs d).tail) (hver : se.version ≤ se'.version) (lo : Nat) :
    se.Wrote codec lo last se' [] [] :=
  { Engine.Wrote.refl h lo with
    grows := hg
    wals := fun d => by rw [hwals, filter_nil, append_nil]
    holds := h.grow hg hidx hwals htail
    version_le := hver
    replayable := fun r hr => (by cases hr)
    versions := fun r hr => (by cases hr) }

end Wrote

/-! ## The operations -/

section Operations

variable {codec : ValueCodec} {se : Engine} {last : Key → Option WALEntry} {clk : WriteClock}
  {value : List UInt8} {key : Key}

namespace Engine

theorem putRecordAt_ok (hkv : se.kvSep = true)
    (stampUs : Int) (version : Nat) (exp : Int) (packed : Bool) {offset : Nat} (hoff : 0 < offset)
    (hblob : (se.vlogs (se.disk key)).blobs offset = some (codec.transform value).1)
    {l : Located} (hl : l = located codec (se.disk key) offset value packed) :
    se.Replayable codec (putRecordAt stampUs version key value exp false l) ∧
      se.cell codec (putRecordAt stampUs version key value exp false l) =
        some (stampUs, value, if 0 < exp then exp else 0) := by
  obtain ⟨hst, hp⟩ := se.presents_located hkv stampUs version exp false packed hoff hblob hl
  have hto : se.PointsTo codec key (putEntryAt stampUs value exp false l) value :=
    hl ▸ pointsTo_located hoff hblob ..
  have hlen : l.blobLen = 0 → value = [] := by
    rw [hl]
    exact fun h0 => codec.eq_nil_of_transform value (length_eq_zero_iff.mp h0)
  have hsep : ¬se.kvSep = false := by simp [hkv]
  refine ⟨⟨hst, ⟨⟨fun _ _ => ?_, fun _ hkv' => absurd hkv' hsep⟩, fun _ hkv' => absurd hkv' hsep⟩,
    fun _ _ => ?_⟩, ?_⟩
  · exact Int.natCast_pos.mpr hto.offset_pos
  · have hentry : se.entryAt (putRecordAt stampUs version key value exp false l) =
        putEntryAt stampUs value exp false l := by
      rw [← replayEntry_putRecordAt hlen, hl]
      rfl
    rw [hentry]
    exact ⟨value, hto⟩
  · have hstamp : (putRecordAt stampUs version key value exp false l).replayed.stampUs = stampUs :=
      stampUs_of_timestamp rfl
    rw [cell, ← hp.value, hto.entryValue_eq, hstamp]
    by_cases hpos : 0 < exp <;> simp [IndexEntry.expiryUs, putEntryAt, putEntry, hpos]

theorem putRecord_ok (codec : ValueCodec) (hkv : se.kvSep = false) (stampUs : Int) (version : Nat)
    (exp : Int) (key : Key) (hval : value ≠ []) :
    se.Replayable codec (putRecord stampUs version key value exp false) ∧
      se.cell codec (putRecord stampUs version key value exp false) =
        some (stampUs, value, if 0 < exp then exp else 0) := by
  obtain ⟨hst, -⟩ := se.presents_inMemory codec hkv stampUs version key value exp false
  have hsep : ¬se.kvSep = true := by simp [hkv]
  refine ⟨⟨hst, ⟨⟨fun _ hkv' => absurd hkv' hsep, fun _ _ => rfl⟩, fun _ _ => hval⟩,
    fun _ hkv' => absurd hkv' hsep⟩, ?_⟩
  have hstamp : (putRecord stampUs version key value exp false).replayed.stampUs = stampUs :=
    stampUs_of_timestamp rfl
  rw [cell, outcome_putRecord, hstamp]
  by_cases hpos : 0 < exp <;> simp [IndexEntry.expiryUs, putEntry, hpos]

section

variable (h : se.Holds codec last)
include h

theorem Holds.wrote_prepared {p : Engine × Write} (hp : se.Prepared codec p)
    (hver : p.1.version = se.version + 1) (hrver : p.2.record.version = se.version + 1)
    (hclk : clk.stampUs ≠ 0) (hstamp : p.2.record.replayed.stampUs = clk.stampUs)
    (hkey : p.2.record.key ≠ appliedMarkerKey) {c : Option Cell}
    (hok : p.1.Replayable codec p.2.record ∧ p.1.cell codec p.2.record = c) :
    ∃ rs, se.Wrote codec se.version last (p.1.write p.2) rs [(p.2.record.key, c)] := by
  obtain ⟨hrep, rfl⟩ := hok
  have hnil := h.wrote_nil hp.grows hp.index hp.wals hp.tail_pos (by omega) se.version
  have hw : p.1.Loggable codec se.version p.2 :=
    { hp with
      replayable := hrep
      lt_version := by omega
      version_le := by omega
      stamp := by rw [hstamp]; exact hclk
      key := hkey }
  exact ⟨_, hnil.trans ((h.prepared hp).wrote_write hw)⟩

theorem Holds.wrote_put (hclk : clk.stampUs ≠ 0) (hok : PutOk se.kvSep key value) (ttl : Int) :
    ∃ rs, se.Wrote codec se.version last (se.putOrigin codec clk key value ttl 0 false) rs
      [(key, some (putCell clk value ttl))] := by
  have hprep := prepared_put codec h.tail_pos clk key value ttl 0 false
  rw [putOrigin]
  by_cases hkv : se.kvSep = true
  · have hp : se.preparePut codec clk key value ttl 0 false =
        ((se.nextVersion.storeValue codec (se.disk key) value).1,
          { record := putRecordAt clk.stampUs (se.version + 1) key value
              (walTTLExpiryUs clk.nowUs ttl) false
              (se.nextVersion.storeValue codec (se.disk key) value).2
            install := .put key (putEntryAt clk.stampUs value (walTTLExpiryUs clk.nowUs ttl) false
              (se.nextVersion.storeValue codec (se.disk key) value).2) none }) := if_pos hkv
    obtain ⟨-, -, hoff, hblob⟩ := se.nextVersion.storeValue_spec codec h.tail_pos (se.disk key) value
    rw [hp] at hprep ⊢
    exact h.wrote_prepared hprep rfl rfl hclk (stampUs_of_timestamp rfl) hok.1
      (putRecordAt_ok (by exact hkv) clk.stampUs (se.version + 1)
        (walTTLExpiryUs clk.nowUs ttl) false hoff hblob rfl)
  · have hkv' : se.kvSep = false := by simpa using hkv
    have hp : se.preparePut codec clk key value ttl 0 false =
        (se.nextVersion,
          { record := putRecord clk.stampUs (se.version + 1) key value
              (walTTLExpiryUs clk.nowUs ttl) false
            install := .put key (putEntry clk.stampUs value (walTTLExpiryUs clk.nowUs ttl) false)
              (some value) }) := if_neg hkv
    rw [hp] at hprep ⊢
    exact h.wrote_prepared hprep rfl rfl hclk (stampUs_of_timestamp rfl) hok.1
      (putRecord_ok codec (show se.nextVersion.kvSep = false from hkv') clk.stampUs
        (se.version + 1) (walTTLExpiryUs clk.nowUs ttl) key (hok.2 hkv'))

theorem Holds.wrote_delete (hclk : clk.stampUs ≠ 0) (hkey : key ≠ appliedMarkerKey)
    (pooled : WALEntry) :
    ∃ rs, se.Wrote codec se.version last (se.delOrigin clk pooled key false) rs [(key, none)] := by
  have hprep := prepared_delete codec h.tail_pos clk pooled key false
  refine h.wrote_prepared hprep rfl rfl hclk (stampUs_of_timestamp rfl) hkey ⟨?_, ?_⟩
  · exact ⟨hprep.ready.stored, ⟨⟨fun ht => (by cases ht), fun ht => (by cases ht)⟩,
      fun ht => (by cases ht)⟩, fun ht => (by cases ht)⟩
  · rfl

theorem Holds.wrote_persistAtomic (hkv : se.kvSep = true) (hclk : clk.stampUs ≠ 0)
    (hkey : key ≠ appliedMarkerKey) (value : List UInt8) (ttl : Int) :
    ∃ rs, se.Wrote codec se.version last (se.persistAtomic codec clk key value ttl) rs
      [(key, some (putCell clk value ttl))] := by
  have hprep := prepared_atomic codec h.tail_pos hkv clk key value ttl
  obtain ⟨-, -, hoff, hblob⟩ := se.nextVersion.storeValue_spec codec h.tail_pos (se.disk key) value
  exact h.wrote_prepared hprep rfl rfl hclk (stampUs_of_timestamp rfl) hkey
    (putRecordAt_ok (by exact hkv) clk.stampUs (se.version + 1)
      (walTTLExpiryUs clk.nowUs ttl) false hoff hblob rfl)

theorem Holds.readUnderShardLock_eq (hkv : se.kvSep = true) (key : Key) (nowUs : Int) :
    se.readUnderShardLock codec key nowUs =
      some (((se.keyspace codec).read key nowUs).map fun c => c.2.1) := by
  rw [readUnderShardLock, Keyspace.read, keyspace, ShardedIndex.visible]
  cases he : se.index.entries key with
  | none => rfl
  | some e =>
    cases ht : e.flags.tombstone with
    | true => simp [ht]
    | false =>
      obtain ⟨value, hl⟩ := h.located hkv key e he ht
      have hoff := hl.offset_pos
      rw [h.noDirty hkv key]
      simp only [ht, Option.map_some, hl.entryValue_eq]
      by_cases hexp : e.isExpired nowUs = true
      · have hexp' := (e.isExpired_iff nowUs).mp hexp
        simp [hexp, Cell.at, unexpired, hexp']
      · have hexp' := mt (e.isExpired_iff nowUs).mpr hexp
        simp [hexp, Cell.at, unexpired, hexp', Nat.pos_iff_ne_zero.mp hoff]

theorem Holds.setIfNotExistsValue_eq (hkv : se.kvSep = true) (key : Key) (nowUs : Int)
    (value : List UInt8) :
    se.setIfNotExistsValue nowUs key value =
      (AtomicOp.setIfNotExists value).value
        (((se.keyspace codec).read key nowUs).map fun c => c.2.1) := by
  rw [setIfNotExistsValue, Keyspace.read, keyspace, ShardedIndex.visible]
  cases he : se.index.entries key with
  | none => rfl
  | some e =>
    cases ht : e.flags.tombstone with
    | true => simp [ht, AtomicOp.value]
    | false =>
      obtain ⟨v, hl⟩ := h.located hkv key e he ht
      rw [h.noDirty hkv key]
      simp only [ht, Option.map_some, hl.entryValue_eq]
      by_cases hexp : e.isExpired nowUs = true
      · have hexp' := (e.isExpired_iff nowUs).mp hexp
        simp [hexp, Cell.at, unexpired, hexp', AtomicOp.value]
      · have hexp' := mt (e.isExpired_iff nowUs).mpr hexp
        simp [hexp, Cell.at, unexpired, hexp', AtomicOp.value]

theorem Holds.atomicValue_eq (hkv : se.kvSep = true) (key : Key) (nowUs : Int) (op : AtomicOp) :
    se.atomicValue codec nowUs key op =
      op.value (((se.keyspace codec).read key nowUs).map fun c => c.2.1) := by
  cases op with
  | compareAndSwap =>
    simp only [atomicValue, compareAndSwapValue, h.readUnderShardLock_eq hkv]
    cases ((se.keyspace codec).read key nowUs).map fun c => c.2.1 <;> rfl
  | increment =>
    simp only [atomicValue, incrementValue, h.readUnderShardLock_eq hkv]
    cases ((se.keyspace codec).read key nowUs).map fun c => c.2.1 <;> rfl
  | setIfNotExists value => exact h.setIfNotExistsValue_eq hkv key nowUs value

theorem Holds.wrote_atomic (hclk : clk.stampUs ≠ 0) (hkey : key ≠ appliedMarkerKey)
    (op : AtomicOp) (ttl : Int) :
    ∃ rs es, se.Wrote codec se.version last (se.atomic codec clk key op ttl) rs es ∧
      es = if se.kvSep then
          match op.value (((se.keyspace codec).read key clk.nowUs).map fun c => c.2.1) with
          | some value => [(key, some (putCell clk value ttl))]
          | none => []
        else [] := by
  rw [atomic]
  by_cases hkv : se.kvSep = true
  · rw [if_pos hkv, if_pos hkv, h.atomicValue_eq hkv]
    cases op.value (((se.keyspace codec).read key clk.nowUs).map fun c => c.2.1) with
    | none => exact ⟨[], [], Wrote.refl h _, rfl⟩
    | some value =>
      obtain ⟨rs, hw⟩ := h.wrote_persistAtomic hkv hclk hkey value ttl
      exact ⟨rs, _, hw, rfl⟩
  · rw [if_neg hkv, if_neg hkv]
    exact ⟨[], [], Wrote.refl h _, rfl⟩

end

end Engine

def MultiPutRequest.Ok (kvSep : Bool) (q : MultiPutRequest) : Prop :=
  PutOk kvSep q.key q.value ∧ q.clk.stampUs ≠ 0

theorem map_mapIdx_of_forall {α β γ : Type*} {f : Nat → α → β} {g : β → γ} {h : α → γ}
    {l : List α} (hfg : ∀ i, ∀ a ∈ l, g (f i a) = h a) : (l.mapIdx f).map g = l.map h := by
  apply ext_getElem
  · simp
  · intro i hi _
    simp only [getElem_map, getElem_mapIdx]
    exact hfg i _ (getElem_mem _)

/-- The part of a batch that goes to one disk. -/
theorem Engine.Holds.wrote_multiPutDisk (h : se.Holds codec last) (hkv : se.kvSep = true)
    {reqs : List MultiPutRequest} (hreqs : ∀ q ∈ reqs, q.Ok se.kvSep) (d : Nat) :
    ∃ rs, se.Wrote codec se.version last (se.multiPutDisk codec reqs d) rs
      (batchCells (reqs.filter fun q => se.disk q.key = d)) := by
  have hp := Engine.prepared_batch codec h.tail_pos hkv reqs d
  have hholds : (se.prepareBatch codec reqs d).1.Holds codec last :=
    h.grow hp.grows hp.index hp.wals hp.tail_pos
  obtain ⟨-, -, hmap⟩ := stageAll_spec codec (reqs.filter fun q => se.disk q.key = d)
  -- the record of a staged request
  have hrec : ∀ version, ∀ s ∈ (stageAll codec (reqs.filter fun q => se.disk q.key = d)).2,
      (se.prepareBatch codec reqs d).1.Replayable codec (s.write codec d
          ((se.vlogs d).commit (stageAll codec (reqs.filter fun q => se.disk q.key = d)).1).2
          version).record ∧
        (se.prepareBatch codec reqs d).1.cell codec (s.write codec d
          ((se.vlogs d).commit (stageAll codec (reqs.filter fun q => se.disk q.key = d)).1).2
          version).record = some (putCell s.req.clk s.req.value s.req.ttl) := by
    intro version s hs
    obtain ⟨hdisk, hoff, hblob⟩ := Engine.staged_stored codec h.tail_pos reqs d hs
    subst hdisk
    exact Engine.putRecordAt_ok (by exact hkv) s.req.clk.stampUs version
      (walTTLExpiryUs s.req.clk.nowUs s.req.ttl) s.packed hoff hblob rfl
  have hmem : ∀ s ∈ (stageAll codec (reqs.filter fun q => se.disk q.key = d)).2, s.req ∈ reqs :=
    fun s hs => (mem_filter.mp (hmap ▸ mem_map_of_mem hs)).1
  have hlog : ∀ w ∈ (se.prepareBatch codec reqs d).2,
      (se.prepareBatch codec reqs d).1.Loggable codec se.version w := by
    intro w hw
    have hready := hp.ready w hw
    obtain ⟨i, hi, rfl⟩ := mem_mapIdx.mp hw
    have hq := hreqs _ (hmem _ (getElem_mem hi))
    exact
      { ready := hready
        replayable := (hrec _ _ (getElem_mem hi)).1
        lt_version := by show se.version < se.version + 1 + i; omega
        version_le := by
          show se.version + 1 + i ≤ se.version +
            (stageAll codec (reqs.filter fun q => se.disk q.key = d)).2.length
          omega
        stamp := by
          have hstamp := stampUs_of_timestamp (r := (StagedEntry.write codec d
            ((se.vlogs d).commit (stageAll codec (reqs.filter fun q => se.disk q.key = d)).1).2
            (se.version + 1 + i)
            (stageAll codec (reqs.filter fun q => se.disk q.key = d)).2[i]).record) rfl
          rw [hstamp]
          exact hq.2
        key := hq.1.1 }
  have hnil := h.wrote_nil hp.grows hp.index hp.wals hp.tail_pos (Nat.le_add_right _ _) se.version
  have hw := hnil.trans (hholds.wrote_foldl_write hlog)
  have hcells : ((se.prepareBatch codec reqs d).2.map fun w =>
      (w.record.key, (se.prepareBatch codec reqs d).1.cell codec w.record)) =
      batchCells (reqs.filter fun q => se.disk q.key = d) := by
    rw [batchCells, ← hmap, map_map]
    refine map_mapIdx_of_forall fun i s hs => ?_
    exact congrArg (Prod.mk s.req.key) (hrec _ s hs).2
  rw [hcells, ← Engine.multiPutDisk_eq] at hw
  exact ⟨_, hw⟩

theorem filter_batchCells_flatMap {numDisks : Nat} (hpos : 0 < numDisks)
    (reqs : List MultiPutRequest) (k : Key) :
    (((List.range numDisks).flatMap fun d =>
        batchCells (reqs.filter fun q => diskFor numDisks q.key = d)).filter fun e => e.1 = k) =
      (batchCells reqs).filter fun e => e.1 = k := by
  have hpart : ∀ d, (batchCells (reqs.filter fun q => diskFor numDisks q.key = d)).filter
      (fun e => e.1 = k) =
      if diskFor numDisks k = d then (batchCells reqs).filter fun e => e.1 = k else [] := by
    intro d
    rw [batchCells, batchCells, filter_map, filter_map, filter_filter]
    split
    next hd =>
      congr 1
      apply filter_congr
      intro q _
      by_cases hk : q.key = k
      · simp [hk, hd]
      · simp [hk]
    next hd =>
      rw [map_eq_nil_iff, filter_eq_nil_iff]
      intro q _ hq
      simp only [comp_apply, Bool.and_eq_true, decide_eq_true_eq] at hq
      exact hd (hq.1 ▸ hq.2)
  have hflat : ∀ ds : List Nat, ds.Nodup → (ds.flatMap fun d =>
      batchCells (reqs.filter fun q => diskFor numDisks q.key = d)).filter (fun e => e.1 = k) =
      if diskFor numDisks k ∈ ds then (batchCells reqs).filter fun e => e.1 = k else [] := by
    intro ds
    induction ds with
    | nil => intro _; rfl
    | cons d ds ih =>
      intro hds
      rw [nodup_cons] at hds
      rw [flatMap_cons, filter_append, hpart, ih hds.2]
      by_cases hd : diskFor numDisks k = d
      · subst hd
        simp [hds.1]
      · simp [hd]
  rw [hflat _ nodup_range, if_pos (mem_range.mpr (diskFor_lt hpos k))]

theorem Engine.Holds.wrote_multiPut (h : se.Holds codec last) (hpos : 0 < se.numDisks)
    {reqs : List MultiPutRequest} (hreqs : ∀ q ∈ reqs, q.Ok se.kvSep) :
    ∃ rs es, se.Wrote codec se.version last (se.multiPut codec reqs) rs es ∧
      ∀ k, (es.filter fun e => e.1 = k) = (batchCells reqs).filter fun e => e.1 = k := by
  rw [Engine.multiPut]
  by_cases hkv : se.kvSep = true
  · rw [if_pos hkv]
    have hdisks : ∀ (ds : List Nat) (se₀ : Engine) (last : Key → Option WALEntry),
        se₀.Holds codec last → se.Grows se₀ →
        ∃ rs, se₀.Wrote codec se₀.version last (ds.foldl (Engine.multiPutDisk codec reqs) se₀) rs
          (ds.flatMap fun d => batchCells (reqs.filter fun q => diskFor se.numDisks q.key = d)) := by
      intro ds
      induction ds with
      | nil => intro se₀ last h₀ _; exact ⟨[], Engine.Wrote.refl h₀ _⟩
      | cons d ds ih =>
        intro se₀ last h₀ hg
        have hkv₀ : se₀.kvSep = se.kvSep := hg.kvSep
        obtain ⟨rs₁, hone⟩ := h₀.wrote_multiPutDisk (hkv₀.trans hkv)
          (fun q hq => by rw [hkv₀]; exact hreqs q hq) d
        obtain ⟨rs₂, hrest⟩ := ih _ _ hone.holds (hg.trans hone.grows)
        simp only [hg.disk] at hone
        exact ⟨rs₁ ++ rs₂, hone.trans (hrest.weaken hone.version_le)⟩
    obtain ⟨rs, hw⟩ := hdisks (List.range se.numDisks) se last h (Engine.Grows.refl se)
    exact ⟨rs, _, hw, filter_batchCells_flatMap hpos reqs⟩
  · rw [if_neg hkv]
    suffices hputs : ∃ rs, se.Wrote codec se.version last (reqs.foldl (fun se q =>
        se.putOrigin codec q.clk q.key q.value q.ttl 0 false) se) rs (batchCells reqs) by
      obtain ⟨rs, hw⟩ := hputs
      exact ⟨rs, _, hw, fun _ => rfl⟩
    clear hkv hpos
    induction reqs generalizing se last with
    | nil => exact ⟨[], Engine.Wrote.refl h _⟩
    | cons q reqs ih =>
      have hq := hreqs q (mem_cons_self ..)
      obtain ⟨rs₁, hone⟩ := h.wrote_put hq.2 hq.1 q.ttl
      obtain ⟨rs₂, hrest⟩ := ih hone.holds fun q' hq' => by
        rw [hone.grows.kvSep]
        exact hreqs q' (mem_cons_of_mem _ hq')
      exact ⟨rs₁ ++ rs₂, hone.trans (hrest.weaken hone.version_le)⟩

theorem Engine.Wrote.agree {se' : Engine} {rs : List WALEntry} {es : List (Key × Option Cell)}
    {lo : Nat} {t : Int} {σ : Keyspace} (h : se.Holds codec last)
    (hw : se.Wrote codec lo last se' rs es) (hσ : (se.keyspace codec).AgreeFrom t σ) :
    (se'.keyspace codec).AgreeFrom t (σ.write es) := by
  rw [Engine.Wrote.keyspace_eq h hw]
  exact hσ.write es

/-- The command does to every engine what it does to a keyspace that the engine shows. -/
def RaftCmd.Refined (codec : ValueCodec) (pool : Nat → WALEntry) (clk : WriteClock) (kvSep : Bool)
    (cmd : RaftCmd) : Prop :=
  ∀ (se : Engine) (last : Key → Option WALEntry) (σ : Keyspace), se.Holds codec last →
    se.kvSep = kvSep → 0 < se.numDisks → cmd.Ok kvSep →
    (se.keyspace codec).AgreeFrom clk.nowUs σ →
    (∃ rs es, se.Wrote codec se.version last (Engine.applyCmd codec pool clk cmd se) rs es) ∧
      ((Engine.applyCmd codec pool clk cmd se).keyspace codec).AgreeFrom clk.nowUs
        (cmd.run kvSep clk σ)

/-- An operation, and the rest of the command from where it leads. -/
theorem RaftCmd.Refined.after {pool : Nat → WALEntry} {kvSep : Bool} {next : RaftCmd}
    (ih : next.Refined codec pool clk kvSep) {se' : Engine} {σ : Keyspace} {rs : List WALEntry}
    {es : List (Key × Option Cell)} (h : se.Holds codec last) (hkv : se.kvSep = kvSep)
    (hpos : 0 < se.numDisks) (hok : next.Ok kvSep) (hσ : (se.keyspace codec).AgreeFrom clk.nowUs σ)
    (hw : se.Wrote codec se.version last se' rs es) :
    (∃ rs es, se.Wrote codec se.version last (Engine.applyCmd codec pool clk next se') rs es) ∧
      ((Engine.applyCmd codec pool clk next se').keyspace codec).AgreeFrom clk.nowUs
        (next.run kvSep clk (σ.write es)) := by
  obtain ⟨⟨rs', es', hw'⟩, hagree⟩ := ih se' _ (σ.write es) hw.holds
    (hw.grows.kvSep.trans hkv) (hw.grows.numDisks ▸ hpos) hok (hw.agree h hσ)
  exact ⟨⟨_, _, hw.trans (hw'.weaken hw.version_le)⟩, hagree⟩

theorem Engine.Holds.applyCmd (pool : Nat → WALEntry) (hclk : clk.stampUs ≠ 0) {kvSep : Bool}
    (cmd : RaftCmd) : cmd.Refined codec pool clk kvSep := by
  induction cmd with
  | done =>
    intro se last σ h _ _ _ hσ
    exact ⟨⟨[], [], Engine.Wrote.refl h _⟩, hσ⟩
  | put key value ttl next ih =>
    intro se last σ h hkv hpos hok hσ
    obtain ⟨rs, hw⟩ := h.wrote_put hclk (hkv ▸ hok.1) ttl
    exact ih.after h hkv hpos hok.2 hσ hw
  | delete key next ih =>
    intro se last σ h hkv hpos hok hσ
    obtain ⟨rs, hw⟩ := h.wrote_delete hclk hok.1 (pool se.version)
    exact ih.after h hkv hpos hok.2 hσ hw
  | multiPut reqs next ih =>
    intro se last σ h hkv hpos hok hσ
    have hreqs : ∀ q ∈ batchAt clk reqs, q.Ok se.kvSep := by
      intro q hq
      obtain ⟨p, hp, rfl⟩ := mem_map.mp hq
      exact ⟨hkv ▸ hok.1 p hp, hclk⟩
    obtain ⟨rs, es, hw, hes⟩ := h.wrote_multiPut hpos hreqs
    have hrun := ih.after h hkv hpos hok.2 hσ hw
    rw [Keyspace.write_congr σ hes] at hrun
    exact hrun
  | atomic key op ttl next ih =>
    intro se last σ h hkv hpos hok hσ
    obtain ⟨rs, es, hw, hes⟩ := h.wrote_atomic hclk hok.1 op ttl
    have hrun := ih.after h hkv hpos hok.2 hσ hw
    rw [RaftCmd.run]
    rw [hσ key clk.nowUs (Int.le_refl _), hkv] at hes
    subst hes
    by_cases hk : kvSep = true
    · rw [if_pos hk] at hrun ⊢
      cases hv : op.value ((σ.read key clk.nowUs).map fun c => c.2.1) with
      | none | some => rw [hv] at hrun; exact hrun
    · rw [if_neg hk] at hrun ⊢
      exact hrun
  | read key next ih =>
    intro se last σ h hkv hpos hok hσ
    rw [Engine.applyCmd, hσ key clk.nowUs (Int.le_refl _)]
    exact ih _ se last σ h hkv hpos (hok _) hσ

end Operations

end VeltrixDB.Storage
