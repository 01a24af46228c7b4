import VeltrixDB.Lib.Parties
import VeltrixDB.Storage.Fidelity

/-!
# Concurrent writers

Any number of writers run at once.  A writer takes its stamp, registers with
the log of its disk, prepares its records, appends them and installs its
changes of the index; between any two of these steps other writers may move.
Puts, deletes and batches take the shard lock only to install a change, while
an atomic operation holds it from its read to its install.

Main results:

- Theorem `Sys.Ordered.step`: while stamps rise along the log of each key and
  changes are installed in log order, the index shows what the installed part
  of the log says.
- Theorem `Sys.Ordered.replayedView_eq_view`: once all writers have returned,
  replay then shows what the index shows.
-/

namespace VeltrixDB.Storage

open Function List

open Parties Register
open Bytes (fnv64a)

/-! ## Writers -/

def shardOf (key : Key) : Nat := (fnv64a key).toNat % numShards

/-- What a writer was asked to write.  An atomic operation has decided on its
value. -/
inductive WriteRequest where
  | put (key : Key) (value : List UInt8) (ttl expiryUs : Int) (origin : Bool)
  | delete (pooled : WALEntry) (key : Key) (origin : Bool)
  | batch (reqs : List MultiPutRequest) (d : Nat)
  | atomic (key : Key) (value : List UInt8) (ttl : Int)

def WriteRequest.needsVLog : WriteRequest → Bool
  | .put .. | .delete .. => false
  | .batch .. | .atomic .. => true

def WriteRequest.lock : WriteRequest → Option Key
  | .atomic key _ _ => some key
  | _ => none

def WriteRequest.disk (se : Engine) : WriteRequest → Nat
  | .put key .. | .delete _ key _ | .atomic key .. => se.disk key
  | .batch _ d => d

def Engine.prepare (codec : ValueCodec) (se : Engine) (clk : WriteClock) :
    WriteRequest → Engine × List Write
  | .put key value ttl expiryUs origin =>
    let p := se.preparePut codec clk key value ttl expiryUs origin
    (p.1, [p.2])
  | .delete pooled key origin =>
    let p := se.prepareDelete clk pooled key origin
    (p.1, [p.2])
  | .batch reqs d => se.prepareBatch codec reqs d
  | .atomic key value ttl =>
    let p := se.prepareAtomic codec clk key value ttl
    (p.1, [p.2])

/-- A write whose record is in the log: the record is the `seq`-th of its
key there. -/
structure Logged where
  write : Write
  seq : Nat

def Logged.key (l : Logged) : Key := l.write.record.key

inductive Phase where
  | stamped (clk : WriteClock) (req : WriteRequest)
  | entered (clk : WriteClock) (req : WriteRequest)
  | logging (todo : List Write) (logged : List Logged)

structure Writer where
  lock : Option Key
  disk : Nat
  token : Nat
  phase : Phase

def Writer.holdsShard (w : Writer) (shard : Nat) : Prop :=
  ∃ key, w.lock = some key ∧ shardOf key = shard

def Writer.writes (w : Writer) : List Write :=
  match w.phase with
  | .logging todo logged => todo ++ logged.map Logged.write
  | _ => []

def Writer.logged (w : Writer) : List Logged :=
  match w.phase with
  | .logging _ logged => logged
  | _ => []

def Writer.inFlight (w : Writer) : Bool :=
  match w.phase with
  | .stamped .. => false
  | _ => true

def Writer.request (w : Writer) : Option WriteRequest :=
  match w.phase with
  | .stamped _ req | .entered _ req => some req
  | .logging .. => none

structure Sys where
  se : Engine
  epoch : Nat
  writers : List Writer
  installs : Key → Nat

def Sys.create (kvSep : Bool) (numDisks : Nat) : Sys where
  se := .create kvSep numDisks
  epoch := 0
  writers := []
  installs := fun _ => 0

structure Discipline where
  append : Sys → Write → Prop
  install : Sys → Logged → Prop

def Discipline.none : Discipline := ⟨fun _ _ => True, fun _ _ => True⟩

/-- One step of one writer, with the record it appends, if any. -/
inductive Sys.Step (codec : ValueCodec) (P : Discipline) : Sys → Option WALEntry → Sys → Prop
  | stamp (s : Sys) (clk : WriteClock) (req : WriteRequest) (hplain : req.lock = Option.none)
      (hmode : req.needsVLog = true → s.se.kvSep = true) :
      Step codec P s Option.none
        { s with writers := s.writers ++ [⟨Option.none, req.disk s.se, 0, .stamped clk req⟩] }
  /-- An atomic operation locks its shard, reads the key, decides to write and
  reads the clocks. -/
  | lock (s : Sys) (clk : WriteClock) (nowUs : Int) (key : Key) (op : AtomicOp)
      (value : List UInt8) (ttl : Int) (hmode : s.se.kvSep = true)
      (hfree : ∀ w ∈ s.writers, ¬w.holdsShard (shardOf key))
      (hvalue : s.se.atomicValue codec nowUs key op = some value) :
      Step codec P s Option.none
        { s with writers :=
            s.writers ++ [⟨some key, s.se.disk key, 0, .stamped clk (.atomic key value ttl)⟩] }
  | enter (s : Sys) (pre post : List Writer) (lock : Option Key) (d t : Nat) (clk : WriteClock)
      (req : WriteRequest) (hw : s.writers = pre ++ ⟨lock, d, t, .stamped clk req⟩ :: post) :
      Step codec P s Option.none
        { s with writers := pre ++ ⟨lock, d, s.epoch, .entered clk req⟩ :: post }
  | prepare (s : Sys) (pre post : List Writer) (lock : Option Key) (d t : Nat) (clk : WriteClock)
      (req : WriteRequest) (hw : s.writers = pre ++ ⟨lock, d, t, .entered clk req⟩ :: post) :
      Step codec P s Option.none
        { s with
          se := (s.se.prepare codec clk req).1
          writers := pre ++ ⟨lock, d, t, .logging (s.se.prepare codec clk req).2 []⟩ :: post }
  | append (s : Sys) (pre post : List Writer) (lock : Option Key) (d t : Nat) (w : Write)
      (todo : List Write) (logged : List Logged)
      (hw : s.writers = pre ++ ⟨lock, d, t, .logging (w :: todo) logged⟩ :: post)
      (hP : P.append s w) :
      Step codec P s (some w.record)
        { s with
          se := s.se.appendWAL w.record
          writers := pre ++ ⟨lock, d, t, .logging todo
            (logged ++ [⟨w, (s.se.recordsOf w.record.key).length⟩])⟩ :: post }
  | install (s : Sys) (pre post : List Writer) (lock : Option Key) (d t : Nat) (l : Logged)
      (logged : List Logged)
      (hw : s.writers = pre ++ ⟨lock, d, t, .logging [] (l :: logged)⟩ :: post)
      (hfree : ∀ w ∈ pre ++ post, ¬w.holdsShard (shardOf l.key)) (hP : P.install s l) :
      Step codec P s Option.none
        { s with
          se := s.se.install l.write.install
          writers := pre ++ ⟨lock, d, t, .logging [] logged⟩ :: post
          installs := update s.installs l.key (s.installs l.key + 1) }
  | exit (s : Sys) (pre post : List Writer) (lock : Option Key) (d t : Nat)
      (hw : s.writers = pre ++ ⟨lock, d, t, .logging [] []⟩ :: post) :
      Step codec P s Option.none { s with writers := pre ++ post }

/-- Stamps do not fall along the log of a key, a put without key-value
separation has a value, and the changes of a key are installed in the order of
its records. -/
def Discipline.ordered : Discipline where
  append := fun s w =>
    (∀ r ∈ s.se.recordsOf w.record.key, r.replayed.stampUs ≤ w.record.replayed.stampUs) ∧
      (s.se.kvSep = false → w.record.isTombstone = false → w.record.value ≠ [])
  install := fun s l => l.seq = s.installs l.key

/-! ## What writers keep -/

/-- A put's record points to the value log exactly in key-value separation. -/
structure Engine.OffsetOk (se : Engine) (r : WALEntry) : Prop where
  separate : r.isTombstone = false → se.kvSep = true → 0 < r.vlogOffset
  inline : r.isTombstone = false → se.kvSep = false → r.vlogOffset = 0

/-- Replay installs the record at its place. -/
structure Engine.Direct (se : Engine) (r : WALEntry) : Prop extends se.OffsetOk r where
  value : r.isTombstone = false → se.kvSep = false → r.value ≠ []

/-- The later engine holds every value and every record of the earlier one. -/
structure Engine.Advances (se se' : Engine) : Prop extends se.Grows se' where
  records : ∀ k, se.recordsOf k <+: se'.recordsOf k

/-- What a writer carries fits the engine. -/
structure Writer.Ok (codec : ValueCodec) (se : Engine) (w : Writer) : Prop where
  ready : ∀ x ∈ w.writes, se.Ready codec x ∧ se.OffsetOk x.record
  mode : ∀ req, w.request = some req → req.needsVLog = true → se.kvSep = true
  routed : ∀ x ∈ w.writes, se.disk x.record.key = w.disk
  request_disk : ∀ req, w.request = some req → req.disk se = w.disk
  placed : ∀ l ∈ w.logged, (se.recordsOf l.key)[l.seq]? = some l.write.record

def Sys.lastInstalled (s : Sys) (key : Key) : Option WALEntry :=
  ((s.se.recordsOf key).take (s.installs key)).getLast?

/-- Some writer has logged the `i`-th record of a key and not installed
it. -/
def Sys.Pending (s : Sys) (key : Key) (i : Nat) : Prop :=
  ∃ w ∈ s.writers, ∃ l ∈ w.logged, l.key = key ∧ l.seq = i

/-- The installed part of the log of each key is a prefix, and the index shows
its last record. -/
structure Sys.Ordered (codec : ValueCodec) (s : Sys) : Prop where
  holds : s.se.Holds codec s.lastInstalled
  writers : ∀ w ∈ s.writers, w.Ok codec s.se
  installs_le : ∀ k, s.installs k ≤ (s.se.recordsOf k).length
  covered : ∀ k i, s.installs k ≤ i → i < (s.se.recordsOf k).length → s.Pending k i
  sorted : ∀ k, (s.se.recordsOf k).Pairwise fun a b => a.replayed.stampUs ≤ b.replayed.stampUs
  direct : ∀ k, ∀ r ∈ s.se.recordsOf k, s.se.Direct r

section Lemmas

variable {codec : ValueCodec} {se se' : Engine} {s s' : Sys} {r : WALEntry} {lock : Option Key}

theorem Engine.OffsetOk.grow (h : se.OffsetOk r) (hg : se.Grows se') : se'.OffsetOk r where
  separate := by rw [hg.kvSep]; exact h.separate
  inline := by rw [hg.kvSep]; exact h.inline

theorem Engine.Direct.grow (h : se.Direct r) (hg : se.Grows se') : se'.Direct r where
  toOffsetOk := h.toOffsetOk.grow hg
  value := by rw [hg.kvSep]; exact h.value

theorem WriteRequest.disk_grow (hg : se.Grows se') (req : WriteRequest) :
    req.disk se' = req.disk se := by
  cases req with
  | put key | delete _ key | atomic key => exact hg.disk key
  | batch => rfl

theorem Writer.Ok.advance {w : Writer} (h : w.Ok codec se) (ha : se.Advances se') :
    w.Ok codec se' where
  ready := fun x hx => ⟨(h.ready x hx).1.grow ha.toGrows, (h.ready x hx).2.grow ha.toGrows⟩
  mode := by rw [ha.kvSep]; exact h.mode
  routed := fun x hx => (ha.disk _).trans (h.routed x hx)
  request_disk := fun req hreq => (WriteRequest.disk_grow ha.toGrows req).trans (h.request_disk req hreq)
  placed := by
    intro l hl
    obtain ⟨rest, hrest⟩ := ha.records l.key
    have hat := h.placed l hl
    obtain ⟨hlt, -⟩ := List.getElem?_eq_some_iff.mp hat
    rw [← hrest, List.getElem?_append_left hlt]
    exact hat

theorem Engine.Grows.recordsOf (h : se.Grows se') (hw : se'.wals = se.wals) (k : Key) :
    se'.recordsOf k = se.recordsOf k := by
  rw [Engine.recordsOf, Engine.recordsOf, h.disk, hw]

theorem Engine.Grows.advances (h : se.Grows se') (hw : se'.wals = se.wals) : se.Advances se' where
  toGrows := h
  records := fun k => ⟨[], by rw [append_nil, h.recordsOf hw]⟩

theorem Engine.advances_appendWAL (se : Engine) (r : WALEntry) : se.Advances (se.appendWAL r) where
  toGrows := se.grows_appendWAL r
  records := fun k => by
    rw [Engine.recordsOf_appendWAL]
    exact prefix_append ..

theorem Engine.advances_install (se : Engine) (i : Install) : se.Advances (se.install i) :=
  (se.grows_install i).advances (se.install_wals i)

theorem Engine.offsetOk_putRecordAt (se : Engine) (hkv : se.kvSep = true) {stampUs : Int} {version : Nat}
    {key : Key} {value : List UInt8} {exp : Int} {origin : Bool} {l : Located}
    (hoff : 0 < l.offset) : se.OffsetOk (putRecordAt stampUs version key value exp origin l) where
  separate := fun _ _ => Int.natCast_pos.mpr hoff
  inline := by
    intro _ h
    rw [hkv] at h
    cases h

theorem Engine.offsetOk_put (codec : ValueCodec) (h : ∀ d, 0 < (se.vlogs d).tail)
    (clk : WriteClock) (key : Key) (value : List UInt8) (ttl expiryUs : Int) (origin : Bool) :
    (se.preparePut codec clk key value ttl expiryUs origin).1.OffsetOk
      (se.preparePut codec clk key value ttl expiryUs origin).2.record := by
  simp only [Engine.preparePut]
  split
  next hkv =>
    have hg := (se.nextVersion.storeValue_spec codec h (se.disk key) value).1
    refine Engine.OffsetOk.grow (se.nextVersion.offsetOk_putRecordAt hkv ?_) hg
    exact h (se.disk key)
  next hkv => exact ⟨fun _ hkv' => absurd hkv' hkv, fun _ _ => rfl⟩

theorem Engine.offsetOk_batch (codec : ValueCodec) (h : ∀ d, 0 < (se.vlogs d).tail)
    (hkv : se.kvSep = true) (reqs : List MultiPutRequest) (d : Nat) :
    ∀ w ∈ (se.prepareBatch codec reqs d).2, (se.prepareBatch codec reqs d).1.OffsetOk w.record := by
  intro w hw
  obtain ⟨i, hi, rfl⟩ := mem_mapIdx.mp hw
  have hg := (Engine.prepared_batch codec h hkv reqs d).grows
  refine Engine.OffsetOk.grow (se.offsetOk_putRecordAt hkv ?_) hg
  exact Nat.lt_of_lt_of_le (h d) (Nat.le_add_right _ _)

theorem Engine.Prepared.batch {p : Engine × Write} (h : se.Prepared codec p) :
    se.PreparedBatch codec (p.1, [p.2]) :=
  { h with
    ready := by
      intro w hw
      rw [mem_singleton.mp hw]
      exact h.ready }

theorem Engine.prepare_spec (codec : ValueCodec) (h : ∀ d, 0 < (se.vlogs d).tail)
    (clk : WriteClock) {req : WriteRequest} (hmode : req.needsVLog = true → se.kvSep = true) :
    se.PreparedBatch codec (se.prepare codec clk req) ∧
      ∀ w ∈ (se.prepare codec clk req).2, (se.prepare codec clk req).1.OffsetOk w.record := by
  cases req with
  | put key value ttl expiryUs origin =>
    refine ⟨(Engine.prepared_put codec h clk key value ttl expiryUs origin).batch, ?_⟩
    intro w hw
    rw [mem_singleton.mp hw]
    exact Engine.offsetOk_put codec h clk key value ttl expiryUs origin
  | delete pooled key origin =>
    refine ⟨(Engine.prepared_delete codec h clk pooled key origin).batch, ?_⟩
    intro w hw
    rw [mem_singleton.mp hw]
    constructor
    · intro ht
      cases ht
    · intro ht
      cases ht
  | batch reqs d =>
    exact ⟨Engine.prepared_batch codec h (hmode rfl) reqs d,
      Engine.offsetOk_batch codec h (hmode rfl) reqs d⟩
  | atomic key value ttl =>
    refine ⟨(Engine.prepared_atomic codec h (hmode rfl) clk key value ttl).batch, ?_⟩
    intro w hw
    rw [mem_singleton.mp hw]
    have hg := (Engine.prepared_atomic codec h (hmode rfl) clk key value ttl).grows
    refine Engine.OffsetOk.grow (se.offsetOk_putRecordAt (hmode rfl) ?_) hg
    exact h (se.disk key)

theorem Engine.prepare_disk (codec : ValueCodec) (se : Engine) (clk : WriteClock)
    (req : WriteRequest) :
    ∀ w ∈ (se.prepare codec clk req).2, se.disk w.record.key = req.disk se := by
  intro w hw
  cases req with
  | put =>
    rw [mem_singleton.mp hw]
    simp only [Engine.preparePut]
    split <;> rfl
  | delete | atomic =>
    rw [mem_singleton.mp hw]
    rfl
  | batch reqs d =>
    obtain ⟨i, hi, rfl⟩ := mem_mapIdx.mp hw
    obtain ⟨-, -, hreqs⟩ := stageAll_spec codec (reqs.filter fun q => se.disk q.key = d)
    have hreq := hreqs ▸ mem_map_of_mem (f := StagedEntry.req) (getElem_mem hi)
    exact of_decide_eq_true (mem_filter.mp hreq).2

theorem Writer.Ok.logging {se : Engine} {w : Writer} (h : w.Ok codec se) (lock : Option Key)
    (t : Nat) {todo : List Write} {logged : List Logged}
    (hwrites : ∀ x ∈ todo ++ logged.map Logged.write, x ∈ w.writes)
    (hplaced : ∀ l ∈ logged, (se.recordsOf l.key)[l.seq]? = some l.write.record) :
    Writer.Ok codec se ⟨lock, w.disk, t, .logging todo logged⟩ where
  ready := fun x hx => h.ready x (hwrites x hx)
  mode := fun _ h' => (by cases h')
  routed := fun x hx => h.routed x (hwrites x hx)
  request_disk := fun _ h' => (by cases h')
  placed := hplaced

namespace Sys

theorem Pending.replace {pre post : List Writer} {w w' : Writer} {k : Key} {i : Nat}
    (hw : s.writers = pre ++ w :: post) (hw' : s'.writers = pre ++ w' :: post)
    (hlogged : ∀ l ∈ w.logged, l.key = k → l.seq = i → l ∈ w'.logged) (h : s.Pending k i) :
    s'.Pending k i := by
  obtain ⟨x, hx, l, hl, hk, hi⟩ := h
  rcases mem_middle_cases hw hx with rfl | hx
  · exact ⟨w', mem_middle hw', l, hlogged l hl hk hi, hk, hi⟩
  · exact ⟨x, mem_rest hw' hx, l, hl, hk, hi⟩

theorem ordered_create (codec : ValueCodec) (kvSep : Bool) (numDisks : Nat) :
    (create kvSep numDisks).Ordered codec where
  holds := Engine.holds_create codec kvSep numDisks
  writers := by intro w hw; cases hw
  installs_le := fun _ => Nat.zero_le _
  covered := by intro k i _ h; cases h
  sorted := fun _ => List.Pairwise.nil
  direct := by intro k r hr; cases hr

/-- Steps that store values and change neither the log nor the index. -/
theorem Ordered.grow (h : s.Ordered codec) (hg : s.se.Grows s'.se)
    (hidx : s'.se.index = s.se.index) (hwals : s'.se.wals = s.se.wals)
    (htail : ∀ d, 0 < (s'.se.vlogs d).tail) (hins : s'.installs = s.installs)
    (hw : ∀ w ∈ s'.writers, w.Ok codec s'.se)
    (hpend : ∀ k i, s.Pending k i → s'.Pending k i) : s'.Ordered codec where
  holds := by
    have hlast : s'.lastInstalled = s.lastInstalled := by
      funext k
      rw [lastInstalled, lastInstalled, hg.recordsOf hwals, hins]
    rw [hlast]
    exact h.holds.grow hg hidx hwals htail
  writers := hw
  installs_le := by
    intro k
    rw [hg.recordsOf hwals, hins]
    exact h.installs_le k
  covered := by
    intro k i hi hlt
    rw [hins] at hi
    rw [hg.recordsOf hwals] at hlt
    exact hpend k i (h.covered k i hi hlt)
  sorted := by
    intro k
    rw [hg.recordsOf hwals]
    exact h.sorted k
  direct := by
    intro k r hr
    rw [hg.recordsOf hwals] at hr
    exact (h.direct k r hr).grow hg

theorem Ordered.silent (h : s.Ordered codec) (hse : s'.se = s.se)
    (hins : s'.installs = s.installs) (hw : ∀ w ∈ s'.writers, w.Ok codec s.se)
    (hpend : ∀ k i, s.Pending k i → s'.Pending k i) : s'.Ordered codec := by
  rw [← hse] at hw
  refine h.grow ?_ ?_ ?_ ?_ hins hw hpend
  · rw [hse]
    exact Engine.Grows.refl _
  · rw [hse]
  · rw [hse]
  · rw [hse]
    exact h.holds.tail_pos

theorem Ordered.prepare (h : s.Ordered codec) {pre post : List Writer} {d t : Nat}
    {clk : WriteClock} {req : WriteRequest}
    (hw : s.writers = pre ++ ⟨lock, d, t, .entered clk req⟩ :: post) :
    Ordered codec { s with
      se := (s.se.prepare codec clk req).1
      writers := pre ++ ⟨lock, d, t, .logging (s.se.prepare codec clk req).2 []⟩ :: post } := by
  have hself := h.writers _ (mem_middle hw)
  have hmode := hself.mode req rfl
  obtain ⟨hp, hoff⟩ := Engine.prepare_spec codec h.holds.tail_pos clk hmode
  have hadv := hp.grows.advances hp.wals
  refine h.grow hp.grows hp.index hp.wals hp.tail_pos rfl ?_ ?_
  · refine forall_mem_replaced hw (fun x hx => (h.writers x hx).advance hadv) ?_
    have hmem : ∀ {x : Write}, x ∈ Writer.writes
        ⟨lock, d, t, .logging (s.se.prepare codec clk req).2 []⟩ →
        x ∈ (s.se.prepare codec clk req).2 := fun hx => by simpa [Writer.writes] using hx
    exact
      { ready := fun x hx => ⟨hp.ready x (hmem hx), hoff x (hmem hx)⟩
        mode := fun _ h' => (by cases h')
        routed := fun x hx => by
          rw [hp.grows.disk, s.se.prepare_disk codec clk req x (hmem hx)]
          exact hself.request_disk req rfl
        request_disk := fun _ h' => (by cases h')
        placed := fun _ hl => (by cases hl) }
  · intro k i hpend
    refine hpend.replace hw rfl ?_
    intro l hl
    cases hl

theorem Ordered.append (h : s.Ordered codec) {pre post : List Writer} {d t : Nat} {w : Write}
    {todo : List Write} {logged : List Logged}
    (hw : s.writers = pre ++ ⟨lock, d, t, .logging (w :: todo) logged⟩ :: post)
    (hP : Discipline.ordered.append s w) :
    Ordered codec { s with
      se := s.se.appendWAL w.record
      writers := pre ++ ⟨lock, d, t, .logging todo
        (logged ++ [⟨w, (s.se.recordsOf w.record.key).length⟩])⟩ :: post } := by
  have hself := h.writers _ (mem_middle hw)
  obtain ⟨hready, hoffset⟩ := hself.ready w (by simp [Writer.writes])
  have hadv := s.se.advances_appendWAL w.record
  have hrec := s.se.recordsOf_appendWAL w.record
  refine ⟨?_, ?_, ?_, ?_, ?_, ?_⟩
  · have hlast : ∀ ws, lastInstalled { s with se := s.se.appendWAL w.record, writers := ws } =
        s.lastInstalled := by
      intro ws
      funext k
      simp only [lastInstalled, hrec, take_append_of_le_length (h.installs_le k)]
    rw [hlast]
    exact h.holds.appendWAL hready.stored
  · refine forall_mem_replaced hw (fun x hx => (h.writers x hx).advance hadv) ?_
    have hself' := hself.advance hadv
    refine hself'.logging lock t ?_ ?_
    · intro x hx
      simp only [Writer.writes, map_append, map_cons, map_nil, mem_append,
        mem_cons, not_mem_nil, or_false] at hx ⊢
      tauto
    · refine forall_mem_append.mpr ⟨hself'.placed, forall_mem_singleton.mpr ?_⟩
      simp [Logged.key, hrec]
  · intro k
    simp only [hrec, length_append]
    exact Nat.le_add_right_of_le (h.installs_le k)
  · intro k i hi hlt
    simp only [hrec, length_append] at hlt
    by_cases hold : i < (s.se.recordsOf k).length
    · refine (h.covered k i hi hold).replace hw rfl ?_
      intro l hl _ _
      exact mem_append_left _ hl
    · have hk : w.record.key = k := by
        by_contra hne
        simp [hne] at hlt
        exact hold hlt
      subst hk
      simp only [if_true, length_singleton] at hlt
      refine ⟨⟨lock, d, t, .logging todo
        (logged ++ [⟨w, (s.se.recordsOf w.record.key).length⟩])⟩, by simp,
        ⟨w, (s.se.recordsOf w.record.key).length⟩, by simp [Writer.logged], rfl, ?_⟩
      simp only
      omega
  · intro k
    simp only [hrec]
    by_cases hk : w.record.key = k
    · subst hk
      rw [if_pos rfl, pairwise_append]
      refine ⟨h.sorted _, pairwise_singleton .., ?_⟩
      intro a ha b hb
      rw [mem_singleton.mp hb]
      exact hP.1 a ha
    · rw [if_neg hk, append_nil]
      exact h.sorted k
  · intro k r hr
    simp only [hrec, mem_append] at hr
    rcases hr with hr | hr
    · exact (h.direct k r hr).grow hadv.toGrows
    · by_cases hk : w.record.key = k
      · rw [if_pos hk, mem_singleton] at hr
        subst hr
        exact ⟨hoffset.grow hadv.toGrows, fun ht hkv => hP.2 hkv ht⟩
      · rw [if_neg hk] at hr
        cases hr

end Sys

theorem getLast?_take_succ {α : Type*} {l : List α} {n : Nat} {a : α} (h : l[n]? = some a) :
    (l.take (n + 1)).getLast? = some a := by
  rw [take_add_one, h]
  simp

theorem Sys.Ordered.install (h : s.Ordered codec) {pre post : List Writer} {d t : Nat}
    {l : Logged} {logged : List Logged}
    (hw : s.writers = pre ++ ⟨lock, d, t, .logging [] (l :: logged)⟩ :: post)
    (hP : Discipline.ordered.install s l) :
    Sys.Ordered codec { s with
      se := s.se.install l.write.install
      writers := pre ++ ⟨lock, d, t, .logging [] logged⟩ :: post
      installs := update s.installs l.key (s.installs l.key + 1) } := by
  have hself := h.writers _ (mem_middle hw)
  obtain ⟨hready, -⟩ := hself.ready l.write (by simp [Writer.writes])
  have hat : (s.se.recordsOf l.key)[s.installs l.key]? = some l.write.record := by
    have hseq : l.seq = s.installs l.key := hP
    rw [← hseq]
    exact hself.placed l (by simp [Writer.logged])
  have hadv := s.se.advances_install l.write.install
  have hrec := (s.se.grows_install l.write.install).recordsOf (s.se.install_wals _)
  refine ⟨?_, ?_, ?_, ?_, ?_, ?_⟩
  · have hlast : ∀ ws, Sys.lastInstalled { s with
        se := s.se.install l.write.install
        writers := ws
        installs := update s.installs l.key (s.installs l.key + 1) } =
        update s.lastInstalled l.key (some l.write.record) := by
      intro ws
      funext k
      simp only [Sys.lastInstalled, hrec]
      by_cases hk : k = l.key
      · subst hk
        rw [update_self, update_self, getLast?_take_succ hat]
      · rw [update_of_ne hk, update_of_ne hk]
        rfl
    rw [hlast]
    exact h.holds.install hready
  · refine forall_mem_replaced hw (fun x hx => (h.writers x hx).advance hadv) ?_
    have hself' := hself.advance hadv
    exact hself'.logging lock t (fun _ => mem_cons_of_mem _) fun l' hl' =>
      hself'.placed l' (mem_cons_of_mem _ hl')
  · intro k
    simp only [hrec]
    by_cases hk : k = l.key
    · subst hk
      rw [update_self]
      obtain ⟨hlt, -⟩ := List.getElem?_eq_some_iff.mp hat
      exact hlt
    · rw [update_of_ne hk]
      exact h.installs_le k
  · intro k i hi hlt
    simp only [hrec] at hlt
    have hle : s.installs k ≤ i := by
      by_cases hk : k = l.key
      · subst hk
        simp only [update_self] at hi
        omega
      · simpa only [update_of_ne hk] using hi
    refine (h.covered k i hle hlt).replace hw rfl ?_
    intro l' hl' hk' hi'
    -- the installed record is not the one at place i any more
    rcases mem_cons.mp hl' with rfl | hl'
    · subst hk'
      have hseq : l'.seq = s.installs l'.key := hP
      simp only [update_self] at hi
      omega
    · exact hl'
  · intro k
    simp only [hrec]
    exact h.sorted k
  · intro k r hr
    simp only [hrec] at hr
    exact (h.direct k r hr).grow hadv.toGrows

/-- A writer that has logged nothing yet joins. -/
theorem Sys.Ordered.start (h : s.Ordered codec) {w : Writer} (hwrites : w.writes = [])
    (hlogged : w.logged = [])
    (hreq : ∀ req, w.request = some req → (req.needsVLog = true → s.se.kvSep = true) ∧
      req.disk s.se = w.disk) :
    Sys.Ordered codec { s with writers := s.writers ++ [w] } := by
  refine h.silent rfl rfl ?_ ?_
  · intro x hx
    rcases mem_append.mp hx with hx | hx
    · exact h.writers x hx
    · rw [mem_singleton.mp hx]
      exact
        { ready := by simp [hwrites]
          mode := fun req h' => (hreq req h').1
          routed := by simp [hwrites]
          request_disk := fun req h' => (hreq req h').2
          placed := by simp [hlogged] }
  · rintro k i ⟨x, hx, l, hl⟩
    exact ⟨x, mem_append_left _ hx, l, hl⟩

theorem Sys.Ordered.step (h : s.Ordered codec) {r : Option WALEntry}
    (hs : s.Step codec .ordered r s') : s'.Ordered codec := by
  cases hs with
  | stamp clk req hplain hmode =>
    refine h.start rfl rfl ?_
    intro req' h'
    cases h'
    exact ⟨hmode, rfl⟩
  | lock clk nowUs key op value ttl hmode =>
    refine h.start rfl rfl ?_
    intro req' h'
    cases h'
    exact ⟨fun _ => hmode, rfl⟩
  | enter pre post lock d t clk req hw =>
    refine h.silent rfl rfl ?_ ?_
    · have hx := h.writers _ (mem_middle hw)
      refine forall_mem_replaced hw h.writers ?_
      exact ⟨fun x hx => (by cases hx), hx.mode, fun x hx => (by cases hx), hx.request_disk,
        fun l hl => (by cases hl)⟩
    · intro k i hp
      refine hp.replace hw rfl ?_
      intro l hl
      cases hl
  | prepare pre post lock d t clk req hw => exact h.prepare hw
  | append pre post lock d t w todo logged hw hP => exact h.append hw hP
  | install pre post lock d t l logged hw hfree hP => exact h.install hw hP
  | exit pre post lock d t hw =>
    refine h.silent rfl rfl (fun x hx => h.writers x (mem_rest hw hx)) ?_
    rintro k i ⟨x, hx, l, hl, hkey⟩
    rcases mem_middle_cases hw hx with rfl | hx
    · cases hl
    · exact ⟨x, hx, l, hl, hkey⟩

/-! ## Replay after the writers have returned -/

theorem replayOrder_of_direct {c : ReplayConfig} {rs : List WalReplayEntry}
    (h : ∀ r ∈ rs, direct c r = true) : replayOrder c rs = rs := by
  have hdef : rs.filter (deferred c) = [] := by
    rw [filter_eq_nil_iff]
    intro r hr hd
    have := h r hr
    simp [direct, hd] at this
  have hdir : rs.filter (fun r => !deferred c r && !skipped c r) = rs :=
    filter_eq_self.mpr h
  rw [replayOrder, hdef, hdir, append_nil]

theorem live_run_replayOrder_concat {inOrder : Bool} {c : ReplayConfig} {vl : VLog}
    {rs : List WalReplayEntry} {r : WalReplayEntry} (hdir : ∀ x ∈ rs ++ [r], direct c x = true)
    (hst : ∀ x ∈ rs, x.stampUs ≤ r.stampUs) :
    live (run inOrder none ((replayOrder c (rs ++ [r])).map (recordUpdate c vl))) =
      (recordUpdate c vl r).value := by
  rw [replayOrder_of_direct hdir, map_append]
  apply live_run_concat
  · intro t a h
    cases h
  · intro u hu
    obtain ⟨x, hx, rfl⟩ := mem_map.mp hu
    rw [recordUpdate_stamp, recordUpdate_stamp]
    exact hst x hx

theorem Engine.Direct.direct (h : se.Direct r) (codec : ValueCodec) (d : Nat) (nowUs : Int) :
    direct (se.replayConfig codec d nowUs) r.replayed = true := by
  cases ht : r.isTombstone with
  | true => simp [Storage.direct, deferred, skipped, WALEntry.replayed, ht]
  | false =>
    cases hkv : se.kvSep with
    | true =>
      have hoff := h.separate ht hkv
      simp [Storage.direct, deferred, skipped, WALEntry.replayed, Engine.replayConfig, hkv, hoff,
        Int.not_le.mpr hoff]
    | false =>
      have hoff := h.inline ht hkv
      have hval := h.value ht hkv
      have hinl : r.inline = true := by
        simp [WALEntry.inline, ht, hoff, length_pos_iff, hval]
      simp [Storage.direct, deferred, skipped, WALEntry.replayed, Engine.replayConfig, hkv, hinl,
        hval]

/-- What a list of records of one key leaves, when no earlier one has a later
stamp than the last. -/
theorem Engine.live_records_concat {rs : List WALEntry} {key : Key} (hk : r.key = key)
    (hdir : ∀ x ∈ rs ++ [r], se.Direct x)
    (hst : ∀ x ∈ rs, x.replayed.stampUs ≤ r.replayed.stampUs) (codec : ValueCodec) (nowUs : Int) :
    live (run false none
        ((replayOrder (se.replayConfig codec (se.disk key) nowUs)
          ((rs ++ [r]).map WALEntry.replayed)).map
          (recordUpdate (se.replayConfig codec (se.disk key) nowUs)
            (se.vlogs (se.disk key))))) = (se.outcome codec r).bind (unexpired nowUs) := by
  subst hk
  rw [map_append, ← Engine.recordUpdate_value_eq]
  refine live_run_replayOrder_concat ?_ ?_
  · refine forall_mem_append.mpr ⟨forall_mem_map.mpr fun y hy => ?_, forall_mem_singleton.mpr ?_⟩
    · exact (hdir y (by simp [hy])).direct codec _ nowUs
    · exact (hdir r (by simp)).direct codec _ nowUs
  · intro x hx
    obtain ⟨y, hy, rfl⟩ := mem_map.mp hx
    exact hst y hy

theorem Sys.Ordered.replayedView_eq (h : s.Ordered codec) (key : Key) (nowUs : Int) :
    s.se.replayedView codec key nowUs =
      ((s.se.lastRecord key).bind (s.se.outcome codec)).bind (unexpired nowUs) := by
  rw [h.holds.replayedView_eq, Engine.replayUpdates, Engine.lastRecord]
  have hsorted := h.sorted key
  have hdirect := h.direct key
  rcases eq_nil_or_concat (s.se.recordsOf key) with hnil | ⟨rs, r, hconcat⟩
  · rw [hnil]
    rfl
  · rw [concat_eq_append] at hconcat
    have hr : r.key = key := Engine.key_of_mem_recordsOf (by rw [hconcat]; simp)
    rw [hconcat] at hsorted hdirect ⊢
    rw [pairwise_append] at hsorted
    rw [Engine.live_records_concat hr hdirect (fun x hx => hsorted.2.2 x hx r (by simp))]
    simp

theorem Sys.Ordered.lastInstalled_eq (h : s.Ordered codec) (hdone : s.writers = []) :
    s.lastInstalled = s.se.lastRecord := by
  funext k
  have hle : (s.se.recordsOf k).length ≤ s.installs k := by
    by_contra hlt
    obtain ⟨w, hw, -⟩ := h.covered k (s.installs k) (Nat.le_refl _) (by omega)
    rw [hdone] at hw
    cases hw
  rw [Sys.lastInstalled, Engine.lastRecord, take_of_length_le hle]

/-- Once all writers have returned, replay shows of every key what the index
shows, if stamps did not fall along the log of any key and changes were
installed in log order. -/
theorem Sys.Ordered.replayedView_eq_view (h : s.Ordered codec) (hdone : s.writers = [])
    (key : Key) (nowUs : Int) :
    s.se.replayedView codec key nowUs = s.se.view codec key nowUs := by
  rw [h.replayedView_eq, h.holds.view_eq, h.lastInstalled_eq hdone]

/-- A put of the key `k`. -/
def putK (value : List UInt8) : WriteRequest := .put [107] value 0 0 false

end Lemmas

end VeltrixDB.Storage
