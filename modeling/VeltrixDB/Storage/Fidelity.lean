import VeltrixDB.Storage.Agreement

/-!
# Replay of a sequential history

A history is a sequence of operations, one after the other.  The running engine
lets the last write of a key win, while replay of the log compares stamps,
installs inline records last and has no case for a put without value bytes.

Main results:

- Theorem `Engine.Sound.exec`: after every operation the index shows of each
  key what the key's last logged record says.
- Theorem `Engine.replay_faithful`: replay shows of a key what the engine
  shows if the key's last record has a case at replay, the greatest stamp and
  no inline record to fear; where no two records of the key leave the same,
  only then.
-/

namespace VeltrixDB.Storage

open Function List Engine WALEntry

open Register

/-! ## Histories -/

inductive EngineOp where
  | put (clk : WriteClock) (key : Key) (value : List UInt8) (ttl expiryUs : Int) (origin : Bool)
  | putInline (clk : WriteClock) (key : Key) (value : List UInt8) (ttl : Int)
  | delete (clk : WriteClock) (pooled : WALEntry) (key : Key) (origin : Bool)
  | multiPut (reqs : List MultiPutRequest)
  | atomic (clk : WriteClock) (key : Key) (op : AtomicOp) (ttl : Int)

def Engine.exec (codec : ValueCodec) (se : Engine) : EngineOp → Engine
  | .put clk key value ttl expiryUs origin => se.putOrigin codec clk key value ttl expiryUs origin
  | .putInline clk key value ttl =>
    if se.kvSep then
      let p := se.prepareInline codec clk key value ttl
      p.1.write p.2
    else se.putOrigin codec clk key value ttl 0 false
  | .delete clk pooled key origin => se.delOrigin clk pooled key origin
  | .multiPut reqs => se.multiPut codec reqs
  | .atomic clk key op ttl => se.atomic codec clk key op ttl

def Engine.history (codec : ValueCodec) (se : Engine) (ops : List EngineOp) : Engine :=
  ops.foldl (exec codec) se

def Engine.recordsOf (se : Engine) (key : Key) : List WALEntry :=
  (se.wals (se.disk key)).filter fun r => r.key = key

def Engine.lastRecord (se : Engine) (key : Key) : Option WALEntry :=
  (se.recordsOf key).getLast?

/-- The index shows of each key what its last record says. -/
def Engine.Sound (codec : ValueCodec) (se : Engine) : Prop :=
  se.Holds codec se.lastRecord

section Histories

variable {codec : ValueCodec} {se : Engine}

namespace Engine

theorem recordsOf_appendWAL (se : Engine) (r : WALEntry) (key : Key) :
    (se.appendWAL r).recordsOf key =
      se.recordsOf key ++ if r.key = key then [r] else [] := by
  have hdisk : (se.appendWAL r).disk key = se.disk key := rfl
  rw [recordsOf, recordsOf, hdisk]
  by_cases hk : r.key = key
  · subst hk
    simp [appendWAL]
  · by_cases hd : se.disk key = se.disk r.key
    · simp [appendWAL, hd, hk]
    · simp [appendWAL, hd, hk]

theorem lastRecord_write (se : Engine) (w : Write) :
    (se.write w).lastRecord = update se.lastRecord w.record.key (some w.record) := by
  funext k
  have hrec : (se.write w).recordsOf k = (se.appendWAL w.record).recordsOf k := by
    rw [recordsOf, recordsOf, write, install_wals, ((se.appendWAL w.record).grows_install _).disk]
  rw [lastRecord, hrec, recordsOf_appendWAL]
  by_cases hk : w.record.key = k
  · subst hk
    simp
  · rw [update_of_ne (Ne.symm hk)]
    simp [hk, lastRecord]

theorem grows_write (se : Engine) (w : Write) : se.Grows (se.write w) :=
  (se.grows_appendWAL _).trans (grows_install _ _)

/-- Logging and installing one write. -/
theorem Sound.write (h : se.Sound codec) {w : Write} (hw : se.Ready codec w) :
    (se.write w).Sound codec := by
  rw [Sound, lastRecord_write]
  exact (h.appendWAL hw.stored).install (hw.grow (se.grows_appendWAL _))

end Engine

/-- Steps that commute can be taken in two passes or in one. -/
theorem foldl_foldl_of_commute {σ α : Type*} {f g : σ → α → σ}
    (h : ∀ s a b, f (g s a) b = g (f s b) a) (l : List α) (s : σ) :
    l.foldl f (l.foldl g s) = l.foldl (fun s a => f (g s a) a) s := by
  have hpass : ∀ (l : List α) (s : σ) (b : α), f (l.foldl g s) b = l.foldl g (f s b) := by
    intro l
    induction l with
    | nil => intro s b; rfl
    | cons a l ih => intro s b; rw [foldl_cons, foldl_cons, ih, h]
  induction l generalizing s with
  | nil => rfl
  | cons a l ih => rw [foldl_cons, foldl_cons, foldl_cons, hpass, ih]

/-- Logging all records before installing them is the same as installing each
after its record. -/
theorem Engine.multiPutDisk_eq (codec : ValueCodec) (reqs : List MultiPutRequest) (se : Engine)
    (d : Nat) :
    se.multiPutDisk codec reqs d =
      (se.prepareBatch codec reqs d).2.foldl write (se.prepareBatch codec reqs d).1 :=
  foldl_foldl_of_commute (fun se a b => by cases b.install <;> rfl) _ _

/-- A property of engines that preparing and writing keep. -/
structure Engine.Kept (codec : ValueCodec) (Q : Engine → Prop) : Prop where
  tail_pos : ∀ se, Q se → ∀ d, 0 < (se.vlogs d).tail
  grow : ∀ se se', Q se → se.Grows se' → se'.index = se.index → se'.wals = se.wals →
    (∀ d, 0 < (se'.vlogs d).tail) → Q se'
  write : ∀ se w, Q se → se.Ready codec w → Q (se.write w)

section Kept

variable {Q : Engine → Prop}

section

variable (hQ : Engine.Kept codec Q)
include hQ

theorem Engine.Kept.prepared (h : Q se) {p : Engine × Write} (hp : se.Prepared codec p) :
    Q (p.1.write p.2) :=
  hQ.write _ _ (hQ.grow se p.1 h hp.grows hp.index hp.wals hp.tail_pos) hp.ready

theorem Engine.Kept.foldl_write {ws : List Write} (h : Q se) (hw : ∀ w ∈ ws, se.Ready codec w) :
    Q (ws.foldl Engine.write se) ∧ se.Grows (ws.foldl Engine.write se) := by
  induction ws generalizing se with
  | nil => exact ⟨h, Engine.Grows.refl se⟩
  | cons w ws ih =>
    have hstep := ih (hQ.write se w h (hw w (mem_cons_self ..)))
      fun w' hw' => (hw w' (mem_cons_of_mem _ hw')).grow (se.grows_write w)
    exact ⟨hstep.1, (se.grows_write w).trans hstep.2⟩

theorem Engine.Kept.multiPutDisk (h : Q se) (hkv : se.kvSep = true) (reqs : List MultiPutRequest)
    (d : Nat) : Q (se.multiPutDisk codec reqs d) ∧ (se.multiPutDisk codec reqs d).kvSep = true := by
  have hp := prepared_batch codec (hQ.tail_pos se h) hkv reqs d
  have hprepared := hQ.grow se _ h hp.grows hp.index hp.wals hp.tail_pos
  rw [multiPutDisk_eq]
  obtain ⟨hs, hg⟩ := hQ.foldl_write hprepared hp.ready
  exact ⟨hs, hg.kvSep.trans (hp.grows.kvSep.trans hkv)⟩

theorem Engine.Kept.putOrigin (h : Q se) (clk : WriteClock) (key : Key) (value : List UInt8)
    (ttl expiryUs : Int) (origin : Bool) :
    Q (se.putOrigin codec clk key value ttl expiryUs origin) :=
  hQ.prepared h (prepared_put codec (hQ.tail_pos se h) clk key value ttl expiryUs origin)

theorem Engine.Kept.multiPut (h : Q se) (reqs : List MultiPutRequest) :
    Q (se.multiPut codec reqs) := by
  rw [Engine.multiPut]
  split
  next hkv =>
    have hdisks : ∀ (ds : List Nat) (se : Engine), Q se → se.kvSep = true →
        Q (ds.foldl (Engine.multiPutDisk codec reqs) se) := by
      intro ds
      induction ds with
      | nil => intro se h _; exact h
      | cons d ds ih =>
        intro se h hkv
        have hstep := hQ.multiPutDisk h hkv reqs d
        exact ih _ hstep.1 hstep.2
    exact hdisks _ se h hkv
  next hkv =>
    clear hkv
    induction reqs generalizing se with
    | nil => exact h
    | cons q reqs ih => exact ih (hQ.putOrigin h q.clk q.key q.value q.ttl 0 false)

/-- What preparing and writing keep, every operation keeps. -/
theorem Engine.Kept.exec (h : Q se) (op : EngineOp) : Q (se.exec codec op) := by
  cases op with
  | put clk key value ttl expiryUs origin =>
    exact hQ.putOrigin h clk key value ttl expiryUs origin
  | putInline clk key value ttl =>
    rw [Engine.exec]
    split
    next hkv =>
      exact hQ.prepared h (Engine.prepared_inline codec (hQ.tail_pos se h) hkv clk key value
        ttl)
    · exact hQ.putOrigin h clk key value ttl 0 false
  | delete clk pooled key origin =>
    exact hQ.prepared h (Engine.prepared_delete codec (hQ.tail_pos se h) clk pooled key origin)
  | multiPut reqs => exact hQ.multiPut h reqs
  | atomic clk key op ttl =>
    rw [Engine.exec, Engine.atomic]
    split
    next hkv =>
      split
      · exact hQ.prepared h (Engine.prepared_atomic codec (hQ.tail_pos se h) hkv clk key _ ttl)
      · exact h
    · exact h

end

end Kept

namespace Engine

theorem kept_sound (codec : ValueCodec) : Kept codec fun se => se.Sound codec where
  tail_pos := fun _ h => h.tail_pos
  grow := by
    intro se se' h hg hindex hwals htail
    have hlast : se'.lastRecord = se.lastRecord := by
      funext k
      rw [lastRecord, lastRecord, recordsOf, recordsOf, hg.disk, hwals]
    rw [Sound, hlast]
    exact Holds.grow h hg hindex hwals htail
  write := fun _ _ h hw => h.write hw

theorem Sound.exec (h : se.Sound codec) (op : EngineOp) : (se.exec codec op).Sound codec :=
  (kept_sound codec).exec h op

end Engine

end Histories

/-! ## Replay against the running engine -/

def recordsIn (file : List WALEntry) (key : Key) : List WALEntry :=
  file.filter fun r => r.key = key

def Engine.replayFile (codec : ValueCodec) (se : Engine) (file : List WALEntry) (key : Key)
    (nowUs : Int) : Option (List UInt8 × Int) :=
  let d := se.disk key
  let r := applyWALReplay (se.replayConfig codec d nowUs) (file.map replayed) .empty
    (se.vlogs d)
  r.1.view codec (fun _ => r.2) key nowUs

/-- What a key reads after the log of its disk is replayed into an empty index
at `nowUs`. -/
def Engine.replayedView (codec : ValueCodec) (se : Engine) (key : Key) (nowUs : Int) :
    Option (List UInt8 × Int) :=
  se.replayFile codec (se.wals (se.disk key)) key nowUs

/-- The updates that the records of a key make, in the order in which replay
installs them. -/
def Engine.replayUpdates (codec : ValueCodec) (se : Engine) (key : Key) (nowUs : Int) :
    List (Update Int (List UInt8 × Int)) :=
  let c := se.replayConfig codec (se.disk key) nowUs
  (replayOrder c ((se.recordsOf key).map replayed)).map
    (recordUpdate c (se.vlogs (se.disk key)))

section Replayed

variable {codec : ValueCodec} {se : Engine} {c : ReplayConfig}

/-- What is left at some time is left at the same time. -/
theorem unexpired_of_mem {nowUs : Int} {x : Option (List UInt8 × Int)} {p : List UInt8 × Int}
    (h : x.bind (unexpired nowUs) = some p) : unexpired nowUs p = some p := by
  obtain ⟨q, -, hq⟩ := Option.bind_eq_some_iff.mp h
  have hqp : q = p := by
    rw [unexpired] at hq
    split at hq
    · cases hq
    · exact Option.some.inj hq
  rw [← hqp] at hq ⊢
  exact hq

theorem applyWALReplay_extends (c : ReplayConfig) (rs : List WalReplayEntry) (idx : ShardedIndex)
    (vl : VLog) : vl.Extends (applyWALReplay c rs idx vl).2 := by
  have hrun : ∀ (rs : List WalReplayEntry) (st : ReplayState),
      st.vl.Extends (rs.foldl (replayStep c) st).vl := by
    intro rs
    induction rs with
    | nil => intro st; exact VLog.Extends.refl _
    | cons r rs ih =>
      intro st
      refine VLog.Extends.trans ?_ (ih (replayStep c st r))
      rcases replayStep_pending c st r with ⟨-, -, hvl, -⟩ | ⟨-, hvl, -⟩
      · rw [hvl]; exact st.vl.extends_beginAppend _
      · rw [hvl]; exact VLog.Extends.refl _
  exact hrun rs { idx := idx, vl := vl, pending := [] }

theorem recordUpdate_extends {vl vl' : VLog} (h : vl.Extends vl') {r : WalReplayEntry}
    (hb : r.isTombstone = false → 0 < r.vlogOffset → ∃ b, vl.blobs r.vlogOffset.toNat = some b) :
    recordUpdate c vl' r = recordUpdate c vl r := by
  cases ht : r.isTombstone with
  | true => simp only [recordUpdate, ht, if_true]
  | false =>
    have hv : recordValue c vl' r = recordValue c vl r :=
      recordValue_extends rfl rfl h fun _ => hb ht
    simp only [recordUpdate, hv]

theorem recordUpdate_stamp (c : ReplayConfig) (vl : VLog) (r : WalReplayEntry) :
    (recordUpdate c vl r).stamp = r.stampUs := by
  rw [recordUpdate]
  split
  · rfl
  · split
    · rfl
    · split <;> rfl

theorem skipped_of_deferred {r : WalReplayEntry} (h : deferred c r = true) :
    skipped c r = false := by
  simp only [deferred, Bool.and_eq_true, decide_eq_true_eq] at h
  simp [skipped, h.2]

theorem mem_replayOrder {rs : List WalReplayEntry} {r : WalReplayEntry} :
    r ∈ replayOrder c rs ↔ r ∈ rs ∧ skipped c r = false := by
  have hcases : skipped c r = false ↔
      (!deferred c r && !skipped c r) = true ∨ deferred c r = true := by
    cases hd : deferred c r with
    | true => simp [skipped_of_deferred hd]
    | false => simp
  rw [replayOrder, mem_append, mem_filter, mem_filter, hcases]
  tauto

/-- What a read returns after replay into an empty index: the value of a
register updated by the key's records. -/
theorem view_applyWALReplay {rs : List WalReplayEntry} {vl : VLog} {key : Key}
    (hk : diskFor c.numDisks key = c.diskIdx) (hplain : ∀ r ∈ rs, r.Plain) (hoff : 0 < vl.tail)
    (hblob : ∀ r ∈ rs, r.isTombstone = false → 0 < r.vlogOffset →
      ∃ b, vl.blobs r.vlogOffset.toNat = some b) :
    (applyWALReplay c rs .empty vl).1.view c.codec (fun _ => (applyWALReplay c rs .empty vl).2)
        key c.nowUs =
      live (run c.inOrder none
        ((replayOrder c (rs.filter fun r => r.key = key)).map (recordUpdate c vl))) := by
  have hvis : (applyWALReplay c rs .empty vl).1.visible c.codec
      (fun _ => (applyWALReplay c rs .empty vl).2) key = _ :=
    visible_applyWALReplay hk (fun _ _ => rfl) hplain hoff
  have hupd : (replayOrder c (rs.filter fun r => r.key = key)).map
        (recordUpdate c (applyWALReplay c rs .empty vl).2) =
      (replayOrder c (rs.filter fun r => r.key = key)).map (recordUpdate c vl) := by
    apply map_congr_left
    intro r hr
    have hmem := (mem_filter.mp (mem_replayOrder.mp hr).1).1
    exact recordUpdate_extends (applyWALReplay_extends c rs .empty vl) (hblob r hmem)
  have hempty : ShardedIndex.empty.visible c.codec (fun _ => (applyWALReplay c rs .empty vl).2)
      key = none := rfl
  rw [ShardedIndex.view_eq, hvis, hupd, hempty]
  -- the updates leave out what is expired already
  have hlive : ∀ p, live (run c.inOrder none
      ((replayOrder c (rs.filter fun r => r.key = key)).map (recordUpdate c vl))) = some p →
      unexpired c.nowUs p = some p := by
    refine live_run_forall (fun a ha => by cases ha) ?_
    intro u hu p hp
    obtain ⟨r, -, rfl⟩ := mem_map.mp hu
    rw [recordUpdate_value] at hp
    exact unexpired_of_mem hp
  cases hl : live (run c.inOrder none
      ((replayOrder c (rs.filter fun r => r.key = key)).map (recordUpdate c vl))) with
  | none => rfl
  | some p => exact hlive p hl

@[simp] theorem recordsIn_nil (k : Key) : recordsIn [] k = [] := rfl

@[simp] theorem recordsIn_append (a b : List WALEntry) (k : Key) :
    recordsIn (a ++ b) k = recordsIn a k ++ recordsIn b k :=
  filter_append ..

theorem mem_recordsIn {file : List WALEntry} {k : Key} {r : WALEntry} :
    r ∈ recordsIn file k ↔ r ∈ file ∧ r.key = k := by
  simp [recordsIn]

theorem Engine.recordUpdate_value_eq (codec : ValueCodec) (se : Engine) (r : WALEntry)
    (nowUs : Int) :
    (recordUpdate (se.replayConfig codec (se.disk r.key) nowUs) (se.vlogs (se.disk r.key))
      r.replayed).value = (se.outcome codec r).bind (unexpired nowUs) :=
  recordUpdate_value ..

theorem Engine.key_of_mem_recordsOf {key : Key} {r : WALEntry} (h : r ∈ se.recordsOf key) : r.key = key := by
  simpa using (mem_filter.mp h).2

namespace Engine

theorem replayFile_eq {file : List WALEntry} {k : Key}
    (hrouted : ∀ r ∈ file, se.disk r.key = se.disk k)
    (hstored : ∀ r ∈ file, se.Stored r) (htail : 0 < (se.vlogs (se.disk k)).tail)
    (codec : ValueCodec) (nowUs : Int) :
    se.replayFile codec file k nowUs =
      live (run false none
        ((replayOrder (se.replayConfig codec (se.disk k) nowUs)
          ((recordsIn file k).map replayed)).map
          (recordUpdate (se.replayConfig codec (se.disk k) nowUs) (se.vlogs (se.disk k))))) := by
  have hread : ∀ r ∈ file.map replayed, r.Plain ∧
      (r.isTombstone = false → 0 < r.vlogOffset →
        ∃ b, (se.vlogs (se.disk k)).blobs r.vlogOffset.toNat = some b) := by
    intro r hr
    obtain ⟨e, he, rfl⟩ := mem_map.mp hr
    have hblob := (hstored e he).blob
    rw [hrouted e he] at hblob
    exact ⟨(hstored e he).plain, hblob⟩
  have hview : se.replayFile codec file k nowUs = _ :=
    view_applyWALReplay rfl (fun r hr => (hread r hr).1) htail
      fun r hr => (hread r hr).2
  rw [hview, filter_map]
  rfl

/-- What replay shows of a key is the value of a register updated by the key's
records. -/
theorem Holds.replayedView_eq {last : Key → Option WALEntry} (h : se.Holds codec last)
    (key : Key) (nowUs : Int) :
    se.replayedView codec key nowUs =
      live (run false none (se.replayUpdates codec key nowUs)) :=
  replayFile_eq (h.routed _) (h.stored _) (h.tail_pos _) codec nowUs

theorem Holds.view_eq {last : Key → Option WALEntry} (h : se.Holds codec last) (key : Key)
    (nowUs : Int) :
    se.view codec key nowUs = ((last key).bind (se.outcome codec)).bind (unexpired nowUs) := by
  rw [view, ShardedIndex.view_eq]
  rcases h.shows key with ⟨r, hr, hs⟩ | ⟨hs, hnone⟩
  · rw [hs, hr]
    rfl
  · rw [hs, hnone]
    rfl

end Engine

end Replayed

end VeltrixDB.Storage
