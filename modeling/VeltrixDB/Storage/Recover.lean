import VeltrixDB.Storage.Checkpoint

/-!
# Replay in log order

In raft mode replay applies records in the order of the log and does not
compare stamps.  Every record that the engine logs in raft mode says all that
its entry holds, so replay leaves an index that agrees with the last record of
each key, from which the engine goes on.

Main results:

- Theorem `Engine.Holds.replayStep`: replaying one record keeps the index in
  agreement with the last record of each key.
- Theorem `Engine.holds_replayDisks`: so does the replay of all disks.
-/

namespace VeltrixDB.Storage

open Function List Engine WALEntry

/-! ## Records that replay rebuilds -/

def Engine.entryAt (se : Engine) (r : WALEntry) : IndexEntry :=
  { replayEntry r.replayed with
    diskOffset := r.vlogOffset.toNat
    segmentID := se.disk r.key }

/-- Replay installs the record at its place and finds its value. -/
structure Engine.Replayable (codec : ValueCodec) (se : Engine) (r : WALEntry) : Prop where
  stored : se.Stored r
  direct : se.Direct r
  located : r.isTombstone = false → se.kvSep = true →
    ∃ value, se.PointsTo codec r.key (se.entryAt r) value

def Engine.withIndex (se : Engine) (idx : ShardedIndex) : Engine := { se with index := idx }

/-- The record as replay at `nowUs` takes it: one that is past its deadline
counts as a delete. -/
def WALEntry.settled (r : WALEntry) (nowUs : Int) : WALEntry :=
  if r.isTombstone = false ∧ r.replayed.expired nowUs = true then { r with isTombstone := true }
  else r

def Engine.raftReplayConfig (codec : ValueCodec) (se : Engine) (d : Nat) (nowUs : Int) :
    ReplayConfig :=
  { se.replayConfig codec d nowUs with inOrder := true }

/-- The last record of each key, as replay at `nowUs` takes it. -/
def lastSettled (nowUs : Int) (rs : List WALEntry) (k : Key) : Option WALEntry :=
  (recordsIn rs k).getLast?.map (·.settled nowUs)

def Engine.replayDisk (codec : ValueCodec) (nowUs : Int) (kept : Nat → List WalReplayEntry)
    (se : Engine) (d : Nat) : Engine :=
  let a := applyWALReplay (se.raftReplayConfig codec d nowUs) (kept d) se.index (se.vlogs d)
  { se with index := a.1, vlogs := update se.vlogs d a.2 }

/-- Replay the records that are kept of all logs. -/
def Engine.replayDisks (codec : ValueCodec) (nowUs : Int) (kept : Nat → List WalReplayEntry)
    (se : Engine) : Engine :=
  (List.range se.numDisks).foldl (replayDisk codec nowUs kept) se

section Replay

variable {codec : ValueCodec} {se se' : Engine} {last : Key → Option WALEntry} {r : WALEntry}
  {nowUs : Int} {kept : Nat → List WALEntry}

theorem Engine.Replayable.grow (h : se.Replayable codec r) (hg : se.Grows se') :
    se'.Replayable codec r where
  stored := h.stored.grow hg
  direct := h.direct.grow hg
  located := by
    intro ht hkv
    rw [hg.kvSep] at hkv
    obtain ⟨value, hl⟩ := h.located ht hkv
    have hentry : se'.entryAt r = se.entryAt r := by
      rw [entryAt, entryAt, hg.disk]
    rw [hentry]
    exact ⟨value, hl.grow hg⟩

theorem WALEntry.settled_of_expired (ht : r.isTombstone = false)
    (hexp : r.replayed.expired nowUs = true) :
    r.settled nowUs = { r with isTombstone := true } := if_pos ⟨ht, hexp⟩

theorem WALEntry.settled_of_not
    (h : ¬(r.isTombstone = false ∧ r.replayed.expired nowUs = true)) : r.settled nowUs = r :=
  if_neg h

/-- What a record leaves at the time of the replay or later does not depend on
how it was settled. -/
theorem Engine.outcome_settled (codec : ValueCodec) (se : Engine) (r : WALEntry) {nowUs t : Int}
    (ht : nowUs ≤ t) :
    (se.outcome codec (r.settled nowUs)).bind (unexpired t) =
      (se.outcome codec r).bind (unexpired t) := by
  rw [settled]
  split
  next hexp =>
    obtain ⟨hpos, hle⟩ := (r.replayed.expired_iff nowUs).mp hexp.2
    rw [outcome_of_isTombstone rfl, outcome, recordOutcome]
    cases recordValue (se.replayConfig codec (se.disk r.key) 0) (se.vlogs (se.disk r.key))
      r.replayed with
    | none => simp
    | some v =>
      have hput : r.replayed.isTombstone = false := hexp.1
      simp [hput, unexpired, hpos, hle.trans ht]
  · rfl

theorem Engine.Holds.bury (h : se.Holds codec last) (hr : se.Stored r) (ht : r.isTombstone = true)
    (origin : Bool) :
    (se.withIndex (se.index.swap r.key (bareTombstone r.replayed.stampUs origin))).Holds codec
      (update last r.key (some r)) := by
  refine h.replace ⟨rfl, rfl, fun _ => VLog.Extends.refl _⟩ rfl rfl hr h.noDirty
    (fun k hk => ⟨update_of_ne hk .., rfl⟩) (fun e he => ?_) (.inl ⟨r, rfl, ?_⟩)
  · simp only [withIndex, ShardedIndex.swap, update_self, Option.some.injEq] at he
    subst he
    exact ⟨fun ho => (by cases ho), fun _ ht => (by cases ht), fun _ ht => (by cases ht)⟩
  · rw [outcome_of_isTombstone ht]
    simp [withIndex, ShardedIndex.visible, ShardedIndex.swap, bareTombstone]

/-- In log order a tombstone record does what a delete does, or leaves a bare
tombstone. -/
theorem Engine.Holds.replayTombstoneRecord (h : se.Holds codec last) (hr : se.Stored r)
    (ht : r.isTombstone = true) (origin : Bool) :
    (se.withIndex (se.index.replayTombstoneRecord true r.key r.replayed.stampUs origin)).Holds codec
      (update last r.key (some r)) := by
  rw [ShardedIndex.replayTombstoneRecord]
  cases he : se.index.entries r.key with
  | none => exact h.bury hr ht origin
  | some =>
    have hinstall := h.install (w := ⟨r, .delete r.key r.replayed.stampUs origin⟩)
      ⟨hr, rfl, ht, rfl⟩
    exact hinstall

/-- In log order a record past its deadline does what a delete does. -/
theorem Engine.Holds.replayMarkTombstone (h : se.Holds codec last) (r : WALEntry) :
    (se.withIndex (se.index.replayMarkTombstone true r.key r.replayed.stampUs)).Holds codec
      (update last r.key (some { r with isTombstone := true })) := by
  have hstored : se.Stored { r with isTombstone := true } :=
    ⟨fun hv => absurd rfl hv, fun ht => (by cases ht)⟩
  have hinstall := h.install (w := ⟨{ r with isTombstone := true },
    .delete r.key r.replayed.stampUs false⟩) ⟨hstored, rfl, rfl, rfl⟩
  exact hinstall

/-- In log order a put record is installed whatever is there. -/
theorem Engine.Holds.replayPut (h : se.Holds codec last) (hr : se.Stored r) {e : IndexEntry}
    {v : Option (List UInt8)} (hp : se.Presents codec r e v) :
    (se.withIndex (se.index.replayPut true r.key e v)).Holds codec
      (update last r.key (some r)) := by
  have hidx : se.index.replayPut true r.key e v = se.index.put r.key e v := by
    rw [ShardedIndex.replayPut]
    cases se.index.entries r.key with
    | none | some => rfl
  rw [hidx]
  exact h.install (w := ⟨r, .put r.key e v⟩) ⟨hr, rfl, hp⟩

theorem Engine.Replayable.presents_at (h : se.Replayable codec r) (ht : r.isTombstone = false)
    (hkv : se.kvSep = true) : se.Presents codec r (se.entryAt r) none where
  isPut := ht
  notTombstone := rfl
  stamp := rfl
  value := by
    have hvalue : recordValue (se.replayConfig codec (se.disk r.key) 0) (se.vlogs (se.disk r.key))
        r.replayed = entryValue codec se.vlogs (se.entryAt r) none := by
      rw [recordValue, if_pos ⟨hkv, h.direct.separate ht hkv⟩]
      rfl
    rw [← hvalue, outcome, recordOutcome, if_neg (by simp [replayed, ht])]
    rfl
  inMemory := by simp [hkv]
  located := fun hkv => h.located ht hkv
  blob := fun _ => h.stored.blob ht (h.direct.separate ht hkv)

theorem Engine.presents_inline (codec : ValueCodec) (ht : r.isTombstone = false)
    (hkv : se.kvSep = false) :
    se.Presents codec r (replayEntry r.replayed) (some r.replayed.value) where
  isPut := ht
  notTombstone := rfl
  stamp := rfl
  value := by
    rw [outcome, recordOutcome, if_neg (by simp [replayed, ht]), recordValue,
      if_neg (by simp [replayConfig, hkv])]
    rfl
  inMemory := by simp [hkv]
  located := fun hkv' => absurd (hkv.symm.trans hkv') (by decide)
  blob := fun hoff => (by cases hoff)

/-- Replaying one record keeps the index in agreement with the last record of
each key. -/
theorem Engine.Holds.replayStep {st : ReplayState} {d : Nat}
    (h : (se.withIndex st.idx).Holds codec last) (hr : se.Replayable codec r)
    (hd : se.disk r.key = d) (nowUs : Int) :
    (se.withIndex (replayStep (se.raftReplayConfig codec d nowUs) st r.replayed).idx).Holds codec
        (update last r.key (some (r.settled nowUs))) ∧
      (replayStep (se.raftReplayConfig codec d nowUs) st r.replayed).vl = st.vl ∧
      (replayStep (se.raftReplayConfig codec d nowUs) st r.replayed).pending = st.pending := by
  subst hd
  have hr' : (se.withIndex st.idx).Replayable codec r :=
    hr.grow ⟨rfl, rfl, fun _ => VLog.Extends.refl _⟩
  have hroute : ¬diskFor (se.raftReplayConfig codec (se.disk r.key) nowUs).numDisks r.replayed.key ≠
      (se.raftReplayConfig codec (se.disk r.key) nowUs).diskIdx := not_not.mpr rfl
  rw [Storage.replayStep, if_neg hroute]
  by_cases ht : r.replayed.isTombstone = true
  · have hsettled : r.settled nowUs = r :=
      WALEntry.settled_of_not fun hc => absurd (hc.1.symm.trans ht) (by decide)
    rw [if_pos ht, hsettled]
    exact ⟨h.replayTombstoneRecord hr'.stored ht _, rfl, rfl⟩
  rw [if_neg ht]
  have ht' : r.isTombstone = false := by simpa [WALEntry.replayed] using ht
  by_cases hexp : r.replayed.expired (se.raftReplayConfig codec (se.disk r.key) nowUs).nowUs = true
  · have hsettled : r.settled nowUs = { r with isTombstone := true } :=
      WALEntry.settled_of_expired ht' hexp
    rw [if_pos hexp, hsettled]
    exact ⟨h.replayMarkTombstone r, rfl, rfl⟩
  have hsettled : r.settled nowUs = r := WALEntry.settled_of_not fun hc => hexp hc.2
  rw [if_neg hexp, hsettled]
  by_cases hkv : (se.raftReplayConfig codec (se.disk r.key) nowUs).kvSep = true
  · have hoff : 0 < r.replayed.vlogOffset := hr.direct.separate ht' hkv
    rw [if_pos ⟨hkv, hoff⟩]
    exact ⟨h.replayPut hr'.stored (hr'.presents_at ht' hkv), rfl, rfl⟩
  · have hkv' : se.kvSep = false := by simpa [Engine.raftReplayConfig, Engine.replayConfig] using hkv
    have hval : r.replayed.value ≠ [] := by
      have hinl : r.inline = true := by
        simp [WALEntry.inline, ht', hr.direct.inline ht' hkv', length_pos_iff,
          hr.direct.value ht' hkv']
      simp [WALEntry.replayed, hinl, hr.direct.value ht' hkv']
    rw [if_neg fun hc => hkv hc.1, if_neg fun hc => hkv hc.1, if_pos ⟨hkv, hval⟩]
    exact ⟨h.replayPut hr'.stored (presents_inline codec ht' hkv'), rfl, rfl⟩

theorem lastSettled_concat (nowUs : Int) (rs : List WALEntry) (r : WALEntry) :
    lastSettled nowUs (rs ++ [r]) =
      update (lastSettled nowUs rs) r.key (some (r.settled nowUs)) := by
  funext k
  by_cases hk : k = r.key
  · subst hk
    simp [lastSettled, recordsIn]
  · rw [update_of_ne hk]
    simp [lastSettled, recordsIn, Ne.symm hk]

theorem Engine.Holds.foldl_replayStep {d : Nat} (rs : List WALEntry) :
    ∀ (st : ReplayState) (done : List WALEntry),
      (se.withIndex st.idx).Holds codec (lastSettled nowUs done) →
      (∀ r ∈ rs, se.Replayable codec r ∧ se.disk r.key = d) →
      (se.withIndex ((rs.map replayed).foldl
          (Storage.replayStep (se.raftReplayConfig codec d nowUs)) st).idx).Holds codec
          (lastSettled nowUs (done ++ rs)) ∧
        ((rs.map replayed).foldl
          (Storage.replayStep (se.raftReplayConfig codec d nowUs)) st).vl = st.vl ∧
        ((rs.map replayed).foldl
          (Storage.replayStep (se.raftReplayConfig codec d nowUs)) st).pending = st.pending := by
  induction rs with
  | nil =>
    intro st done h _
    rw [append_nil]
    exact ⟨h, rfl, rfl⟩
  | cons r rs ih =>
    intro st done h hrs
    have hr := hrs r (mem_cons_self ..)
    obtain ⟨hstep, hvl, hpend⟩ := h.replayStep hr.1 hr.2 nowUs
    rw [← lastSettled_concat] at hstep
    obtain ⟨hholds, hvl', hpend'⟩ := ih _ _ hstep fun r' hr' => hrs r' (mem_cons_of_mem _ hr')
    rw [append_assoc] at hholds
    rw [map_cons, foldl_cons]
    exact ⟨hholds, hvl'.trans hvl, hpend'.trans hpend⟩

theorem Engine.Holds.replayDisk {idx : ShardedIndex} {done : List WALEntry}
    (h : (se.withIndex idx).Holds codec (lastSettled nowUs done)) {d : Nat}
    (hkept : ∀ r ∈ kept d, se.Replayable codec r ∧ se.disk r.key = d) :
    ∃ idx', (se.withIndex idx).replayDisk codec nowUs (fun d => (kept d).map replayed) d =
        se.withIndex idx' ∧
      (se.withIndex idx').Holds codec (lastSettled nowUs (done ++ kept d)) := by
  obtain ⟨hholds, hvl, hpend⟩ := Engine.Holds.foldl_replayStep (kept d)
    { idx := idx, vl := se.vlogs d, pending := [] } done h hkept
  refine ⟨_, ?_, hholds⟩
  have happly : applyWALReplay (se.raftReplayConfig codec d nowUs)
      ((kept d).map replayed) idx (se.vlogs d) =
      ((((kept d).map replayed).foldl
        (Storage.replayStep (se.raftReplayConfig codec d nowUs))
        { idx := idx, vl := se.vlogs d, pending := [] }).idx, se.vlogs d) := by
    refine Prod.ext ?_ hvl
    show installPending _ _ _ = _
    rw [hpend]
    rfl
  have hdisk : (se.withIndex idx).replayDisk codec nowUs (fun d => (kept d).map replayed) d =
      let a := applyWALReplay (se.raftReplayConfig codec d nowUs)
        ((kept d).map replayed) idx (se.vlogs d)
      { se with index := a.1, vlogs := update se.vlogs d a.2 } := rfl
  rw [hdisk, happly]
  simp only [update_eq_self]
  rfl

theorem Engine.holds_replayDisks (h : (se.withIndex .empty).Holds codec fun _ => none)
    (hkept : ∀ d, ∀ r ∈ kept d, se.Replayable codec r ∧ se.disk r.key = d) (nowUs : Int) :
    ∃ idx, (se.withIndex .empty).replayDisks codec nowUs
          (fun d => (kept d).map replayed) = se.withIndex idx ∧
      (se.withIndex idx).Holds codec
        (lastSettled nowUs ((List.range se.numDisks).flatMap kept)) := by
  have hrun : ∀ (ds : List Nat) (idx : ShardedIndex) (done : List WALEntry),
      (se.withIndex idx).Holds codec (lastSettled nowUs done) →
      ∃ idx', ds.foldl (replayDisk codec nowUs fun d => (kept d).map replayed)
            (se.withIndex idx) = se.withIndex idx' ∧
        (se.withIndex idx').Holds codec (lastSettled nowUs (done ++ ds.flatMap kept)) := by
    intro ds
    induction ds with
    | nil =>
      intro idx done h
      rw [flatMap_nil, append_nil]
      exact ⟨idx, rfl, h⟩
    | cons d ds ih =>
      intro idx done h
      obtain ⟨idx₁, hstep, h₁⟩ := h.replayDisk (hkept d)
      obtain ⟨idx₂, hrest, h₂⟩ := ih idx₁ _ h₁
      refine ⟨idx₂, ?_, ?_⟩
      · rw [foldl_cons, hstep, hrest]
      · rw [flatMap_cons, ← append_assoc]
        exact h₂
  obtain ⟨idx, hidx, hholds⟩ := hrun (List.range se.numDisks) .empty [] h
  exact ⟨idx, hidx, hholds⟩

theorem recordsIn_flatMap (hrouted : ∀ d, ∀ r ∈ kept d, se.disk r.key = d) {ds : List Nat}
    (hds : ds.Nodup) {k : Key} (hk : se.disk k ∈ ds) :
    recordsIn (ds.flatMap kept) k = recordsIn (kept (se.disk k)) k := by
  have hother : ∀ d, d ≠ se.disk k → recordsIn (kept d) k = [] := by
    intro d hd
    rw [recordsIn, filter_eq_nil_iff]
    intro r hr hrk
    have hkey : r.key = k := by simpa using hrk
    exact hd (hkey ▸ hrouted d r hr).symm
  have hnone : ∀ ds : List Nat, se.disk k ∉ ds → recordsIn (ds.flatMap kept) k = [] := by
    intro ds
    induction ds with
    | nil => intro _; rfl
    | cons d ds ih =>
      intro hd
      rw [mem_cons, not_or] at hd
      rw [flatMap_cons, recordsIn_append, ih hd.2, hother d (Ne.symm hd.1)]
      rfl
  induction ds with
  | nil => cases hk
  | cons d ds ih =>
    rw [nodup_cons] at hds
    rw [flatMap_cons, recordsIn_append]
    by_cases hd : d = se.disk k
    · subst hd
      rw [hnone ds hds.1, append_nil]
    · have hk' : se.disk k ∈ ds := (mem_cons.mp hk).resolve_left (Ne.symm hd)
      rw [hother d hd, ih hds.2 hk', nil_append]

theorem diskFor_lt {numDisks : Nat} (h : 0 < numDisks) (k : Key) : diskFor numDisks k < numDisks := by
  rw [diskFor, diskForShard]
  split
  · exact h
  · exact Nat.mod_lt _ h

/-- The entry that replay builds from a checkpoint record points where the old
one did. -/
theorem Engine.PointsTo.entryAt_checkpointAt {k : Key} {e : IndexEntry} {value : List UInt8}
    (hl : se.PointsTo codec k e value) (version : Nat) (nowNs : Int) :
    se.PointsTo codec k (se.entryAt (checkpointAt version nowNs k e)) value := by
  obtain ⟨hc, he, -⟩ :=
    hasFlag_xformByte e.flags.compressed e.flags.encrypted e.flags.replicaApplied
  have hsize : (se.entryAt (checkpointAt version nowNs k e)).valueSize = e.valueSize :=
    hl.diskLen_checkpointAt version nowNs
  exact
    { hl with
      segmentID := rfl
      valueSize := hsize.trans hl.valueSize
      uncompressedSize := by
        have hlen : (se.entryAt (checkpointAt version nowNs k e)).uncompressedSize =
            if e.uncompressedSize = 0 then e.valueSize else e.uncompressedSize := rfl
        rw [hlen, hsize]
        split
        next h0 => exact .inr ⟨hl.eq_nil h0, rfl⟩
        · exact hl.uncompressedSize
      compressed := hc.trans hl.compressed
      encrypted := he.trans hl.encrypted }

theorem Engine.Holds.replayable_checkpointKey {k : Key} {clocks : List Int}
    {keepTombstone : Int → Int → Bool} {version : Nat} {nowNs : Int} {c : WALEntry}
    (h : se.Holds codec last)
    (him : se.Imaged codec clocks k (last k)
      (se.index.checkpointKey se.kvSep keepTombstone version nowNs k))
    (hc : se.index.checkpointKey se.kvSep keepTombstone version nowNs k = some c) :
    se.Replayable codec c := by
  obtain ⟨hkey, hst, hdir, -⟩ := him.same c hc
  refine ⟨hst, hdir, fun ht hkv => ?_⟩
  obtain ⟨e, he, hrec⟩ := Option.bind_eq_some_iff.mp hc
  obtain ⟨-, -, hput⟩ := checkpointRecord_eq_some hrec
  obtain ⟨hlive, hat⟩ := hput ht
  obtain ⟨value, hl⟩ := h.located hkv k e he hlive
  obtain rfl := hat hkv hl.offset_pos
  exact ⟨value, hl.entryAt_checkpointAt version nowNs⟩

end Replay

end VeltrixDB.Storage
