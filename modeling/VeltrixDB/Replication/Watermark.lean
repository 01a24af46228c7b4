import VeltrixDB.Replication.Kept

/-!
# Watermarks

The watermark of a replica is a time before which it has every operation of the node;
tombstones older than all watermarks are discarded, and a replica that comes back after a
restart reads the change feed from its watermark on (`watermarksLocked`,
`addReplica` in `replication/engine.go`, `replication/state.go`).  It is
derived from the flags of the replica, its catch-up and the operations that are retained,
so it is right as long as each operation shows in one of them.

Main results:

- Theorem `watermark_le`: what a watermark is below of.
- Theorem `Sys.Covered.step`: every operation is settled, retained, flagged or being
  caught up, at every replica that is not just joining.
- Theorem `Sys.Run.marks_sound`: watermarks are sound in runs in which a replica is
  added with its watermark or with everything settled, and operations are registered
  after the watermarks.
- Theorem `mark_of_readded`: a run of the engine as it is.
-/

namespace VeltrixDB.Replication

open List Parties ReplicaInfo ReplicationEngine

variable {N : Type}

/-! ## What a watermark is below of -/

section
variable [DecidableEq N]

theorem foldl_unacked_le (nodeID : N) (ps : List (PendingOp N)) (w : Int) :
    (ps.foldl (fun w p => if nodeID ∈ p.acked then w else min p.op.timestamp w) w ≤ w) ∧
      ∀ p ∈ ps, nodeID ∉ p.acked →
        ps.foldl (fun w p => if nodeID ∈ p.acked then w else min p.op.timestamp w) w ≤
          p.op.timestamp := by
  induction ps generalizing w with
  | nil => exact ⟨le_rfl, fun p hp => by cases hp⟩
  | cons q ps ih =>
    obtain ⟨hle, hall⟩ := ih (if nodeID ∈ q.acked then w else min q.op.timestamp w)
    refine ⟨hle.trans ?_, fun p hp hid => ?_⟩
    · split
      · exact le_rfl
      · exact min_le_right _ _
    · rcases mem_cons.mp hp with rfl | hp
      · refine hle.trans ?_
        rw [if_neg hid]
        exact min_le_left _ _
      · exact hall p hp hid

/-- A watermark is not above the flag, the catch-up and the operations that the replica
has not acknowledged. -/
theorem watermark_le (e : ReplicationEngine N) (nowNs : Int) (r : ReplicaInfo N) :
    (r.needsResync = true → e.watermark nowNs r ≤ r.resyncFromNs) ∧
      (r.catchingUpFromNs ≠ 0 → e.watermark nowNs r ≤ r.catchingUpFromNs) ∧
      ∀ k p, e.pendingWrites.lookup k = some p → r.nodeID ∉ p.acked →
        e.watermark nowNs r ≤ p.op.timestamp := by
  refine ⟨fun hneeds => ?_, fun hcatch => ?_, fun k p hp hid => ?_⟩
  · refine (foldl_unacked_le _ _ _).1.trans ?_
    simp only [hneeds, true_and]
    split <;> split <;> omega
  · refine (foldl_unacked_le _ _ _).1.trans ?_
    split <;> omega
  · refine (foldl_unacked_le _ _ _).2 p (mem_map.mpr ⟨⟨k, p⟩, ?_, rfl⟩) hid
    exact AList.mem_lookup_iff.mp hp

end

/-! ## Times are positive -/

def Task.since : Task N → Option Int
  | .marked _ since | .catchUp _ since _ _ => some since
  | _ => none

/-- The times of flags and catch-ups are positive, so a catch-up shows in the watermark. -/
structure Sys.Positive (s : Sys N) : Prop where
  flags : ∀ r ∈ s.engine.replicaStates, r.needsResync = true → 0 < r.resyncFromNs
  since : ∀ t ∈ s.tasks, ∀ since ∈ t.since, 0 < since

theorem Sys.Positive.init : (Sys.init : Sys N).Positive := by
  constructor <;> simp [Sys.init, start, Task.since]

theorem Sys.WF.retained_pos {s : Sys N} (hwf : s.WF) {k : ℕ} {p : PendingOp N}
    (hp : s.engine.pendingWrites.lookup k = some p) : 0 < p.op.timestamp :=
  hwf.registry.stamped _ (hwf.known.retained k p hp).2.1

section
variable [DecidableEq N] {cfg : ReplicationConfig} {s s' : Sys N} {t : Task N} {ev : Event N}
  {ts : List (Task N)} {x : Registered} {r' : ReplicaInfo N}

theorem Task.Step.flags_pos (h : Task.Step cfg s t ev s' ts) (hwf : s.WF) (hpos : s.Positive)
    (hmem : t ∈ s.tasks) (hr' : r' ∈ s'.engine.replicaStates) (hneeds : r'.needsResync = true) :
    0 < r'.resyncFromNs := by
  obtain ⟨r, hr, hto⟩ := h.touches hwf.replicas hr'
  have hflags := hpos.flags r hr
  cases hto with
  | overflow =>
    rw [markLagging_eq] at hneeds ⊢
    exact hflags hneeds
  | sent =>
    rw [backInSync_eq, ackAll_eq] at hneeds ⊢
    exact hflags hneeds
  | acked =>
    rw [ackAll_eq] at hneeds ⊢
    exact hflags hneeds
  | sendFailed ops arrived now =>
    refine flagAll_resyncFromNs (P := (0 < ·)) (r.markFailed cfg now) _ ?_ ?_ hneeds
    · rw [markFailed_eq]
      exact hflags
    · refine forall_mem_map.mpr fun op hop => ?_
      exact hwf.registry.stamped _ (hwf.known.tasks _ hmem op (mem_filter.mp hop).1)
  | member => exact Int.one_pos
  | finish =>
    rw [finishRecovery_eq] at hneeds ⊢
    exact hflags hneeds
  | catchUpFails since =>
    exact flagAll_resyncFromNs (P := (0 < ·)) { r with catchingUpFromNs := 0 } [since] hflags
      (forall_mem_singleton.mpr (hpos.since _ hmem since rfl)) hneeds
  | beginCatchUp | noSource => cases hneeds
  | same | lagging | endCatchUp | probeEnds | mark | recoveryFails => exact hflags hneeds

theorem Task.Step.since_pos (h : Task.Step cfg s t ev s' ts) (hpos : s.Positive)
    (hmem : t ∈ s.tasks) {u : Task N} (hu : u ∈ ts) {since : Int} (hsince : since ∈ u.since) :
    0 < since := by
  cases h with
  | mark r hr =>
    obtain rfl := mem_singleton.mp hu
    split at hsince
    next hneeds =>
      obtain rfl : r.resyncFromNs = since := Option.some.inj hsince
      exact hpos.flags r hr hneeds
    · cases hsince
  | beginCatchUp | beginStale | page =>
    obtain rfl := mem_singleton.mp hu
    exact hpos.since _ hmem since hsince
  | launch =>
    rcases mem_cons.mp hu with rfl | hu
    · cases hsince
    · obtain ⟨h, -, rfl⟩ := mem_map.mp hu
      cases hsince
  | visit =>
    split at hu
    · obtain rfl := mem_singleton.mp hu
      cases hsince
    · rcases mem_cons.mp hu with rfl | hu
      · cases hsince
      · obtain rfl := mem_singleton.mp hu
        cases hsince
  | replayed =>
    obtain rfl := mem_singleton.mp hu
    split at hsince <;> cases hsince
  | enqueue | overflow | sent | sendFailed | probeEnds | finish | recoveryFails | makeMember
  | persist | persistFails => cases hu
  | _ =>
    obtain rfl := mem_singleton.mp hu
    cases hsince

/-- A new replica starts behind a time of its own, if it starts behind. -/
theorem newReplica_resyncFromNs (e : ReplicationEngine N) (nodeID : N) (now : Int)
    (h : (e.newReplica cfg nodeID now).needsResync = true) :
    0 < (e.newReplica cfg nodeID now).resyncFromNs := by
  simp only [newReplica] at h ⊢
  split at h
  next hknown =>
    rw [if_pos hknown]
    simp only
    split <;> omega
  · cases h

theorem Sys.Positive.step (h : s.Positive) (hwf : s.WF) (hstep : Sys.Step cfg s ev s') :
    s'.Positive := by
  -- Tasks that begin without a time.
  have hcons : ∀ {u : Task N}, u.since = none → ∀ t ∈ u :: s.tasks, ∀ since ∈ t.since,
      0 < since := fun hu => forall_mem_cons.mpr ⟨by simp [hu], h.since⟩
  cases hstep with
  | task pre post t ht ev s' ts hts =>
    have hmem : t ∈ s.tasks := mem_middle ht
    refine ⟨fun r' hr' => hts.flags_pos hwf h hmem hr', fun u hu since hsince => ?_⟩
    rcases mem_or_new ht hu with hu | hu
    · exact h.since u hu since hsince
    · exact hts.since_pos h hmem hu hsince
  | create => exact { h with }
  | register pre post op hw =>
    obtain ⟨f, hf⟩ := onLocalWrite_spec s.engine cfg op
    have hop : 0 < op.timestamp :=
      (hwf.registry.writers_pos op (mem_middle hw)).2.2
    refine ⟨fun r' hr' => ?_, hcons rfl⟩
    obtain ⟨r, hr, rfl⟩ := mem_map.mp (hf.replicas ▸ hr')
    refine flagAll_resyncFromNs (P := (0 < ·)) _ _ (h.flags r hr) fun ts hts => ?_
    obtain ⟨k, p, hp, rfl⟩ := hf.flagged r hr ts hts
    by_cases hk : k = op.seqNum
    · subst hk
      rw [retain, AList.lookup_insert, Option.some.injEq] at hp
      exact hp ▸ hop
    · exact hwf.retained_pos ((AList.lookup_insert_ne hk).symm.trans hp)
  | probe =>
    refine ⟨fun r' hr' => ?_, hcons rfl⟩
    obtain ⟨q, hq, ⟨-, rfl⟩ | ⟨-, rfl⟩⟩ := exists_of_mem_modify hr'
    · exact h.flags q hq
    · exact h.flags r' hq
  | add =>
    exact ⟨forall_mem_cons.mpr ⟨newReplica_resyncFromNs _ _ _, h.flags⟩, h.since⟩
  | join =>
    exact ⟨forall_mem_cons.mpr ⟨newReplica_resyncFromNs _ _ _, h.flags⟩, hcons rfl⟩
  | remove =>
    exact ⟨fun r hr => h.flags r (mem_of_mem_removeReplica _ hr), h.since⟩
  | marks =>
    exact ⟨h.flags, hcons rfl⟩
  | restart =>
    refine ⟨fun r hr => ?_, ?_⟩
    · cases hr
    · simp [Task.since]

/-! ## Every operation shows at every replica -/

/-- Nothing gets lost to the watermarks: an operation is registered after every watermark
that was given, a replica is added with its watermark or has everything, and no watermark
is read between the two sections of `AddMemberReplica`. -/
def soundMarks : Discipline N := fun s ev =>
  keepsFlags s ev ∧
    match ev with
    | .register op => ∀ m ∈ s.history.marks, m.2 ≤ op.timestamp
    | .add nodeID => (s.engine.loaded.lookup nodeID).isSome = true ∨ s.engine.stateCorrupt = true ∨
        ∀ x ∈ s.history.registered, s.Settled nodeID x
    | .marks _ => ∀ r ∈ s.engine.replicaStates, .joining r.nodeID ∉ s.tasks
    | _ => True

/-- The watermarks that were given are sound, and what is kept of them was given. -/
structure Sys.SoundMarks (s : Sys N) : Prop where
  settled : ∀ m ∈ s.history.marks, ∀ x ∈ s.history.registered, x.op.timestamp < m.2 →
    s.Settled m.1 x
  file : s.file.replicas ⊆ s.history.marks
  persist : ∀ marks gen, .persist marks gen ∈ s.tasks → marks ⊆ s.history.marks
  loaded : s.engine.loaded ⊆ s.history.marks

/-- Each operation is settled, retained, flagged or being caught up, at every replica that
is not just joining. -/
structure Sys.Covered (s : Sys N) : Prop where
  kept : ∀ r ∈ s.engine.replicaStates, .joining r.nodeID ∉ s.tasks →
    ∀ x ∈ s.history.registered, s.Safe r x ∨ s.Retained x
  clearing : ∀ ops hs, .batch ops 0 hs ∈ s.tasks → ∀ r ∈ s.engine.replicaStates,
    .joining r.nodeID ∉ s.tasks → ∀ x ∈ s.history.registered, x.life = s.life → x.op ∈ ops →
    s.Safe r x

omit [DecidableEq N] in
theorem Sys.SoundMarks.init : (Sys.init : Sys N).SoundMarks := by
  constructor <;> simp [Sys.init, start]

omit [DecidableEq N] in
theorem Sys.Covered.init : (Sys.init : Sys N).Covered := by
  constructor <;> simp [Sys.init, start]

/-- A watermark that is read now is sound. -/
theorem Sys.Covered.watermark (h : s.Covered) (hwf : s.WF) (hpos : s.Positive)
    {r : ReplicaInfo N} (hr : r ∈ s.engine.replicaStates) (hjoin : .joining r.nodeID ∉ s.tasks)
    {nowNs : Int} (hx : x ∈ s.history.registered)
    (hlt : x.op.timestamp < s.engine.watermark nowNs r) : s.Settled r.nodeID x := by
  obtain ⟨hflag, hcatch, hretained⟩ := watermark_le s.engine nowNs r
  rcases h.kept r hr hjoin x hx with (hset | ⟨hneeds, hfrom⟩ | ⟨_, _, htask, hfrom, -⟩) |
    ⟨hlife, p, hp, hop⟩
  · exact hset
  · exact absurd (hlt.trans_le ((hflag hneeds).trans hfrom)) (lt_irrefl _)
  · have hsince : 0 < r.catchingUpFromNs := hpos.since _ htask _ rfl
    exact absurd (hlt.trans_le ((hcatch hsince.ne').trans hfrom)) (lt_irrefl _)
  · by_cases hacked : r.nodeID ∈ p.acked
    · have := (hwf.known.retained _ p hp).2.2 _ hacked
      rw [hop, ← hlife] at this
      exact .inl this
    · exact absurd (hlt.trans_le (hop ▸ hretained _ p hp hacked)) (lt_irrefl _)

/-! ### The watermarks that are kept -/

theorem Task.Step.loaded (h : Task.Step cfg s t ev s' ts) : s'.engine.loaded = s.engine.loaded := by
  cases h with
  | receive op rest => exact receive_loaded _ op rest
  | launch => rw [backpressure_eq]
  | sent hd ops now => rw [(sendOk_spec s.engine hd ops now).rest]
  | page hd since sinceNs before ops hops now => rw [(delivered_spec s.engine hd ops now).rest]
  | replayed hd ops now => rw [(delivered_spec s.engine hd _ now).rest]
  | _ => rfl

theorem Task.Step.file (h : Task.Step cfg s t ev s' ts) :
    s'.file.replicas = s.file.replicas ∨
      ∃ marks gen, t = .persist marks gen ∧ s'.file.replicas = marks := by
  cases h with
  | persist marks gen =>
    simp only [StateFile.persist]
    split
    · exact .inl rfl
    · exact .inr ⟨marks, gen, rfl, rfl⟩
  | _ => exact .inl rfl

theorem Task.Step.not_persist (h : Task.Step cfg s t ev s' ts) {marks : List (N × Int)} {gen : ℕ} :
    .persist marks gen ∉ ts := by
  intro hmem
  cases h with
  | visit | mark | replayed => split at hmem <;> simp at hmem
  | _ => simp at hmem

theorem Sys.SoundMarks.step (h : s.SoundMarks) (hcov : s.Covered) (hwf : s.WF)
    (hpos : s.Positive) (hD : soundMarks s ev) (hstep : Sys.Step cfg s ev s') :
    s'.SoundMarks := by
  have hcons : ∀ {u : Task N} {marks : List (N × Int)} {gen : ℕ},
      .persist marks gen ∈ u :: s.tasks → u ≠ .persist marks gen → marks ⊆ s.history.marks :=
    fun hmem hne => h.persist _ _ ((mem_cons.mp hmem).resolve_left (Ne.symm hne))
  cases hstep with
  | task pre post t ht ev s' ts hts =>
    have hmem : t ∈ s.tasks := mem_middle ht
    have hsame := hts.sameRegistry
    refine ⟨fun m hm x hx hlt => ?_, ?_, fun marks gen hp => ?_, ?_⟩
    · exact (h.settled m (hsame.marks ▸ hm) x (hsame.registered ▸ hx) hlt).mono hsame.acks
        hsame.superseded
    · simp only [hsame.marks]
      rcases hts.file with heq | ⟨marks, gen, rfl, heq⟩
      · exact heq ▸ h.file
      · exact heq ▸ h.persist marks gen hmem
    · simp only [hsame.marks]
      rcases mem_or_new ht hp with hp | hp
      · exact h.persist marks gen hp
      · exact absurd hp hts.not_persist
    · simp only [hsame.marks, hts.loaded]
      exact h.loaded
  | register pre post op =>
    obtain ⟨f, hf⟩ := onLocalWrite_spec s.engine cfg op
    refine ⟨fun m hm x hx hlt => ?_, h.file, fun marks gen hp => hcons hp (by simp), ?_⟩
    · rcases mem_cons.mp hx with rfl | hx
      · exact absurd (hlt.trans_le (hD.2 m hm)) (lt_irrefl _)
      · exact h.settled m hm x hx hlt
    · rw [hf.rest]
      exact h.loaded
  | create | add => exact { h with }
  | probe | join =>
    exact { h with persist := fun marks gen hp => hcons hp (by simp) }
  | remove nodeID =>
    refine { h with loaded := ?_ }
    rw [(removeReplica_spec s.engine nodeID).rest]
    exact h.loaded
  | marks =>
    refine ⟨fun m hm x hx hlt => ?_, fun m hm => mem_append_right _ (h.file hm),
      fun marks gen hp => ?_, fun m hm => mem_append_right _ (h.loaded hm)⟩
    · rcases mem_append.mp hm with hm | hm
      · obtain ⟨r, hr, rfl⟩ := mem_map.mp hm
        exact hcov.watermark hwf hpos hr (hD.2 r hr) hx hlt
      · exact h.settled m hm x hx hlt
    · rcases mem_cons.mp hp with heq | hp
      · obtain ⟨rfl, -⟩ := Task.persist.inj heq
        exact subset_append_left _ _
      · exact fun m hm => mem_append_right _ (h.persist marks gen hp hm)
  | restart =>
    refine ⟨h.settled, h.file, by simp, ?_⟩
    split
    · exact nil_subset _
    · exact h.file

/-! ### The operations -/

theorem newReplica_flagged (cfg : ReplicationConfig) (e : ReplicationEngine N) (nodeID : N)
    (now : Int) {ts : Int} (hts : 0 < ts)
    (h : (e.loaded.lookup nodeID).isSome = true ∨ e.stateCorrupt = true) :
    (e.newReplica cfg nodeID now).Flagged ts ∨
      ∃ mark, e.loaded.lookup nodeID = some mark ∧ ts < mark := by
  simp only [newReplica, if_pos h, ReplicaInfo.Flagged, true_and]
  split
  · exact .inl hts
  next hmark =>
    rw [not_or] at hmark
    obtain ⟨mark, hmem⟩ := Option.isSome_iff_exists.mp (h.resolve_right hmark.1)
    rw [hmem]
    by_cases hle : mark ≤ ts
    · exact .inl hle
    · exact .inr ⟨mark, rfl, not_le.mp hle⟩

/-- A member that is joining stops to be one only by being flagged for everything. -/
theorem Sys.Step.joining (hstep : Sys.Step cfg s ev s') {nodeID : N}
    (hjoin : .joining nodeID ∈ s.tasks) (hr' : r' ∈ s'.engine.replicaStates)
    (hid : r'.nodeID = nodeID) : .joining nodeID ∈ s'.tasks ∨ ∀ ts, 0 < ts → r'.Flagged ts := by
  cases hstep with
  | task pre post t ht ev s' ts hts =>
    by_cases heq : t = .joining nodeID
    · subst heq
      cases hts with
      | makeMember =>
        obtain ⟨r, hr, rfl⟩ := mem_map.mp hr'
        refine .inr fun ts hts => ?_
        split
        · exact ⟨rfl, hts⟩
        next hne =>
          rw [if_neg hne] at hid
          exact absurd hid hne
    · exact .inl (mem_split ht hjoin fun h => absurd h.symm heq)
  | create | add | remove => exact .inl hjoin
  | register | probe | join | marks => exact .inl (mem_cons_of_mem _ hjoin)
  | restart => cases hr'

/-- A replica was there before the step and keeps what is safe, or everything is. -/
theorem Sys.Step.covers (hwf : s.WF) (hm : s.SoundMarks) (hD : soundMarks s ev)
    (hstep : Sys.Step cfg s ev s') (hr' : r' ∈ s'.engine.replicaStates)
    (hjoin : .joining r'.nodeID ∉ s'.tasks) :
    (∃ r ∈ s.engine.replicaStates, .joining r.nodeID ∉ s.tasks ∧
      ∀ x ∈ s.history.registered, s.Safe r x → s'.Safe r' x) ∨
    ∀ x ∈ s.history.registered, s'.Safe r' x := by
  rcases hstep.safe hwf hD.1 hr' with ⟨r, hr, hh, hsafe⟩ | ⟨nodeID, now, rfl, hhist, hev⟩
  · have hid : r'.nodeID = r.nodeID := congrArg Handle.nodeID hh
    by_cases hold : .joining r.nodeID ∈ s.tasks
    · rcases hstep.joining hold hr' hid with hnew | hflag
      · exact absurd (hid ▸ hnew) hjoin
      · exact .inr fun x hx => .inr (.inl (hflag _ (hwf.registry.stamped x hx)))
    · exact .inl ⟨r, hr, hold, hsafe⟩
  · have hid : (s.engine.newReplica cfg nodeID now).nodeID = nodeID :=
      congrArg Handle.nodeID (newReplica_toHandle s.engine cfg nodeID now)
    rw [hid] at hjoin
    rcases hev with rfl | rfl
    · refine .inr fun x hx => ?_
      have hset : s.Settled nodeID x → s'.Safe (s.engine.newReplica cfg nodeID now) x := by
        intro hset
        refine .inl ?_
        rw [hid]
        unfold Sys.Settled
        rw [hhist]
        exact hset
      rcases or_assoc.mpr hD.2 with hknown | hall
      · rcases newReplica_flagged cfg s.engine nodeID now
          (hwf.registry.stamped x hx) hknown with hflag | ⟨mark, hmark, hlt⟩
        · exact .inr (.inl hflag)
        · refine hset (hm.settled (nodeID, mark) (hm.loaded ?_) x hx hlt)
          obtain ⟨l₁, l₂, heq, -⟩ := lookup_eq_some_iff.mp hmark
          exact heq ▸ mem_append_right _ mem_cons_self
      · exact hset (hall x hx)
    · cases hstep with
      | task pre post t ht ev s' ts hts => cases hts
      | join => exact absurd mem_cons_self hjoin

theorem Sys.Covered.step (h : s.Covered) (hm : s.SoundMarks) (hwf : s.WF)
    (hD : soundMarks s ev) (hstep : Sys.Step cfg s ev s') : s'.Covered := by
  -- Operations that were registered before the step.
  have hkept : ∀ r' ∈ s'.engine.replicaStates, .joining r'.nodeID ∉ s'.tasks →
      ∀ x ∈ s.history.registered, s'.Safe r' x ∨ s'.Retained x := by
    intro r' hr' hjoin x hx
    rcases hstep.covers hwf hm hD hr' hjoin with ⟨r, hr, hjoin, hsafe⟩ | hall
    · rcases h.kept r hr hjoin x hx with hs | hret
      · exact .inl (hsafe x hx hs)
      · rcases hstep.retained hwf hx hret with hret' | hall | ⟨ops, hs, hbatch, hop⟩
        · exact .inr hret'
        · exact .inl ((hall r' hr').elim (.inl ∘ .inl) (.inr ∘ .inl))
        · exact .inl (hsafe x hx (h.clearing ops hs hbatch r hr hjoin x hx hret.1 hop))
    · exact .inl (hall x hx)
  have hclear : ∀ ops hs, .batch ops 0 hs ∈ s.tasks → ∀ r' ∈ s'.engine.replicaStates,
      .joining r'.nodeID ∉ s'.tasks → ∀ x ∈ s.history.registered, x.life = s.life → x.op ∈ ops →
      s'.Safe r' x := by
    intro ops hs hbatch r' hr' hjoin x hx hlife hop
    rcases hstep.covers hwf hm hD hr' hjoin with ⟨r, hr, hjoin, hsafe⟩ | hall
    · exact hsafe x hx (h.clearing ops hs hbatch r hr hjoin x hx hlife hop)
    · exact hall x hx
  cases hstep with
  | task pre post t ht ev s' ts hts =>
    have hsame := hts.sameRegistry
    refine ⟨fun r' hr' hjoin x hx => hkept r' hr' hjoin x (hsame.registered ▸ hx),
      fun ops hs hmem r' hr' hjoin x hx hlife hop => ?_⟩
    rcases mem_or_new ht hmem with hmem | hmem
    · exact hclear ops hs hmem r' hr' hjoin x (hsame.registered ▸ hx) (hlife.trans hsame.life) hop
    · -- A batch that finds no replica has none to care for.
      rw [(hts.clearing hmem).1] at hr'
      cases hr'
  | register pre post op hw =>
    refine ⟨fun r' hr' hjoin x hx => ?_, fun ops hs hmem r' hr' hjoin x hx hlife hop => ?_⟩
    · rcases mem_cons.mp hx with rfl | hx
      · exact (onLocalWrite_keeps s.engine cfg op hr').imp (fun h => .inr (.inl h))
          fun h => ⟨rfl, h⟩
      · exact hkept r' hr' hjoin x hx
    · have hbatch : .batch ops 0 hs ∈ s.tasks := (mem_cons.mp hmem).resolve_left (by simp)
      rcases mem_cons.mp hx with rfl | hx
      · exact absurd rfl (hwf.registry.writers_fresh op (mem_middle hw) _
          (hwf.known.tasks _ hbatch op hop) rfl)
      · exact hclear ops hs hbatch r' hr' hjoin x hx hlife hop
  | create | add | remove => exact ⟨hkept, hclear⟩
  | probe | join | marks =>
    exact ⟨hkept, fun ops hs hmem =>
      hclear ops hs ((mem_cons.mp hmem).resolve_left (by simp))⟩
  | restart =>
    refine ⟨fun r hr => ?_, fun _ _ _ r hr => ?_⟩
    all_goals cases hr

theorem Sys.Run.covered (h : Sys.Run cfg soundMarks .init s) :
    s.WF ∧ s.Positive ∧ s.SoundMarks ∧ s.Covered := by
  induction h with
  | refl => exact ⟨.init, .init, .init, .init⟩
  | tail _ hstep ih =>
    obtain ⟨ev, hD, hstep⟩ := hstep
    obtain ⟨hwf, hpos, hm, hcov⟩ := ih
    exact ⟨hwf.step hstep, hpos.step hwf hstep, hm.step hcov hwf hpos hD hstep,
      hcov.step hm hwf hD hstep⟩

/-- Every operation before a watermark that was given, or that the state file has, is
settled at the replica. -/
theorem Sys.Run.marks_sound (hrun : Sys.Run cfg soundMarks .init s) {nodeID : N} {w : Int}
    (hw : (nodeID, w) ∈ s.history.marks ∨ (nodeID, w) ∈ s.file.replicas)
    (hx : x ∈ s.history.registered) (hlt : x.op.timestamp < w) : s.Settled nodeID x := by
  obtain ⟨-, -, hm, -⟩ := hrun.covered
  exact hm.settled (nodeID, w) (hw.elim id (hm.file ·)) x hx hlt

end

/-! ## A replica that is added again -/

def markedOp : WriteOperation := ⟨1, [107], [], 5, 0, false⟩

/-- A write is acknowledged and the watermark passes it. -/
theorem marks_sound_acked :
    ∃ s : Sys ℕ, Sys.Run .default soundMarks .init s ∧ (7, 10) ∈ s.file.replicas ∧
      ⟨0, markedOp⟩ ∈ s.history.registered ∧ markedOp.timestamp < 10 ∧
      s.Settled 7 ⟨0, markedOp⟩ := by
  have h₀ : Sys.Run .default soundMarks (.init : Sys ℕ) .init := .refl
  have h₁ := h₀.snoc (.add 7 rfl 0) ⟨trivial, .inr (.inr fun _ h => by cases h)⟩
  have h₂ := h₁.snoc (.create markedOp rfl (by decide)) ⟨trivial, trivial⟩
  have h₃ := h₂.snoc (.register [] [] markedOp rfl) ⟨trivial, fun _ h => by cases h⟩
  have h₄ := h₃.snoc (.task [] _ _ rfl _ _ _ (.enqueue markedOp (by decide))) ⟨trivial, trivial⟩
  have h₅ := h₄.snoc (.task [] _ (.worker []) rfl _ _ _ (.receive markedOp [] [] rfl))
    ⟨trivial, trivial⟩
  have h₆ := h₅.snoc (.task [] _ _ rfl _ _ _ (.snapshot [markedOp] (by decide))) ⟨trivial, trivial⟩
  have h₇ := h₆.snoc (.task [] _ _ rfl _ _ _ (.launch [markedOp] 1 [⟨0, 7⟩] (by decide)))
    ⟨trivial, trivial⟩
  have h₈ := h₇.snoc (.task [.worker []] _ _ rfl _ _ _ (.arrive ⟨0, 7⟩ [markedOp] false 1))
    ⟨trivial, trivial⟩
  have h₉ := h₈.snoc (.task [.worker []] _ _ rfl _ _ _ (.sent ⟨0, 7⟩ [markedOp] 6))
    ⟨trivial, trivial⟩
  have h₁₀ := h₉.snoc (.marks 10) ⟨trivial, fun _ _ => by simp⟩
  have h₁₁ := h₁₀.snoc (.task [] _ _ rfl _ _ _ (.persist _ _)) ⟨trivial, trivial⟩
  refine ⟨_, h₁₁, mem_cons_self, mem_cons_self, by decide,
    h₁₁.marks_sound (w := 10) (.inr mem_cons_self) mem_cons_self (by decide)⟩

/-- A replica is removed; while it is away a write is made, and the node, which has no
other replica, does not retain it.  The replica is added again, in sync, and its
watermark is the time of the clock. -/
theorem mark_of_readded :
    ∃ s : Sys ℕ, Sys.Run .default anyStep .init s ∧
      ∃ m ∈ s.history.marks, ∃ x ∈ s.history.registered, x.op.timestamp < m.2 ∧
        ¬s.Settled m.1 x := by
  have h₀ : Sys.Run .default anyStep (.init : Sys ℕ) .init := .refl
  have h₁ := h₀.snoc (.add 7 rfl 0) trivial
  have h₂ := h₁.snoc (.remove 7) trivial
  have h₃ := h₂.snoc (.create markedOp rfl (by decide)) trivial
  have h₄ := h₃.snoc (.register [] [] markedOp rfl) trivial
  have h₅ := h₄.snoc (.task [] _ _ rfl _ _ _ (.enqueue markedOp (by decide))) trivial
  have h₆ := h₅.snoc (.task [] _ (.worker []) rfl _ _ _ (.receive markedOp [] [] rfl)) trivial
  have h₇ := h₆.snoc (.task [] _ _ rfl _ _ _ (.snapshot [markedOp] (by decide))) trivial
  have h₈ := h₇.snoc (.task [] _ _ rfl _ _ _ (.clear [markedOp] [])) trivial
  have h₉ := h₈.snoc (.add 7 rfl 0) trivial
  have h₁₀ := h₉.snoc (.marks 10) trivial
  refine ⟨_, h₁₀, (7, 10), mem_cons_self, ⟨0, markedOp⟩, mem_cons_self, by decide, ?_⟩
  rintro (hset | hset) <;> cases hset

end VeltrixDB.Replication
