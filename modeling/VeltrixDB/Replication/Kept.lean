import VeltrixDB.Replication.Run

/-!
# Operations that a replica still has to get

An operation that a replica has not acknowledged is retained, or the replica is flagged
to read the change feed from a time before it, or a catch-up is under way that began
after the operation was registered (`replication/engine.go`).  The flag is read and
cleared in two sections of `recoverReplica`; the operation can get lost when an
earlier flag is set between them, and when there is no feed to read.

Main results:

- Theorem `Task.Step.change`: what a goroutine can do to the object of a replica.
- Theorem `Sys.Step.follows`: what a step does to flags and catch-ups.
- Theorem `Sys.Step.safe`: no step forgets an operation that the feed will bring.
- Theorem `Sys.Step.retained`: an operation leaves the buffer only when all have it
  or will read it from the feed, or when the buffer of a node without replicas is
  cleared.
-/

namespace VeltrixDB.Replication

open List Parties ReplicaInfo

open ReplicationEngine

variable {N : Type} {r' : ReplicaInfo N}

/-! ## What is known of an operation at a replica -/

/-- The replica has acknowledged `x`, or a catch-up that began later was complete. -/
def Sys.Settled (s : Sys N) (nodeID : N) (x : Registered) : Prop :=
  (nodeID, x) ∈ s.history.acks ∨ (nodeID, x) ∈ s.history.superseded

/-- A catch-up of the replica is under way that brings `x`. -/
def Sys.CatchingUp (s : Sys N) (r : ReplicaInfo N) (x : Registered) : Prop :=
  ∃ sinceNs before, Task.catchUp r.toHandle r.catchingUpFromNs sinceNs before ∈ s.tasks ∧
    r.catchingUpFromNs ≤ x.op.timestamp ∧ x ∈ before

/-- The replica has `x` or will read it from the change feed. -/
def Sys.Safe (s : Sys N) (r : ReplicaInfo N) (x : Registered) : Prop :=
  s.Settled r.nodeID x ∨ r.Flagged x.op.timestamp ∨ s.CatchingUp r x

/-- `x` is still retained. -/
def Sys.Retained (s : Sys N) (x : Registered) : Prop :=
  x.life = s.life ∧ s.engine.Retains x.op

/-- Nothing is forgotten at the start of a catch-up: there is a feed, and no earlier flag
has been set since the flag was read. -/
def keepsFlags : Discipline N := fun s ev =>
  match ev with
  | .beginCatchUp h since => ∀ r ∈ s.engine.replicaStates, r.toHandle = h →
      r.needsResync = true → since ≤ r.resyncFromNs
  | .noSource _ => False
  | _ => True

/-! ## What a goroutine does to an object -/

/-- A change that keeps the flags of a replica. -/
structure ReplicaInfo.Calm (r r' : ReplicaInfo N) : Prop where
  handle : r'.toHandle = r.toHandle
  flagged : ∀ ts, 0 < ts → r.Flagged ts → r'.Flagged ts
  catchingUp : r'.catchingUpFromNs = r.catchingUpFromNs

theorem ReplicaInfo.Calm.refl (r : ReplicaInfo N) : r.Calm r := ⟨rfl, fun _ _ h => h, rfl⟩

theorem ReplicaInfo.Calm.of_eq {r : ReplicaInfo N} (hh : r'.toHandle = r.toHandle)
    (hn : r'.needsResync = r.needsResync) (hf : r'.resyncFromNs = r.resyncFromNs)
    (hc : r'.catchingUpFromNs = r.catchingUpFromNs) : r.Calm r' :=
  ⟨hh, fun _ _ h => ⟨hn.trans h.1, hf ▸ h.2⟩, hc⟩

section
variable [DecidableEq N] {cfg : ReplicationConfig} {s s' : Sys N} {t : Task N} {ev : Event N}
  {ts : List (Task N)} {nodeID : N} {x : Registered}

inductive Task.Change (cfg : ReplicationConfig) (s : Sys N) (t : Task N) (ev : Event N)
    (s' : Sys N) (ts : List (Task N)) (r r' : ReplicaInfo N) : Prop where
  | calm (h : r.Calm r') (hcatch : ∀ since sinceNs before,
      t = .catchUp r.toHandle since sinceNs before → t ∈ ts)
  | beginCatchUp (since now : Int) (ht : t = .marked r.toHandle since)
      (hev : ev = .beginCatchUp r.toHandle since)
      (hr : r' = r.beginCatchUp since (cfg.tooOld since now))
      (hts : .catchUp r.toHandle since (r.catchUpFrom since (cfg.tooOld since now))
        (s.history.registered.filter fun x =>
          feedCovers (r.catchUpFrom since (cfg.tooOld since now)) x.op) ∈ ts)
  | endCatchUp (since sinceNs : Int) (before : List Registered)
      (ht : t = .catchUp r.toHandle since sinceNs before)
      (hev : ev = .endCatchUp r.toHandle true) (hr : r' = r.endCatchUp since true)
      (hs : ∀ x ∈ before, (r.nodeID, x) ∈ s'.history.superseded)
  | catchUpFails (since sinceNs : Int) (before : List Registered)
      (ht : t = .catchUp r.toHandle since sinceNs before) (hr : r' = r.endCatchUp since false)
  | noSource (hev : ev = .noSource r.toHandle)

theorem Task.Step.change (hwf : s.WF) (h : Task.Step cfg s t ev s' ts)
    (hr' : r' ∈ s'.engine.replicaStates) :
    ∃ r ∈ s.engine.replicaStates, r'.toHandle = r.toHandle ∧ Task.Change cfg s t ev s' ts r r' := by
  obtain ⟨r, hr, hto⟩ := h.touches hwf.replicas hr'
  -- Changes that keep the flags, by a goroutine that is no catch-up or goes on with it.
  have hcalm : r.Calm r' →
      (∀ since sinceNs before, t = .catchUp r.toHandle since sinceNs before → t ∈ ts) →
      ∃ r ∈ s.engine.replicaStates, r'.toHandle = r.toHandle ∧
        Task.Change cfg s t ev s' ts r r' := fun hc ht => ⟨r, hr, hc.handle, .calm hc ht⟩
  cases hto with
  | same hfail hover hcatch => exact hcalm (.refl _) hcatch
  | overflow =>
    refine hcalm ?_ (by simp)
    rw [markLagging_eq]
    exact .of_eq rfl rfl rfl rfl
  | sent =>
    refine hcalm ?_ (by simp)
    rw [backInSync_eq, ackAll_eq]
    exact .of_eq rfl rfl rfl rfl
  | acked ops now r hfail hover hcatch =>
    refine hcalm ?_ (hcatch _)
    rw [ackAll_eq]
    exact .of_eq rfl rfl rfl rfl
  | sendFailed ops arrived now =>
    refine hcalm ⟨by simp, fun ts _ hflag => ?_, ?_⟩ (by simp)
    · refine ReplicaInfo.Flagged.flagAll (r := r.markFailed cfg now) _ ?_
      rw [markFailed_eq]
      exact hflag
    · rw [flagAll_eq, markFailed_eq]
  | member => exact hcalm ⟨rfl, fun ts hpos _ => ⟨rfl, hpos⟩, rfl⟩ (by simp)
  | finish =>
    refine hcalm ?_ (by simp)
    rw [finishRecovery_eq]
    exact .of_eq rfl rfl rfl rfl
  | lagging | probeEnds | mark | recoveryFails =>
    exact hcalm (.of_eq rfl rfl rfl rfl) (by simp)
  | beginCatchUp since now =>
    exact ⟨r, hr, rfl, .beginCatchUp since now rfl rfl rfl mem_cons_self⟩
  | noSource => exact ⟨r, hr, rfl, .noSource rfl⟩
  | endCatchUp since sinceNs before r hs =>
    exact ⟨r, hr, by simp, .endCatchUp since sinceNs before rfl rfl rfl hs⟩
  | catchUpFails since sinceNs before =>
    exact ⟨r, hr, by simp, .catchUpFails since sinceNs before rfl rfl⟩

/-! ## Steps -/

omit [DecidableEq N] in
theorem Sys.Replicas.recovers_unique (h : s.Replicas) {pre post : List (Task N)}
    (ht : s.tasks = pre ++ t :: post) {hd : Handle N} (htr : t.recovers = some hd) {u : Task N}
    (hu : u ∈ s.tasks) (hur : u.recovers = some hd) : u = t := by
  have hnodup := h.recovers_nodup
  rw [ht, filterMap_append, filterMap_cons, htr] at hnodup
  rw [nodup_middle, nodup_cons, ← filterMap_append] at hnodup
  rw [ht, mem_append, mem_cons] at hu
  by_contra hne
  refine hnodup.1 (mem_filterMap.mpr ⟨u, mem_append.mpr ?_, hur⟩)
  exact hu.imp_right fun hu => hu.resolve_left hne

omit [DecidableEq N] in
theorem Sys.Settled.mono (h : s.Settled nodeID x) (hacks : s.history.acks ⊆ s'.history.acks)
    (hsup : s.history.superseded ⊆ s'.history.superseded) : s'.Settled nodeID x :=
  h.imp (@hacks _) (@hsup _)

omit [DecidableEq N] in
theorem mem_split {pre post : List (Task N)} (ht : s.tasks = pre ++ t :: post) {u : Task N}
    (hu : u ∈ s.tasks) (hne : u = t → t ∈ ts) : u ∈ pre ++ ts ++ post := by
  rw [ht, mem_append, mem_cons] at hu
  simp only [mem_append]
  rcases hu with hu | rfl | hu
  · exact .inl (.inl hu)
  · exact .inl (.inr (hne rfl))
  · exact .inr hu

omit [DecidableEq N] in
/-- A catch-up that starts at a time before the operation brings it. -/
theorem feedCovers_catchUpFrom (r : ReplicaInfo N) {since : Int} {full : Bool}
    {op : WriteOperation} (h : since ≤ op.timestamp) :
    feedCovers (r.catchUpFrom since full) op := by
  unfold feedCovers catchUpFrom
  split
  · exact .inl le_rfl
  · exact .inr (by omega)

/-- What becomes of a flag and of a catch-up: a catch-up takes the place of a flag, and
ends with the operation delivered or with a flag. -/
structure Sys.Follows (ev : Event N) (s s' : Sys N) (r r' : ReplicaInfo N) (x : Registered) :
    Prop where
  flagged : r.Flagged x.op.timestamp → r'.Flagged x.op.timestamp ∨
    s'.CatchingUp r' x ∧ ∃ since, ev = .beginCatchUp r.toHandle since
  catchingUp : s.CatchingUp r x → s'.CatchingUp r' x ∨ r'.Flagged x.op.timestamp ∨
    (r'.nodeID, x) ∈ s'.history.superseded ∧ ev = .endCatchUp r.toHandle true

omit [DecidableEq N] in
theorem Task.Change.follows (hwf : s.WF) (hD : keepsFlags s ev) {pre post : List (Task N)}
    (ht : s.tasks = pre ++ t :: post) {r r' : ReplicaInfo N} (hr : r ∈ s.engine.replicaStates)
    (hhandle : r'.toHandle = r.toHandle) (hchange : Task.Change cfg s t ev s' ts r r')
    {x : Registered} (hx : x ∈ s.history.registered) :
    Sys.Follows ev s { s' with tasks := pre ++ ts ++ post } r r' x := by
  have hnode : r'.nodeID = r.nodeID := congrArg Handle.nodeID hhandle
  constructor
  · intro hflag
    cases hchange with
    | calm hc => exact .inl (hc.flagged _ (hwf.registry.stamped x hx) hflag)
    | beginCatchUp since now htask hev hr' hts =>
      subst hev hr'
      have hsince : since ≤ x.op.timestamp := (hD r hr rfl hflag.1).trans hflag.2
      refine .inr ⟨⟨_, _, mem_append_left _ (mem_append_right _ hts), hsince, ?_⟩, since, rfl⟩
      exact mem_filter.mpr ⟨hx, decide_eq_true (feedCovers_catchUpFrom r hsince)⟩
    | endCatchUp since sinceNs before htask hev hr' =>
      subst hr'
      exact .inl hflag
    | catchUpFails since sinceNs before htask hr' =>
      subst hr'
      exact .inl (ReplicaInfo.Flagged.flagResync since hflag)
    | noSource hev =>
      subst hev
      exact hD.elim
  · rintro ⟨sinceNs, before, hmem, hle, hbefore⟩
    have hrec : (Task.catchUp r.toHandle r.catchingUpFromNs sinceNs before).recovers =
        some r.toHandle := rfl
    cases hchange with
    | calm hc hcatch =>
      refine .inl ⟨sinceNs, before, ?_, hc.catchingUp ▸ hle, hbefore⟩
      rw [hhandle, hc.catchingUp]
      exact mem_split ht hmem fun heq => hcatch _ _ _ heq.symm
    | beginCatchUp since now htask =>
      have := hwf.replicas.recovers_unique ht (by rw [htask]; rfl) hmem hrec
      cases this.trans htask
    | endCatchUp since sinceNs' before' htask hev hr' hs =>
      have := hwf.replicas.recovers_unique ht (by rw [htask]; rfl) hmem hrec
      obtain ⟨-, -, -, rfl⟩ := Task.catchUp.inj (this.trans htask)
      exact .inr (.inr ⟨hnode ▸ hs x hbefore, hev⟩)
    | catchUpFails since sinceNs' before' htask hr' =>
      have := hwf.replicas.recovers_unique ht (by rw [htask]; rfl) hmem hrec
      obtain ⟨-, rfl, -, -⟩ := Task.catchUp.inj (this.trans htask)
      subst hr'
      obtain ⟨hneeds, hfrom⟩ := flagged_flagResync
        { r with catchingUpFromNs := 0 } r.catchingUpFromNs
      exact .inr (.inl ⟨hneeds, hfrom.trans hle⟩)
    | noSource hev =>
      subst hev
      exact hD.elim

theorem Sys.Step.follows (hwf : s.WF) (hD : keepsFlags s ev) (h : Sys.Step cfg s ev s')
    (hr' : r' ∈ s'.engine.replicaStates) :
    (∃ r ∈ s.engine.replicaStates, r'.toHandle = r.toHandle ∧
      ∀ x ∈ s.history.registered, Sys.Follows ev s s' r r' x) ∨
    ∃ nodeID now, r' = s.engine.newReplica cfg nodeID now ∧
      s'.history = s.history ∧ (ev = .add nodeID ∨ ev = .join nodeID) := by
  -- Steps that change no flag and no task of a recovery.
  have hkeep : ∀ {r : ReplicaInfo N}, r ∈ s.engine.replicaStates → r.Calm r' →
      s.tasks ⊆ s'.tasks →
      ∃ r ∈ s.engine.replicaStates, r'.toHandle = r.toHandle ∧
        ∀ x ∈ s.history.registered, Sys.Follows ev s s' r r' x := by
    intro r hr hc htasks
    refine ⟨r, hr, hc.handle, fun x hx => ⟨fun hflag => ?_, ?_⟩⟩
    · exact .inl (hc.flagged _ (hwf.registry.stamped x hx) hflag)
    · rintro ⟨sinceNs, before, hmem, hle, hbefore⟩
      refine .inl ⟨sinceNs, before, htasks ?_, hc.catchingUp ▸ hle, hbefore⟩
      rw [hc.handle, hc.catchingUp]
      exact hmem
  cases h with
  | task pre post t ht ev s' ts hts =>
    obtain ⟨r, hr, hhandle, hchange⟩ := hts.change hwf hr'
    exact .inl ⟨r, hr, hhandle, fun x hx => hchange.follows hwf hD ht hr hhandle hx⟩
  | register pre post op =>
    obtain ⟨f, hf⟩ := onLocalWrite_spec s.engine cfg op
    obtain ⟨r, hr, rfl⟩ := mem_map.mp (hf.replicas ▸ hr')
    exact .inl (hkeep hr ⟨by simp, fun _ _ hflag => hflag.flagAll _, by simp⟩
      (subset_cons_self _ _))
  | create => exact .inl (hkeep hr' (.refl _) (List.Subset.refl _))
  | probe =>
    obtain ⟨q, hq, ⟨-, rfl⟩ | ⟨-, rfl⟩⟩ := exists_of_mem_modify hr'
    · exact .inl (hkeep hq (.of_eq rfl rfl rfl rfl) (subset_cons_self _ _))
    · exact .inl (hkeep hq (.refl _) (subset_cons_self _ _))
  | add nodeID hnew now =>
    rcases mem_cons.mp hr' with rfl | hr'
    · exact .inr ⟨nodeID, now, rfl, rfl, .inl rfl⟩
    · exact .inl (hkeep hr' (.refl _) (List.Subset.refl _))
  | join nodeID hnew now =>
    rcases mem_cons.mp hr' with rfl | hr'
    · exact .inr ⟨nodeID, now, rfl, rfl, .inr rfl⟩
    · exact .inl (hkeep hr' (.refl _) (subset_cons_self _ _))
  | remove =>
    exact .inl (hkeep (mem_of_mem_removeReplica _ hr') (.refl _) (List.Subset.refl _))
  | marks => exact .inl (hkeep hr' (.refl _) (subset_cons_self _ _))
  | restart => cases hr'

theorem Sys.Step.acks_subset (h : Sys.Step cfg s ev s') : s.history.acks ⊆ s'.history.acks := by
  cases h with
  | task pre post t ht ev s' ts hts => exact hts.sameRegistry.acks
  | _ => exact List.Subset.refl _

theorem Sys.Step.superseded_subset (h : Sys.Step cfg s ev s') :
    s.history.superseded ⊆ s'.history.superseded := by
  cases h with
  | task pre post t ht ev s' ts hts => exact hts.sameRegistry.superseded
  | _ => exact List.Subset.refl _

/-- No step forgets an operation that the feed will bring. -/
theorem Sys.Step.safe (hwf : s.WF) (hD : keepsFlags s ev) (h : Sys.Step cfg s ev s')
    (hr' : r' ∈ s'.engine.replicaStates) :
    (∃ r ∈ s.engine.replicaStates, r'.toHandle = r.toHandle ∧
      ∀ x ∈ s.history.registered, s.Safe r x → s'.Safe r' x) ∨
    ∃ nodeID now, r' = s.engine.newReplica cfg nodeID now ∧
      s'.history = s.history ∧ (ev = .add nodeID ∨ ev = .join nodeID) := by
  refine (h.follows hwf hD hr').imp_left ?_
  rintro ⟨r, hr, hhandle, hfollows⟩
  refine ⟨r, hr, hhandle, fun x hx hsafe => ?_⟩
  rcases hsafe with hset | hflag | hcatch
  · exact .inl (congrArg Handle.nodeID hhandle ▸ hset.mono h.acks_subset h.superseded_subset)
  · exact .inr (((hfollows x hx).flagged hflag).imp_right And.left)
  · rcases (hfollows x hx).catchingUp hcatch with hcatch | hflag | ⟨hsup, -⟩
    · exact .inr (.inr hcatch)
    · exact .inr (.inl hflag)
    · exact .inl (.inr hsup)

theorem Sys.Retained.records (hwf : s.WF) {e' : ReplicationEngine N} {hd : Handle N}
    {ops : List WriteOperation} {f : ReplicaInfo N → ReplicaInfo N} {acks : List (N × Registered)}
    (hrec : Records s.engine e' hd ops f) (hf : ∀ r, (f r).toHandle = r.toHandle)
    (hsub : s.history.acks ⊆ acks) (hacks : x.op ∈ ops → (hd.nodeID, x) ∈ acks)
    (hret : s.Retained x) : e'.Retains x.op ∨ ∀ r' ∈ e'.replicaStates, (r'.nodeID, x) ∈ acks := by
  obtain ⟨hlife, p, hp, hop⟩ := hret
  rcases hrec.acks.dropped _ p hp with ⟨p', hp', hop'⟩ | hall
  · exact .inl ⟨p', hp', hop'.trans hop⟩
  · refine .inr fun r' hr' => ?_
    have hid : r'.nodeID ∈ s.engine.nodeIDs :=
      (hrec.renews hf).nodeIDs ▸ mem_nodeIDs hr'
    rcases hall _ hid with hacked | ⟨heq, hmem⟩
    · have := (hwf.known.retained _ p hp).2.2 _ hacked
      rw [hop, ← hlife] at this
      exact hsub this
    · rw [heq]
      exact hacks (hop ▸ hmem)

theorem Task.Step.retained (hwf : s.WF) (hmem : t ∈ s.tasks) (h : Task.Step cfg s t ev s' ts)
    (hx : x ∈ s.history.registered) (hret : s.Retained x) :
    s'.engine.Retains x.op ∨
      (∀ r' ∈ s'.engine.replicaStates, (r'.nodeID, x) ∈ s'.history.acks) ∨
      ∃ ops hs, t = .batch ops 0 hs ∧ x.op ∈ ops := by
  have hlife := hret.1
  cases h with
  | receive op rest => exact .inl (hret.2.receive op rest)
  | clear ops hs =>
    obtain ⟨p, hp, hop⟩ := hret.2
    rcases clearPending_dropped s.engine ops hp with hp' | ⟨op, hin, heq⟩
    · exact .inl ⟨p, hp', hop⟩
    · have hreg := hwf.known.tasks _ hmem op hin
      have := hwf.registry.seq_unique _ hreg x hx hlife.symm heq
      exact .inr (.inr ⟨ops, hs, rfl, this ▸ hin⟩)
  | launch =>
    rw [backpressure_eq]
    exact .inl hret.2
  | sent hd ops now =>
    refine (hret.records hwf (sendOk_spec _ hd ops now) (fun r => by simp)
      (subset_append_right _ _) fun hmem => ?_).imp_right .inl
    exact mem_append_left _ (mem_map.mpr ⟨x.op, hmem, by rw [← hlife]⟩)
  | replayed hd ops now =>
    refine (hret.records hwf (delivered_spec _ hd _ now) (fun r => by simp)
      (subset_append_right _ _) fun hmem => ?_).imp_right .inl
    exact mem_append_left _ (mem_map.mpr ⟨x.op, hmem, by rw [← hlife]⟩)
  | page hd since sinceNs before ops hops now =>
    refine (hret.records hwf (delivered_spec _ hd ops now) (fun r => by simp)
      (List.Subset.refl _) fun hmem => ?_).imp_right .inl
    exact absurd (hops _ hmem) (hwf.registry.seq_pos x hx).ne'
  | _ => exact .inl hret.2

theorem Task.Step.clearing (hts : Task.Step cfg s t ev s' ts) {ops : List WriteOperation}
    {hs : List (Handle N)} (hmem : .batch ops 0 hs ∈ ts) :
    s'.engine.replicaStates = [] ∧ s' = s := by
  cases hts with
  | snapshot =>
    obtain ⟨-, hlen, -⟩ := Task.batch.inj (mem_singleton.mp hmem)
    exact ⟨length_eq_zero_iff.mp hlen.symm, rfl⟩
  | visit | mark | replayed => split at hmem <;> simp at hmem
  | _ => simp at hmem

/-- An operation leaves the buffer when all have it or will read it from the feed, or
when the buffer is cleared. -/
theorem Sys.Step.retained (hwf : s.WF) (h : Sys.Step cfg s ev s') (hx : x ∈ s.history.registered)
    (hret : s.Retained x) :
    s'.Retained x ∨
      (∀ r' ∈ s'.engine.replicaStates,
        (r'.nodeID, x) ∈ s'.history.acks ∨ r'.Flagged x.op.timestamp) ∨
      ∃ ops hs, .batch ops 0 hs ∈ s.tasks ∧ x.op ∈ ops := by
  cases h with
  | task pre post t ht ev s' ts hts =>
    have hmem : t ∈ s.tasks := mem_middle ht
    rcases hts.retained hwf hmem hx hret with hret' | hset | ⟨ops, hs, rfl, hop⟩
    · exact .inl ⟨hret.1.trans hts.sameRegistry.life.symm, hret'⟩
    · exact .inr (.inl fun r hr => .inl (hset r hr))
    · exact .inr (.inr ⟨ops, hs, hmem, hop⟩)
  | register pre post op hw =>
    obtain ⟨f, hf⟩ := onLocalWrite_spec s.engine cfg op
    obtain ⟨hlife, p, hp, hop⟩ := hret
    have hne := hwf.registry.writers_fresh op (mem_middle hw) x hx hlife
    rcases hf.dropped _ p ((AList.lookup_insert_ne hne).trans hp) with hp' | hall
    · exact .inl ⟨hlife, p, hp', hop⟩
    · refine .inr (.inl fun r' hr' => ?_)
      obtain ⟨r, hr, rfl⟩ := mem_map.mp (hf.replicas ▸ hr')
      rcases hall r hr with hacked | hflag
      · have := (hwf.known.retained _ p hp).2.2 _ hacked
        rw [hop, ← hlife] at this
        rw [flagAll_toHandle]
        exact .inl this
      · rw [hop] at hflag
        exact .inr (flagged_flagAll r hflag)
  | remove nodeID =>
    have hdrop := removeReplica_spec s.engine nodeID
    obtain ⟨hlife, p, hp, hop⟩ := hret
    rcases hdrop.dropped _ p hp with hp' | hall
    · exact .inl ⟨hlife, p, hp', hop⟩
    · refine .inr (.inl fun r hr => .inl ?_)
      have hstates := s.engine.replicaStates_removeReplica nodeID
      have := (hwf.known.retained _ p hp).2.2 _ (hall _ (mem_nodeIDs (hstates ▸ hr)))
      rwa [hop, ← hlife] at this
  | restart => exact .inr (.inl fun r hr => by cases hr)
  | _ => exact .inl hret

end

end VeltrixDB.Replication
