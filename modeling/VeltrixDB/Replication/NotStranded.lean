import VeltrixDB.Replication.Kept

/-!
# Operations on their way

An operation reaches a replica through the queue, the worker's batch and a send; a
replica that is not in sync gets it from anti-entropy or from a recovery
(`replication/engine.go`).  A lagging replica comes back with any send that
succeeds, although operations may wait for anti-entropy that never were in the queue:
they then are stranded, since nothing looks at them as long as the replica is in sync.

Main results:

- Theorem `Sys.Unstranded.step`: what one step keeps.
- Theorem `Sys.Run.not_stranded`: in runs in which a lagging replica comes back only
  when nothing waits for anti-entropy, and a catch-up is complete only with every key that
  it owes, every operation is on its way to every replica.
- Theorem `stranded_after_overflow`: a run of the engine as it is.
-/

namespace VeltrixDB.Replication

open List Parties ReplicaInfo

open ReplicationEngine

variable {N : Type}

/-! ## On the way -/

/-- The operation is being offered to the queue, is in it, in the worker's batch, or in a
send to the replica. -/
def Sys.Travels (s : Sys N) (h : Handle N) (op : WriteOperation) : Prop :=
  op ∈ s.engine.writeQueue ∨ .offering op ∈ s.tasks ∨ (∃ b, .worker b ∈ s.tasks ∧ op ∈ b) ∨
    (∃ ops n hs, .batch ops n hs ∈ s.tasks ∧ n ≠ 0 ∧ h ∈ hs ∧ op ∈ ops) ∨
    ∃ ops arrived, .send h ops arrived ∈ s.tasks ∧ op ∈ ops

/-- The replica has acknowledged `x`, or a page of the feed that has its key. -/
def Sys.Got (s : Sys N) (nodeID : N) (x : Registered) : Prop :=
  (nodeID, x) ∈ s.history.acks ∨ (nodeID, x) ∈ s.history.fed

instance gotDecidable [DecidableEq N] (s : Sys N) (nodeID : N) (x : Registered) :
    Decidable (s.Got nodeID x) :=
  inferInstanceAs (Decidable (_ ∨ _))

/-- The replica has `x` or will read it from the change feed. -/
def Sys.Provided (s : Sys N) (r : ReplicaInfo N) (x : Registered) : Prop :=
  s.Got r.nodeID x ∨ r.Flagged x.op.timestamp ∨ s.CatchingUp r x

/-- A lagging replica comes back only when everything it is owed is on its way, and a
catch-up is complete only when its pages brought what the replica is owed from before
it. -/
def comesBackClean : Discipline N := fun s ev =>
  keepsFlags s ev ∧
    match ev with
    | .sent h ops => ∀ r ∈ s.engine.replicaStates, r.toHandle = h → r.state = .lag →
        ∀ x, (h, x) ∈ s.history.owed → x.op ∉ ops → s.Got h.nodeID x ∨ s.Travels h x.op
    | .endCatchUp h true => ∀ since sinceNs before, .catchUp h since sinceNs before ∈ s.tasks →
        ∀ x ∈ before, (h, x) ∈ s.history.owed → s.Got h.nodeID x
    | _ => True

section
variable [DecidableEq N] {cfg : ReplicationConfig} {s s' : Sys N} {t : Task N} {ev : Event N}
  {ts : List (Task N)} {pre post : List (Task N)} {h : Handle N} {op : WriteOperation}

/-- An operation goes on its way, unless it arrives, its send fails or the queue is
full. -/
theorem Task.Step.travels (hts : Task.Step cfg s t ev s' ts) (ht : s.tasks = pre ++ t :: post)
    (hlive : ∃ r ∈ s.engine.replicaStates, r.toHandle = h ∧ (r.state = .sync ∨ r.state = .lag))
    (htr : s.Travels h op) :
    Sys.Travels { s' with tasks := pre ++ ts ++ post } h op ∨
      (∃ ops, ev = .sent h ops ∧ op ∈ ops) ∨ (∃ ops, ev = .sendFailed h ops) ∨
      ∃ op', ev = .overflow op' := by
  -- The tasks that a step leaves alone and those it starts.
  have hstay : ∀ {u : Task N}, u ∈ s.tasks → u ≠ t → u ∈ pre ++ ts ++ post := fun hu hne =>
    mem_split ht hu fun heq => absurd heq hne
  have hnew : ∀ {u : Task N}, u ∈ ts → u ∈ pre ++ ts ++ post := fun hu =>
    mem_append_left _ (mem_append_right _ hu)
  rcases htr with hq | hoff | ⟨b, hb, hop⟩ | ⟨ops, n, hs, hbatch, hn, hh, hop⟩ |
    ⟨ops, a, hsend, hop⟩
  · cases hts with
    | enqueue => exact .inl (.inl (mem_append_left _ hq))
    | receive op' rest b heq =>
      rcases mem_cons.mp (heq ▸ hq) with rfl | hrest
      · exact .inl (.inr (.inr (.inl ⟨_, hnew mem_cons_self, mem_append_right _ mem_cons_self⟩)))
      · exact .inl (.inl ((receive_writeQueue s.engine op' rest).symm ▸ hrest))
    | launch =>
      refine .inl (.inl ?_)
      rw [backpressure_eq]
      exact hq
    | sent hd ops now => exact .inl (.inl ((sendOk_spec s.engine hd ops now).writeQueue.symm ▸ hq))
    | page hd since sinceNs before ops hops now =>
      exact .inl (.inl ((delivered_spec s.engine hd ops now).writeQueue.symm ▸ hq))
    | replayed hd ops now =>
      exact .inl (.inl ((delivered_spec s.engine hd _ now).writeQueue.symm ▸ hq))
    | _ => exact .inl (.inl hq)
  · by_cases heq : .offering op = t
    · subst heq
      cases hts with
      | enqueue => exact .inl (.inl (mem_append_right _ mem_cons_self))
      | overflow => exact .inr (.inr (.inr ⟨_, rfl⟩))
    · exact .inl (.inr (.inl (hstay hoff heq)))
  · by_cases heq : .worker b = t
    · subst heq
      cases hts with
      | receive =>
        exact .inl (.inr (.inr (.inl ⟨_, hnew mem_cons_self, mem_append_left _ hop⟩)))
      | snapshot =>
        obtain ⟨r, hr, rfl, hstate⟩ := hlive
        refine .inl (.inr (.inr (.inr (.inl ⟨b, _, _, hnew mem_cons_self, ?_, ?_, hop⟩))))
        · exact (length_pos_of_mem hr).ne'
        · exact mem_map_of_mem (mem_filter.mpr ⟨hr, by simp [hstate]⟩)
    · exact .inl (.inr (.inr (.inl ⟨b, hstay hb heq, hop⟩)))
  · by_cases heq : .batch ops n hs = t
    · subst heq
      cases hts with
      | clear => exact absurd rfl hn
      | launch =>
        refine .inl (.inr (.inr (.inr (.inr ⟨ops, false, hnew (mem_cons_of_mem _ ?_), hop⟩))))
        exact mem_map.mpr ⟨h, hh, rfl⟩
    · exact .inl (.inr (.inr (.inr (.inl ⟨ops, n, hs, hstay hbatch heq, hn, hh, hop⟩))))
  · by_cases heq : .send h ops a = t
    · subst heq
      cases hts with
      | arrive =>
        exact .inl (.inr (.inr (.inr (.inr ⟨ops, _, hnew mem_cons_self, hop⟩))))
      | sent => exact .inr (.inl ⟨ops, rfl, hop⟩)
      | sendFailed => exact .inr (.inr (.inl ⟨ops, rfl⟩))
    · exact .inl (.inr (.inr (.inr (.inr ⟨ops, a, hstay hsend heq, hop⟩))))

theorem Task.Step.sync (hwf : s.WF) (hts : Task.Step cfg s t ev s' ts) {r' : ReplicaInfo N}
    (hr' : r' ∈ s'.engine.replicaStates) (hstate : r'.state = .sync) :
    ∃ r ∈ s.engine.replicaStates, r'.toHandle = r.toHandle ∧
      (r.state = .sync ∧ (∀ ops, ev ≠ .sendFailed r.toHandle ops) ∧ (∀ op', ev ≠ .overflow op') ∨
        r.state = .lag ∧ (∃ ops, ev = .sent r.toHandle ops) ∨
        t = .looping r.toHandle ∧ s' = { s with engine := s'.engine } ∧ r.needsResync = false ∧
          s.engine.unacked r.nodeID = []) := by
  obtain ⟨r, hr, hto⟩ := hts.touches hwf.replicas hr'
  refine ⟨r, hr, ?_⟩
  cases hto with
  | same hfail hover => exact ⟨rfl, .inl ⟨hstate, hfail, hover⟩⟩
  | overflow =>
    unfold markLagging at hstate
    split at hstate
    · cases hstate
    · contradiction
  | sent ops =>
    rw [ackAll_eq] at hstate
    unfold backInSync at hstate
    split at hstate
    next hlag => exact ⟨by simp, .inr (.inl ⟨hlag, ops, rfl⟩)⟩
    · exact ⟨by simp, .inl ⟨hstate, by simp, by simp⟩⟩
  | sendFailed =>
    rw [flagAll_eq, markFailed_eq] at hstate
    cases hstate
  | acked ops now r hfail hover =>
    rw [ackAll_eq] at hstate ⊢
    exact ⟨rfl, .inl ⟨hstate, hfail _, hover⟩⟩
  | endCatchUp =>
    rw [endCatchUp_eq] at hstate ⊢
    exact ⟨rfl, .inl ⟨hstate, by simp, by simp⟩⟩
  | catchUpFails since sinceNs before r hfail hover =>
    rw [endCatchUp_eq] at hstate ⊢
    exact ⟨rfl, .inl ⟨hstate, hfail _, hover⟩⟩
  | finish r hops hs =>
    unfold finishRecovery at hstate
    split at hstate
    · cases hstate
    next hneeds => exact ⟨by simp, .inr (.inr ⟨rfl, hs, by simpa using hneeds, hops⟩)⟩
  | lagging | member | mark | recoveryFails => cases hstate
  | probeEnds | beginCatchUp | noSource => exact ⟨rfl, .inl ⟨hstate, by simp, by simp⟩⟩

/-! ## Steps and runs -/

/-- Everything a replica is owed is on its way. -/
structure Sys.Unstranded (s : Sys N) : Prop where
  kept : ∀ r ∈ s.engine.replicaStates, ∀ x, (r.toHandle, x) ∈ s.history.owed →
    s.Provided r x ∨ s.Retained x
  life : ∀ r ∈ s.engine.replicaStates, ∀ x, (r.toHandle, x) ∈ s.history.owed → x.life = s.life
  clearing : ∀ ops hs, .batch ops 0 hs ∈ s.tasks → ∀ r ∈ s.engine.replicaStates,
    ∀ x, (r.toHandle, x) ∈ s.history.owed → x.op ∈ ops → s.Provided r x
  travels : ∀ r ∈ s.engine.replicaStates, r.state = .sync →
    ∀ x, (r.toHandle, x) ∈ s.history.owed → s.Got r.nodeID x ∨ s.Travels r.toHandle x.op

omit [DecidableEq N] in
theorem Sys.Unstranded.init : (Sys.init : Sys N).Unstranded := by
  constructor <;> simp [Sys.init, ReplicationEngine.start]

omit [DecidableEq N] in
theorem Sys.Got.mono {nodeID : N} {x : Registered} (h : s.Got nodeID x)
    (hacks : s.history.acks ⊆ s'.history.acks) (hfed : s.history.fed ⊆ s'.history.fed) :
    s'.Got nodeID x :=
  h.imp (@hacks _) (@hfed _)

theorem Sys.Step.fed_subset (h : Sys.Step cfg s ev s') : s.history.fed ⊆ s'.history.fed := by
  cases h with
  | task pre post t ht ev s' ts hts => exact hts.sameRegistry.fed
  | _ => exact List.Subset.refl _

/-- No step forgets an operation that the feed will bring, since a catch-up ends with its
key on the replica. -/
theorem Sys.Step.provided (hwf : s.WF) (hD : comesBackClean s ev) (h : Sys.Step cfg s ev s')
    {r' : ReplicaInfo N} (hr' : r' ∈ s'.engine.replicaStates) :
    (∃ r ∈ s.engine.replicaStates, r'.toHandle = r.toHandle ∧
      ∀ x, (r.toHandle, x) ∈ s.history.owed → s.Provided r x → s'.Provided r' x) ∨
    ∃ nodeID now, r' = s.engine.newReplica cfg nodeID now := by
  refine (h.follows hwf hD.1 hr').imp ?_ fun ⟨nodeID, now, heq, _⟩ => ⟨nodeID, now, heq⟩
  rintro ⟨r, hr, hhandle, hfollows⟩
  have hnode : r'.nodeID = r.nodeID := congrArg Handle.nodeID hhandle
  have hgot : ∀ {x}, s.Got r.nodeID x → s'.Provided r' x := fun hg =>
    .inl (hnode ▸ hg.mono h.acks_subset h.fed_subset)
  refine ⟨r, hr, hhandle, fun x howed hprov => ?_⟩
  have hfollow := hfollows x (hwf.replicas.owed_registered _ howed)
  rcases hprov with hg | hflag | hcatch
  · exact hgot hg
  · exact .inr ((hfollow.flagged hflag).imp_right And.left)
  · rcases hfollow.catchingUp hcatch with hcatch' | hflag | ⟨-, rfl⟩
    · exact .inr (.inr hcatch')
    · exact .inr (.inl hflag)
    · obtain ⟨sinceNs, before, hmem, -, hbefore⟩ := hcatch
      exact hgot (hD.2 _ _ _ hmem x hbefore howed)

/-- At the end of a recovery the replica has everything. -/
theorem Sys.Unstranded.got (h : s.Unstranded) (hwf : s.WF) (ht : s.tasks = pre ++ t :: post)
    {r : ReplicaInfo N} (hr : r ∈ s.engine.replicaStates) (htask : t = .looping r.toHandle)
    (hneeds : r.needsResync = false) (hops : s.engine.unacked r.nodeID = []) {x : Registered}
    (hx : (r.toHandle, x) ∈ s.history.owed) : s.Got r.nodeID x := by
  rcases h.kept r hr x hx with (hset | hflag | ⟨sinceNs, before, hmem, -, -⟩) | ⟨hlife, p, hp, hop⟩
  · exact hset
  · cases hneeds.symm.trans hflag.1
  · have := hwf.replicas.recovers_unique ht (by rw [htask]; rfl) hmem rfl
    cases this.trans htask
  · by_cases hacked : r.nodeID ∈ p.acked
    · have := (hwf.known.retained _ p hp).2.2 _ hacked
      rw [hop, ← hlife] at this
      exact .inl this
    · have : p.op ∈ s.engine.unacked r.nodeID := mem_unacked.mpr ⟨_, p, hp, hacked, rfl⟩
      rw [hops] at this
      cases this

omit [DecidableEq N] in
theorem Sys.Travels.mono (htr : s.Travels h op) (hq : s.engine.writeQueue ⊆ s'.engine.writeQueue)
    (ht : s.tasks ⊆ s'.tasks) : s'.Travels h op := by
  rcases htr with hin | hoff | ⟨b, hb, hop⟩ | ⟨ops, n, hs, hbatch, hn, hh, hop⟩ |
    ⟨ops, a, hsend, hop⟩
  · exact .inl (hq hin)
  · exact .inr (.inl (ht hoff))
  · exact .inr (.inr (.inl ⟨b, ht hb, hop⟩))
  · exact .inr (.inr (.inr (.inl ⟨ops, n, hs, ht hbatch, hn, hh, hop⟩)))
  · exact .inr (.inr (.inr (.inr ⟨ops, a, ht hsend, hop⟩)))

theorem Sys.Unstranded.provided_or_retained (h : s.Unstranded) (hwf : s.WF)
    (hD : comesBackClean s ev)
    (hstep : Sys.Step cfg s ev s') {r' : ReplicaInfo N} (hr' : r' ∈ s'.engine.replicaStates)
    {x : Registered} (hx : (r'.toHandle, x) ∈ s.history.owed) :
    s'.Provided r' x ∨ s'.Retained x := by
  have hreg : x ∈ s.history.registered := hwf.replicas.owed_registered _ hx
  rcases hstep.provided hwf hD hr' with ⟨r, hr, hh, hprov⟩ | ⟨nodeID, now, rfl⟩
  · rw [hh] at hx
    rcases h.kept r hr x hx with hs | hret
    · exact .inl (hprov x hx hs)
    · rcases hstep.retained hwf hreg hret with hret | hall | ⟨ops, hs, hbatch, hop⟩
      · exact .inr hret
      · exact .inl ((hall r' hr').elim (.inl ∘ .inl) (.inr ∘ .inl))
      · exact .inl (hprov x hx (h.clearing ops hs hbatch r hr x hx hop))
  · have := hwf.replicas.owed_lt _ hx
    rw [newReplica_toHandle] at this
    exact absurd this (Nat.lt_irrefl _)

theorem Sys.Unstranded.provided_of_clearing (h : s.Unstranded) (hwf : s.WF)
    (hD : comesBackClean s ev)
    (hstep : Sys.Step cfg s ev s') {r' : ReplicaInfo N} (hr' : r' ∈ s'.engine.replicaStates)
    {x : Registered} (hx : (r'.toHandle, x) ∈ s.history.owed) {ops : List WriteOperation}
    {hs : List (Handle N)} (hbatch : .batch ops 0 hs ∈ s.tasks) (hop : x.op ∈ ops) :
    s'.Provided r' x := by
  rcases hstep.provided hwf hD hr' with ⟨r, hr, hh, hprov⟩ | ⟨nodeID, now, rfl⟩
  · rw [hh] at hx
    exact hprov x hx (h.clearing ops hs hbatch r hr x hx hop)
  · have := hwf.replicas.owed_lt _ hx
    rw [newReplica_toHandle] at this
    exact absurd this (Nat.lt_irrefl _)

/-- A goroutine strands nothing when lagging replicas come back clean. -/
theorem Sys.Unstranded.travels_task (h : s.Unstranded) (hwf : s.WF) (hD : comesBackClean s ev)
    (ht : s.tasks = pre ++ t :: post) (hts : Task.Step cfg s t ev s' ts) {r' : ReplicaInfo N}
    (hr' : r' ∈ s'.engine.replicaStates) (hstate : r'.state = .sync) {x : Registered}
    (hx : (r'.toHandle, x) ∈ s.history.owed) :
    s'.Got r'.nodeID x ∨
      Sys.Travels { s' with tasks := pre ++ ts ++ post } r'.toHandle x.op := by
  have hsame := hts.sameRegistry
  obtain ⟨r, hr, hh, hcase⟩ := hts.sync hwf hr' hstate
  rw [hh] at hx
  rw [hh]
  have hlife := h.life r hr x hx
  -- What this send brings is acknowledged.
  have hsent : ∀ ops, ev = .sent r.toHandle ops → x.op ∈ ops → s'.Got r.nodeID x := by
    rintro ops rfl hop
    cases hts with
    | sent =>
      exact .inl (mem_append_left _ (mem_map.mpr ⟨x.op, hop, by rw [← hlife]⟩))
  -- What is on its way at a live replica goes on.
  have hgo : r.state = .sync ∨ r.state = .lag → (∀ ops, ev ≠ .sendFailed r.toHandle ops) →
      (∀ op', ev ≠ .overflow op') → s.Travels r.toHandle x.op →
      s'.Got r.nodeID x ∨
        Sys.Travels { s' with tasks := pre ++ ts ++ post } r.toHandle x.op := by
    intro hlive hfail hover htr
    rcases hts.travels ht ⟨r, hr, rfl, hlive⟩ htr with
      htr | ⟨ops, hev, hop⟩ | ⟨ops, hev⟩ | ⟨op', hev⟩
    · exact .inr htr
    · exact .inl (hsent ops hev hop)
    · exact absurd hev (hfail ops)
    · exact absurd hev (hover op')
  rcases hcase with ⟨hsync, hfail, hover⟩ | ⟨hlag, ops, hev⟩ | ⟨htask, -, hneeds, hops⟩
  · rcases h.travels r hr hsync x hx with hset | htr
    · exact .inl (hset.mono hsame.acks hsame.fed)
    · exact hgo (.inl hsync) hfail hover htr
  · by_cases hop : x.op ∈ ops
    · exact .inl (hsent ops hev hop)
    · subst hev
      rcases hD.2 r hr rfl hlag x hx hop with hset | htr
      · exact .inl (hset.mono hsame.acks hsame.fed)
      · exact hgo (.inr hlag) (by simp) (by simp) htr
  · exact .inl ((h.got hwf ht hr htask hneeds hops hx).mono hsame.acks hsame.fed)

/-- Registering an operation: it is retained or flagged, and it is offered to the
queue. -/
theorem Sys.Unstranded.register (h : s.Unstranded) (hwf : s.WF) {wpre wpost : List WriteOperation}
    (hw : s.writers = wpre ++ op :: wpost) :
    Sys.Unstranded { s with
      engine := s.engine.onLocalWrite cfg op
      writers := wpre ++ wpost
      tasks := .offering op :: s.tasks
      history := s.history.register ⟨s.life, op⟩ s.engine.replicaStates } := by
  have hstep : Sys.Step cfg s (.register op) _ := .register wpre wpost op hw
  have hD : comesBackClean s (.register op) := ⟨trivial, trivial⟩
  have hwriter : op ∈ s.writers := mem_middle hw
  obtain ⟨f, hf⟩ := onLocalWrite_spec s.engine cfg op
  have howed : ∀ {hd : Handle N} {x : Registered},
      (hd, x) ∈ (s.history.register ⟨s.life, op⟩ s.engine.replicaStates).owed →
      x = ⟨s.life, op⟩ ∨ (hd, x) ∈ s.history.owed := by
    intro hd x hx
    refine (mem_append.mp hx).imp_left fun hx => ?_
    obtain ⟨r, -, heq⟩ := mem_map.mp hx
    exact (Prod.mk.inj heq).2.symm
  refine ⟨fun r' hr' x hx => ?_, fun r' hr' x hx => ?_, fun ops hs hbatch r' hr' x hx hop => ?_,
    fun r' hr' hstate x hx => ?_⟩
  · rcases howed hx with rfl | hx
    · exact (onLocalWrite_keeps s.engine cfg op hr').imp (fun h => .inr (.inl h)) fun h => ⟨rfl, h⟩
    · exact h.provided_or_retained hwf hD hstep hr' hx
  · rcases howed hx with rfl | hx
    · rfl
    · obtain ⟨r, hr, rfl⟩ := mem_map.mp (hf.replicas ▸ hr')
      rw [flagAll_toHandle] at hx
      exact h.life r hr x hx
  · have hbatch : .batch ops 0 hs ∈ s.tasks := (mem_cons.mp hbatch).resolve_left (by simp)
    rcases howed hx with rfl | hx
    · -- The operations of a batch are registered, this one is new.
      exact absurd rfl (hwf.registry.writers_fresh op hwriter _
        (hwf.known.tasks _ hbatch op hop) rfl)
    · exact h.provided_of_clearing hwf hD hstep hr' hx hbatch hop
  · rcases howed hx with rfl | hx
    · exact .inr (.inr (.inl mem_cons_self))
    · obtain ⟨r, hr, rfl⟩ := mem_map.mp (hf.replicas ▸ hr')
      rw [flagAll_toHandle] at hx ⊢
      rw [flagAll_state] at hstate
      refine (h.travels r hr hstate x hx).imp_right fun htr => ?_
      refine htr.mono ?_ (subset_cons_self _ _)
      rw [hf.rest]
      exact List.Subset.refl _

theorem Sys.Unstranded.quiet (h : s.Unstranded) (hwf : s.WF) (hD : comesBackClean s ev)
    (hstep : Sys.Step cfg s ev s') (hhist : s'.history.owed = s.history.owed)
    (hacks : s'.history.acks = s.history.acks)
    (hfed : s'.history.fed = s.history.fed) (hlife : s'.life = s.life)
    (hq : s.engine.writeQueue = s'.engine.writeQueue) (htasks : s.tasks ⊆ s'.tasks)
    (hbatch : ∀ ops n hs, .batch ops n hs ∈ s'.tasks → .batch ops n hs ∈ s.tasks)
    (hold : ∀ r' ∈ s'.engine.replicaStates, (∃ r ∈ s.engine.replicaStates,
      r'.toHandle = r.toHandle ∧ r'.state = r.state) ∨ s.engine.nextRef ≤ r'.ref) :
    s'.Unstranded := by
  have hnew : ∀ {r' : ReplicaInfo N} {x : Registered}, (r'.toHandle, x) ∈ s.history.owed →
      ¬s.engine.nextRef ≤ r'.ref := fun hx => Nat.not_le.mpr (hwf.replicas.owed_lt _ hx)
  refine ⟨fun r' hr' x hx => ?_, fun r' hr' x hx => ?_, fun ops hs hmem r' hr' x hx hop => ?_,
    fun r' hr' hstate x hx => ?_⟩
  · rw [hhist] at hx
    exact h.provided_or_retained hwf hD hstep hr' hx
  · rw [hhist] at hx
    rcases hold r' hr' with ⟨r, hr, hh, -⟩ | hge
    · rw [hlife]
      exact h.life r hr x (hh ▸ hx)
    · exact absurd hge (hnew hx)
  · rw [hhist] at hx
    exact h.provided_of_clearing hwf hD hstep hr' hx (hbatch _ _ _ hmem) hop
  · rw [hhist] at hx
    rcases hold r' hr' with ⟨r, hr, hh, hs⟩ | hge
    · rw [hh] at hx ⊢
      refine (h.travels r hr (hs ▸ hstate) x hx).imp (fun hset => ?_) fun htr =>
        htr.mono (fun _ h => hq ▸ h) htasks
      exact hset.mono (fun _ h => hacks ▸ h) fun _ h => hfed ▸ h
    · exact absurd hge (hnew hx)

theorem Sys.Unstranded.step (h : s.Unstranded) (hwf : s.WF) (hD : comesBackClean s ev)
    (hstep : Sys.Step cfg s ev s') : s'.Unstranded := by
  have hstep' := hstep
  cases hstep with
  | task pre post t ht ev s' ts hts =>
    have hsame := hts.sameRegistry
    refine ⟨fun r' hr' x hx => ?_, fun r' hr' x hx => ?_, fun ops hs hmem r' hr' x hx hop => ?_,
      fun r' hr' hstate x hx => ?_⟩
    · exact h.provided_or_retained hwf hD hstep' hr' (hsame.owed ▸ hx)
    · obtain ⟨r, hr, hh⟩ := hts.renews.exists_of_mem hr'
      refine (h.life r hr x (hh ▸ hsame.owed ▸ hx)).trans hsame.life.symm
    · rcases mem_or_new ht hmem with hmem | hmem
      · exact h.provided_of_clearing hwf hD hstep' hr' (hsame.owed ▸ hx) hmem hop
      · -- A batch that finds no replica has none to care for.
        obtain ⟨hnil, rfl⟩ := hts.clearing hmem
        rw [hnil] at hr'
        cases hr'
    · exact h.travels_task hwf hD ht hts hr' hstate (hsame.owed ▸ hx)
  | register wpre wpost op hw => exact h.register hwf hw
  | create => exact { h with }
  | probe =>
    refine h.quiet hwf hD hstep' rfl rfl rfl rfl rfl (subset_cons_self _ _) (by simp)
      fun r' hr' => .inl ?_
    obtain ⟨q, hq, ⟨-, rfl⟩ | ⟨-, rfl⟩⟩ := exists_of_mem_modify hr'
    · exact ⟨q, hq, rfl, rfl⟩
    · exact ⟨r', hq, rfl, rfl⟩
  | add =>
    exact h.quiet hwf hD hstep' rfl rfl rfl rfl rfl (List.Subset.refl _) (by simp)
      (forall_mem_cons.mpr ⟨.inr (by rw [newReplica_toHandle]),
        fun r' hr' => .inl ⟨r', hr', rfl, rfl⟩⟩)
  | join =>
    exact h.quiet hwf hD hstep' rfl rfl rfl rfl rfl (subset_cons_self _ _) (by simp)
      (forall_mem_cons.mpr ⟨.inr (by rw [newReplica_toHandle]),
        fun r' hr' => .inl ⟨r', hr', rfl, rfl⟩⟩)
  | remove nodeID =>
    have hdrop := removeReplica_spec s.engine nodeID
    refine h.quiet hwf hD hstep' rfl rfl rfl rfl (by rw [hdrop.rest]) (List.Subset.refl _)
      (by simp) fun r' hr' => .inl ⟨r', mem_of_mem_removeReplica _ hr', rfl, rfl⟩
  | marks =>
    exact h.quiet hwf hD hstep' rfl rfl rfl rfl rfl (subset_cons_self _ _) (by simp)
      fun r' hr' => .inl ⟨r', hr', rfl, rfl⟩
  | restart =>
    refine ⟨fun r hr => ?_, fun r hr => ?_, fun _ _ _ r hr => ?_, fun r hr => ?_⟩
    all_goals cases hr

end

end VeltrixDB.Replication
