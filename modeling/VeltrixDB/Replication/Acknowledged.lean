import VeltrixDB.Replication.Run

/-!
# Waiting for acknowledgements

A write with quorum or strong consistency waits until enough replicas have it
(`replication/engine.go`, `WaitForReplication`).  As long as the operation is
retained the replicas that acknowledged it are counted; later every replica counts whose
highest acknowledged number is not below.  That number says nothing about an operation
which left the buffer before the replica had acknowledged it.

Main results:

- Theorem `Sys.Gapless.step`: what one step keeps.
- Theorem `Sys.Run.wait_acknowledged`: in runs in which no replica acknowledges past
  such an operation, a wait that succeeds has its acknowledgements.
-/

namespace VeltrixDB.Replication

open List Parties ReplicaInfo

open ReplicationEngine

variable {N : Type} [DecidableEq N] {cfg : ReplicationConfig} {s s' : Sys N} {ev : Event N}

/-! ## Gaps -/

/-- `x` has left the buffer without an acknowledgement of `nodeID`. -/
def Sys.Gap (s : Sys N) (nodeID : N) (x : Registered) : Prop :=
  x ∈ s.history.registered ∧ x.life = s.life ∧ ¬s.engine.Retains x.op ∧
    (nodeID, x) ∉ s.history.acks

/-- The operation may leave the buffer: a replica that has not acknowledged it has not
acknowledged a later one either. -/
def Sys.MayDrop (s : Sys N) (p : PendingOp N) : Prop :=
  ∀ r ∈ s.engine.replicaStates, r.nodeID ∈ p.acked ∨ r.lastAckSeqNum < p.op.seqNum

/-- The replica may acknowledge `ops`: none of them is later than a gap. -/
def Sys.MayAck (s : Sys N) (h : Handle N) (ops : List WriteOperation) : Prop :=
  ∀ r ∈ s.engine.replicaStates, r.toHandle = h → ∀ x, s.Gap h.nodeID x → x.op ∉ ops →
    ∀ op ∈ ops, op.seqNum < x.op.seqNum

/-- No replica acknowledges past a gap. -/
def noGaps (cfg : ReplicationConfig) : Discipline N := fun s ev =>
  match ev with
  | .register op => ∀ k p, (s.engine.retain op).pendingWrites.lookup k = some p →
      (s.engine.onLocalWrite cfg op).pendingWrites.lookup k = some p ∨ s.MayDrop p
  | .clear ops => ∀ op ∈ ops, ∀ p, s.engine.pendingWrites.lookup op.seqNum = some p → s.MayDrop p
  | .sent h ops | .replayed h ops => s.MayAck h ops
  | _ => True

namespace Sys

/-- A replica has acknowledged whatever it is past of and is not retained. -/
structure Gapless (s : Sys N) : Prop where
  acked : ∀ r ∈ s.engine.replicaStates, ∀ x ∈ s.history.registered, x.life = s.life →
    ¬s.engine.Retains x.op → x.op.seqNum ≤ r.lastAckSeqNum → (r.nodeID, x) ∈ s.history.acks

omit [DecidableEq N] in
theorem Gapless.init : (init : Sys N).Gapless := ⟨fun _ hr => by cases hr⟩

/-! ## Steps -/

/-- Acknowledgements that are recorded make no gap. -/
theorem Gapless.records (h : s.Gapless) (hwf : s.WF) {e' : ReplicationEngine N}
    {hd : Handle N} {ops : List WriteOperation} {f : ReplicaInfo N → ReplicaInfo N}
    {acks : List (N × Registered)} (hrec : Records s.engine e' hd ops f)
    (hf : ∀ r, (f r).toHandle = r.toHandle ∧ (f r).lastAckSeqNum = (r.ackAll ops).lastAckSeqNum)
    (hsub : s.history.acks ⊆ acks)
    (hacks : ∀ x ∈ s.history.registered, x.life = s.life → x.op ∈ ops → (hd.nodeID, x) ∈ acks)
    (hmay : s.MayAck hd ops) :
    ∀ r ∈ e'.replicaStates, ∀ x ∈ s.history.registered, x.life = s.life →
      ¬e'.Retains x.op → x.op.seqNum ≤ r.lastAckSeqNum → (r.nodeID, x) ∈ acks := by
  intro r' hr' x hx hlife hlost hseq
  obtain ⟨r, hr, hcase⟩ := hrec.exists_of_mem hr'
  have hid : r'.nodeID = r.nodeID := by
    rcases hcase with ⟨-, rfl⟩ | ⟨-, rfl⟩
    · exact congrArg Handle.nodeID (hf r).1
    · rfl
  rw [hid]
  by_cases hret : s.engine.Retains x.op
  · -- It was dropped just now: all registered nodes have acknowledged it.
    obtain ⟨p, hp, hop⟩ := hret
    rcases hrec.acks.dropped _ p hp with ⟨p', hp', hop'⟩ | hall
    · exact absurd ⟨p', hp', hop'.trans hop⟩ hlost
    · rcases hall r.nodeID (mem_nodeIDs hr) with hacked | ⟨heq, hmem⟩
      · have := (hwf.known.retained _ p hp).2.2 r.nodeID hacked
        rw [hop, ← hlife] at this
        exact hsub this
      · rw [heq]
        exact hacks x hx hlife (hop ▸ hmem)
  · rcases hcase with ⟨hhandle, rfl⟩ | ⟨-, rfl⟩
    · rw [(hf r).2, le_lastAckSeqNum_ackAll] at hseq
      rcases hseq with hseq | ⟨op, hop, hseq⟩
      · exact hsub (h.acked r hr x hx hlife hret hseq)
      · have hnode : hd.nodeID = r.nodeID := congrArg Handle.nodeID hhandle.symm
        by_contra hno
        by_cases hmem : x.op ∈ ops
        · exact hno (hnode ▸ hacks x hx hlife hmem)
        · have hgap : s.Gap hd.nodeID x :=
            ⟨hx, hlife, hret, fun hacked => hno (hnode ▸ hsub hacked)⟩
          have := hmay r hr hhandle x hgap hmem op hop
          omega
    · exact hsub (h.acked r' hr x hx hlife hret hseq)

omit [DecidableEq N] in
theorem Gapless.of_drops (h : s.Gapless) {e' : ReplicationEngine N}
    (hstates : ∀ r' ∈ e'.replicaStates, ∃ r ∈ s.engine.replicaStates,
      r'.nodeID = r.nodeID ∧ r'.lastAckSeqNum = r.lastAckSeqNum)
    (hdrop : ∀ x ∈ s.history.registered, x.life = s.life → s.engine.Retains x.op →
      ¬e'.Retains x.op → ∀ r' ∈ e'.replicaStates,
        (r'.nodeID, x) ∈ s.history.acks ∨ r'.lastAckSeqNum < x.op.seqNum) :
    ∀ r ∈ e'.replicaStates, ∀ x ∈ s.history.registered, x.life = s.life →
      ¬e'.Retains x.op → x.op.seqNum ≤ r.lastAckSeqNum → (r.nodeID, x) ∈ s.history.acks := by
  intro r' hr' x hx hlife hlost hseq
  by_cases hret : s.engine.Retains x.op
  · exact (hdrop x hx hlife hret hlost r' hr').resolve_right (by omega)
  · obtain ⟨r, hr, hid, hack⟩ := hstates r' hr'
    rw [hid]
    exact h.acked r hr x hx hlife hret (hack ▸ hseq)

theorem Gapless.task (h : s.Gapless) (hwf : s.WF) {t : Task N} {ts : List (Task N)}
    (hD : noGaps cfg s ev) (hts : Task.Step cfg s t ev s' ts) :
    ∀ r ∈ s'.engine.replicaStates, ∀ x ∈ s.history.registered, x.life = s.life →
      ¬s'.engine.Retains x.op → x.op.seqNum ≤ r.lastAckSeqNum →
        (r.nodeID, x) ∈ s'.history.acks := by
  -- Sections that leave the buffer and the numbers alone.
  have hframe : ∀ {e' : ReplicationEngine N}, e'.pendingWrites = s.engine.pendingWrites →
      (∀ r' ∈ e'.replicaStates, ∃ r ∈ s.engine.replicaStates,
        r'.nodeID = r.nodeID ∧ r'.lastAckSeqNum = r.lastAckSeqNum) →
      ∀ r ∈ e'.replicaStates, ∀ x ∈ s.history.registered, x.life = s.life →
        ¬e'.Retains x.op → x.op.seqNum ≤ r.lastAckSeqNum → (r.nodeID, x) ∈ s.history.acks := by
    intro e' hpend hstates
    refine h.of_drops hstates fun x hx hlife hret hlost => absurd ?_ hlost
    unfold Retains
    rw [hpend]
    exact hret
  have hmodify : ∀ {hd : Handle N} {f : ReplicaInfo N → ReplicaInfo N},
      (∀ r, (f r).toHandle = r.toHandle) → (∀ r, (f r).lastAckSeqNum = r.lastAckSeqNum) →
      ∀ r ∈ (s.engine.modify hd f).replicaStates, ∀ x ∈ s.history.registered, x.life = s.life →
        ¬(s.engine.modify hd f).Retains x.op → x.op.seqNum ≤ r.lastAckSeqNum →
          (r.nodeID, x) ∈ s.history.acks := by
    intro hd f hhandle hf
    refine hframe rfl fun r' hr' => ?_
    obtain ⟨r, hr, ⟨-, rfl⟩ | ⟨-, rfl⟩⟩ := exists_of_mem_modify hr'
    · exact ⟨r, hr, congrArg Handle.nodeID (hhandle r), hf r⟩
    · exact ⟨r', hr, rfl, rfl⟩
  cases hts with
  | overflow =>
    refine hframe rfl fun r' hr' => ?_
    obtain ⟨r, hr, rfl⟩ := mem_map.mp hr'
    exact ⟨r, hr, by rw [markLagging_eq], by rw [markLagging_eq]⟩
  | receive op rest =>
    refine h.of_drops (fun r' hr' => ?_) fun x _ _ hret hlost => absurd (hret.receive op rest) hlost
    exact ⟨r', receive_replicaStates s.engine op rest ▸ hr', rfl, rfl⟩
  | clear ops =>
    refine h.of_drops (fun r' hr' => ⟨r', hr', rfl, rfl⟩) ?_
    rintro x hx hlife ⟨p, hp, hop⟩ hlost r' hr'
    rcases clearPending_dropped s.engine ops hp with hp' | ⟨op, hmem, heq⟩
    · exact absurd ⟨p, hp', hop⟩ hlost
    · rcases hD op hmem p (heq ▸ hp) r' hr' with hid | hlt
      · have := (hwf.known.retained _ p hp).2.2 r'.nodeID hid
        rw [hop, ← hlife] at this
        exact .inl this
      · exact .inr (hop ▸ hlt)
  | launch =>
    refine hframe (by rw [backpressure_eq]) fun r' hr' => ?_
    obtain ⟨r, hr, rfl | ⟨-, rfl⟩⟩ := exists_of_mem_backpressure _ cfg hr'
    · exact ⟨r', hr, rfl, rfl⟩
    · exact ⟨r, hr, rfl, rfl⟩
  | sent hd ops now =>
    refine h.records hwf (sendOk_spec _ hd ops now) (fun r => ?_) (subset_append_right _ _)
      (fun x _ hlife hmem => ?_) hD
    · rw [backInSync_eq]
      exact ⟨by simp, rfl⟩
    · exact mem_append_left _ (mem_map.mpr ⟨x.op, hmem, by rw [← hlife]⟩)
  | replayed hd ops now =>
    refine h.records hwf (delivered_spec _ hd _ now) (fun r => ⟨by simp, rfl⟩)
      (subset_append_right _ _) (fun x _ hlife hmem => ?_) hD
    exact mem_append_left _ (mem_map.mpr ⟨x.op, hmem, by rw [← hlife]⟩)
  | page hd since sinceNs before ops hops now =>
    -- The operations of the feed have no number.
    refine h.records hwf (delivered_spec _ hd ops now) (fun r => ⟨by simp, rfl⟩)
      (List.Subset.refl _) (fun x hx _ hmem => ?_) fun r _ _ x hgap _ op hop => ?_
    · exact absurd (hops _ hmem) (hwf.registry.seq_pos x hx).ne'
    · rw [hops op hop]
      exact hwf.registry.seq_pos x hgap.1
  | sendFailed =>
    refine hmodify (fun r => by simp) fun r => ?_
    simp only [flagAll_lastAckSeqNum]
    rw [markFailed_eq]
  | makeMember =>
    refine hframe rfl fun r' hr' => ?_
    obtain ⟨r, hr, rfl⟩ := mem_map.mp hr'
    refine ⟨r, hr, ?_⟩
    split <;> exact ⟨rfl, rfl⟩
  | pageFails | endCatchUp | catchUpFails =>
    exact hmodify (fun r => by simp) fun r => by rw [endCatchUp_eq]
  | finish => exact hmodify (fun r => by simp) fun r => by rw [finishRecovery_eq]
  | probeEnds | mark | beginCatchUp | noSource | recoveryFails =>
    exact hmodify (fun _ => rfl) fun _ => rfl
  | _ => exact h.acked

theorem Gapless.register (h : s.Gapless) (hwf : s.WF) {op : WriteOperation}
    (hop : op ∈ s.writers) (hD : noGaps cfg s (.register op)) :
    ∀ r ∈ (s.engine.onLocalWrite cfg op).replicaStates,
      ∀ x ∈ Registered.mk s.life op :: s.history.registered, x.life = s.life →
        ¬(s.engine.onLocalWrite cfg op).Retains x.op → x.op.seqNum ≤ r.lastAckSeqNum →
          (r.nodeID, x) ∈ s.history.acks := by
  obtain ⟨f, hf⟩ := onLocalWrite_spec s.engine cfg op
  intro r' hr' x hx hlife hlost hseq
  rw [hf.replicas] at hr'
  obtain ⟨r, hr, rfl⟩ := mem_map.mp hr'
  rw [flagAll_lastAckSeqNum] at hseq
  rw [flagAll_toHandle]
  rcases mem_cons.mp hx with rfl | hx
  · have hp := AList.lookup_insert (a := op.seqNum) (b := (⟨op, ∅⟩ : PendingOp N))
      s.engine.pendingWrites
    rcases hD op.seqNum _ hp with hp | hmay
    · exact absurd ⟨_, hp, rfl⟩ hlost
    · rcases hmay r hr with hid | hlt
      · cases hid
      · exact absurd hseq (Nat.not_le.mpr hlt)
  · by_cases hret : s.engine.Retains x.op
    · obtain ⟨p, hp, hpop⟩ := hret
      have hp' : (s.engine.retain op).pendingWrites.lookup x.op.seqNum = some p :=
        (AList.lookup_insert_ne (hwf.registry.writers_fresh op hop x hx hlife)).trans hp
      rcases hD _ p hp' with hkept | hmay
      · exact absurd ⟨p, hkept, hpop⟩ hlost
      · rcases hmay r hr with hid | hlt
        · have := (hwf.known.retained _ p hp).2.2 r.nodeID hid
          rwa [hpop, ← hlife] at this
        · rw [hpop] at hlt
          exact absurd hseq (Nat.not_le.mpr hlt)
    · exact h.acked r hr x hx hlife hret hseq

/-- A replica that is added has acknowledged nothing. -/
theorem Gapless.add (h : s.Gapless) (hwf : s.WF) (nodeID : N) (now : Int) :
    Gapless { s with engine := s.engine.addReplica cfg nodeID now } := by
  refine ⟨forall_mem_cons.mpr ⟨fun x hx _ _ hseq => ?_, h.acked⟩⟩
  have hzero : (s.engine.newReplica cfg nodeID now).lastAckSeqNum = 0 := by
    simp only [newReplica]
    split <;> rfl
  have := hwf.registry.seq_pos x hx
  omega

theorem Gapless.step (h : s.Gapless) (hwf : s.WF) (hD : noGaps cfg s ev)
    (hstep : Step cfg s ev s') : s'.Gapless := by
  cases hstep with
  | task pre post t ht ev s' ts hts =>
    have hsame := hts.sameRegistry
    constructor
    simp only [hsame.registered, hsame.life]
    exact h.task hwf hD hts
  | register pre post op hw =>
    exact ⟨h.register hwf (mem_middle hw) hD⟩
  | remove nodeID =>
    have hdrop := removeReplica_spec s.engine nodeID
    have hstates := s.engine.replicaStates_removeReplica nodeID
    refine ⟨h.of_drops (fun r hr => ?_) ?_⟩
    · exact ⟨r, mem_of_mem_removeReplica _ hr, rfl, rfl⟩
    · rintro x hx hlife ⟨p, hp, hop⟩ hlost r hr
      rcases hdrop.dropped _ p hp with hkept | hall
      · exact absurd ⟨p, hkept, hop⟩ hlost
      · have := (hwf.known.retained _ p hp).2.2 r.nodeID (hall _ (mem_nodeIDs (hstates ▸ hr)))
        rw [hop, ← hlife] at this
        exact .inl this
  | probe =>
    refine ⟨h.of_drops (fun r' hr' => ?_) fun x _ _ hret hlost => absurd hret hlost⟩
    obtain ⟨q, hq, ⟨-, rfl⟩ | ⟨-, rfl⟩⟩ := exists_of_mem_modify hr'
    · exact ⟨q, hq, rfl, rfl⟩
    · exact ⟨r', hq, rfl, rfl⟩
  | add nodeID hnew now => exact h.add hwf nodeID now
  | join nodeID hnew now => exact ⟨(h.add hwf nodeID now).acked⟩
  | restart => exact ⟨fun _ hr => by cases hr⟩
  | create | marks => exact ⟨h.acked⟩

/-! ## Runs -/

theorem Run.gapless (h : Run cfg (noGaps cfg) .init s) : s.WF ∧ s.Gapless := by
  induction h with
  | refl => exact ⟨.init, .init⟩
  | tail _ hstep ih =>
    obtain ⟨ev, hD, hstep⟩ := hstep
    exact ⟨ih.1.step hstep, ih.2.step ih.1 hD hstep⟩

/-- What `WaitForReplication` counts are replicas that acknowledged the operation. -/
theorem Gapless.syncedCount (h : s.Gapless) (hwf : s.WF) {x : Registered}
    (hx : x ∈ s.history.registered) (hlife : x.life = s.life) :
    ∃ ids : Finset N, s.engine.syncedCount x.op.seqNum ≤ ids.card ∧
      ∀ id ∈ ids, (id, x) ∈ s.history.acks := by
  unfold ReplicationEngine.syncedCount
  cases hp : s.engine.pendingWrites.lookup x.op.seqNum with
  | some p =>
    refine ⟨p.acked, le_rfl, fun id hid => ?_⟩
    obtain ⟨hseq, hreg, hacked⟩ := hwf.known.retained _ p hp
    have heq := hwf.registry.seq_unique _ hreg x hx hlife.symm hseq
    exact heq ▸ hacked id hid
  | none =>
    have hlost : ¬s.engine.Retains x.op := by
      rintro ⟨p, hp', -⟩
      cases hp.symm.trans hp'
    refine ⟨((s.engine.replicaStates.filter fun r => x.op.seqNum ≤ r.lastAckSeqNum).map
      fun r => r.nodeID).toFinset, ?_, fun id hid => ?_⟩
    · rw [toFinset_card_of_nodup, length_map]
      exact (filter_sublist.map _).nodup hwf.replicas.nodup
    · obtain ⟨r, hr, rfl⟩ := mem_map.mp (mem_toFinset.mp hid)
      obtain ⟨hr, hseq⟩ := mem_filter.mp hr
      exact h.acked r hr x hx hlife hlost (of_decide_eq_true hseq)

/-- Where no replica acknowledges past a gap, a wait for `target` copies succeeds only
when all but one of them are replicas that acknowledged the operation. -/
theorem Run.wait_acknowledged (h : Run cfg (noGaps cfg) .init s) {op : WriteOperation}
    (hop : ⟨s.life, op⟩ ∈ s.history.registered) {target : Int} {expired : Bool}
    (hok : s.engine.waitPoll op.seqNum target expired = some .ok) :
    ∃ ids : Finset N, target - 1 ≤ ids.card ∧
      ∀ id ∈ ids, (id, ⟨s.life, op⟩) ∈ s.history.acks := by
  obtain ⟨hwf, hgap⟩ := h.gapless
  obtain ⟨ids, hcard, hacks⟩ := hgap.syncedCount hwf hop rfl
  refine ⟨ids, ?_, hacks⟩
  unfold waitPoll at hok
  split at hok
  next htarget =>
    simp only at hcard
    omega
  · split at hok
    · cases hok
    · split at hok <;> cases hok

end Sys

def demoOp (seq : ℕ) (ts : Int) : WriteOperation := ⟨seq, [107], [], ts, 0, false⟩

/-- Two replicas acknowledge an operation, one after the other. -/
theorem wait_acknowledged_twice :
    ∃ s : Sys ℕ, Sys.Run .default (noGaps .default) .init s ∧
      s.engine.waitPoll 1 3 false = some .ok ∧
      ∃ ids : Finset ℕ, (3 : Int) - 1 ≤ ids.card ∧
        ∀ id ∈ ids, (id, ⟨s.life, demoOp 1 5⟩) ∈ s.history.acks := by
  have h : Sys.Run .default (noGaps .default) (.init : Sys ℕ) .init := .refl
  have h := h.snoc (.add 7 rfl 0) trivial
  have h := h.snoc (.add 8 rfl 0) trivial
  have h := h.snoc (.create (demoOp 1 5) rfl (by decide)) trivial
  have h := h.snoc (.register [] [] (demoOp 1 5) rfl) fun _ _ hp => .inl hp
  have h := h.snoc (.task [] _ _ rfl _ _ _ (.enqueue (demoOp 1 5) (by decide))) trivial
  have h := h.snoc (.task [] _ _ rfl _ _ _ (.receive (demoOp 1 5) [] [] rfl)) trivial
  have h := h.snoc (.task [] _ _ rfl _ _ _ (.snapshot [demoOp 1 5] (by decide))) trivial
  have h := h.snoc (.task [] _ _ rfl _ _ _
    (.launch [demoOp 1 5] 2 [⟨1, 8⟩, ⟨0, 7⟩] (by decide))) trivial
  have hgap : ∀ {x : Registered}, x ∈ [(⟨0, demoOp 1 5⟩ : Registered)] → x.op ∈ [demoOp 1 5] :=
    fun hx => mem_singleton.mpr (congrArg Registered.op (mem_singleton.mp hx))
  have h := h.snoc (.task [_, _] _ _ rfl _ _ _ (.arrive ⟨0, 7⟩ [demoOp 1 5] false 1)) trivial
  have h := h.snoc (.task [_, _] _ _ rfl _ _ _ (.sent ⟨0, 7⟩ [demoOp 1 5] 9))
    fun _ _ _ x hx hmem => absurd (hgap hx.1) hmem
  have h := h.snoc (.task [_] _ _ rfl _ _ _ (.arrive ⟨1, 8⟩ [demoOp 1 5] false 1)) trivial
  have h := h.snoc (.task [_] _ _ rfl _ _ _ (.sent ⟨1, 8⟩ [demoOp 1 5] 9))
    fun _ _ _ x hx hmem => absurd (hgap hx.1) hmem
  exact ⟨_, h, rfl, @Sys.Run.wait_acknowledged ℕ _ .default _ h (demoOp 1 5)
    mem_cons_self 3 false rfl⟩

def retainOne : ReplicationConfig := { ReplicationConfig.default with maxRetainedOps := 1 }

/-- The first write is being sent when the second one evicts it; the replica acknowledges
only the second, and the wait for the first succeeds. -/
theorem wait_not_acknowledged :
    ∃ s : Sys ℕ, Sys.Run retainOne anyStep .init s ∧
      ⟨s.life, demoOp 1 5⟩ ∈ s.history.registered ∧
      s.engine.waitPoll 1 2 false = some .ok ∧
      ¬∃ ids : Finset ℕ, (2 : Int) - 1 ≤ ids.card ∧
        ∀ id ∈ ids, (id, ⟨s.life, demoOp 1 5⟩) ∈ s.history.acks := by
  have h₀ : Sys.Run retainOne anyStep (.init : Sys ℕ) .init := .refl
  have h₁ := h₀.snoc (.add 7 rfl 0) trivial
  have h₂ := h₁.snoc (.create (demoOp 1 5) rfl (by decide)) trivial
  have h₃ := h₂.snoc (.register [] [] (demoOp 1 5) rfl) trivial
  have h₄ := h₃.snoc (.task [] _ _ rfl _ _ _ (.enqueue (demoOp 1 5) (by decide))) trivial
  have h₅ := h₄.snoc (.task [] _ _ rfl _ _ _ (.receive (demoOp 1 5) [] [] rfl)) trivial
  have h₆ := h₅.snoc (.task [] _ _ rfl _ _ _ (.snapshot [demoOp 1 5] (by decide))) trivial
  have h₇ := h₆.snoc (.task [] _ _ rfl _ _ _ (.launch [demoOp 1 5] 1 [⟨0, 7⟩] (by decide))) trivial
  -- The second write, while the first is on its way.
  have h₈ := h₇.snoc (.create (demoOp 2 6) rfl (by decide)) trivial
  have h₉ := h₈.snoc (.register [] [] (demoOp 2 6) rfl) trivial
  have h₁₀ := h₉.snoc (.task [] _ _ rfl _ _ _ (.enqueue (demoOp 2 6) (by decide))) trivial
  have h₁₁ := h₁₀.snoc (.task [] _ _ rfl _ _ _ (.receive (demoOp 2 6) [] [] rfl)) trivial
  have h₁₂ := h₁₁.snoc (.task [] _ _ rfl _ _ _ (.snapshot [demoOp 2 6] (by decide))) trivial
  have h₁₃ := h₁₂.snoc (.task [] _ _ rfl _ _ _
    (.launch [demoOp 2 6] 1 [⟨0, 7⟩] (by decide))) trivial
  have h₁₄ := h₁₃.snoc (.task [.worker []] _ _ rfl _ _ _
    (.arrive ⟨0, 7⟩ [demoOp 2 6] false 1)) trivial
  have h₁₅ := h₁₄.snoc (.task [.worker []] _ _ rfl _ _ _ (.sent ⟨0, 7⟩ [demoOp 2 6] 9)) trivial
  refine ⟨_, h₁₅, mem_cons_of_mem _ mem_cons_self, rfl, ?_⟩
  rintro ⟨ids, hcard, hacks⟩
  obtain rfl | ⟨id, hid⟩ := ids.eq_empty_or_nonempty
  · exact absurd hcard (by decide)
  · have hseq : 1 = 2 := congrArg (fun y : ℕ × Registered => y.2.op.seqNum)
      (mem_singleton.mp (hacks id hid))
    exact absurd hseq (by decide)

end VeltrixDB.Replication
