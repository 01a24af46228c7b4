import VeltrixDB.Consensus.Cluster
import Mathlib.Logic.Relation

/-!
# What a step does to the cores

Every action of a cluster changes the core of one node by a few elementary
steps, and sends messages that are determined by the core.  This module says
once which steps there are and under which guards they are taken, so that an
invariant of the replicated log is checked against the elementary steps only.

Main results:

- Definition `NodeStep`: the elementary steps.
- Theorem `Cluster.exec_steps`: every action is a sequence of them.
- Theorem `Cluster.Reachable.steps_induct`: an invariant of the elementary
  steps holds of every reachable cluster.
-/

namespace VeltrixDB.Consensus

open Function List RaftNode

/-! ## Conditions on steps -/

namespace NodeCore

variable {ι κ : Type} [DecidableEq ι] (n : NodeCore ι κ)

/-- The meta file holds the node's term when an RPC of that very term arrives. -/
def TermSaved (term : Nat) : Prop :=
  term = n.currentTerm → n.store.metaFile.currentTerm = n.currentTerm

/-- A candidate has nothing to drop when its syncer reports a failure. -/
def CampaignSafe (result : Option Bool) : Prop :=
  result = some false → n.role = .candidate →
    n.lastLogIndex ≤ n.durableIndex ∨ n.durableIndex + 1 < n.logFirstIndex

/-- An AppendEntries request that a leader with this core may send. -/
def Sends (m : Message ι κ) : Prop :=
  ∃ p tag prev k, (n.lastIncludedIndex ≤ prev ∨ prev = n.lastLogIndex) ∧
    m = .append p
      { source := n.id
        args := { term := n.currentTerm, leaderID := n.id, prevLogIndex := prev
                  prevLogTerm := n.logTerm prev, entries := (n.entriesFrom (prev + 1)).take k
                  leaderCommit := n.commitIndex, wantMatch := true }
        tag := tag }

def Solicits (m : Message ι κ) : Prop :=
  ∃ p, m = .requestVote p
    { term := n.currentTerm, candidateID := n.id, lastLogIndex := n.lastLogIndex
      lastLogTerm := n.lastLogTerm, preVote := false }

instance instDecidableTermSaved (term : Nat) : Decidable (n.TermSaved term) :=
  inferInstanceAs (Decidable (_ → _))

instance instDecidableCampaignSafe (result : Option Bool) : Decidable (n.CampaignSafe result) :=
  inferInstanceAs (Decidable (_ → _ → _))

end NodeCore

/-- What is assumed of a run: whether wiped data directories are excluded, whether
the faults against `TermSaved` and `CampaignSafe` are, and which
configurations a leader appends. -/
structure Rules (ι κ : Type) where
  unwiped : Prop
  safe : Prop
  change : NodeCore ι κ → Configuration ι → Prop

section

variable {ι κ : Type}

/-! ## The core behind the functions of a whole node -/

namespace RaftNode

section

variable (n : RaftNode ι κ)

@[simp] theorem toNodeCore_withCore (c : NodeCore ι κ) : (n.withCore c).toNodeCore = c := by
  rw [withCore]
  split <;> rfl

@[simp] theorem toNodeCore_endTransfer (uid : Nat) :
    (n.endTransfer uid).toNodeCore = n.toNodeCore := by
  rw [endTransfer]
  split <;> rfl

theorem toNodeCore_preVoteDone (i : Nat) : (n.preVoteDone i).toNodeCore = n.toNodeCore := by
  rw [preVoteDone]
  split
  · rfl
  · split <;> rfl

theorem toNodeCore_confirmRead (call : Nat) : (n.confirmRead call).toNodeCore = n.toNodeCore := by
  rw [confirmRead]
  repeat' split
  all_goals rfl

theorem toNodeCore_returnRead (call : Nat) : (n.returnRead call).toNodeCore = n.toNodeCore := by
  rw [returnRead]
  split
  · rfl
  · split <;> rfl

theorem sends_appendArgs (p : ι) (tag : SendTag) (prev k : Nat)
    (hprev : n.lastIncludedIndex ≤ prev) :
    n.toNodeCore.Sends (.append p
      { source := n.id, args := n.appendArgs prev ((n.entriesFrom (prev + 1)).take k)
        tag := tag }) :=
  ⟨p, tag, prev, k, .inl hprev, rfl⟩

variable [DecidableEq ι]

theorem toNodeCore_startReplicators (ps : List ι) :
    (n.startReplicators ps).toNodeCore = n.toNodeCore := by
  induction ps generalizing n with
  | nil => rfl
  | cons p ps ih =>
    rw [startReplicators]
    split
    · exact ih n
    · exact ih _

@[simp] theorem toNodeCore_syncReplicators : n.syncReplicators.toNodeCore = n.toNodeCore := by
  rw [syncReplicators]
  split
  · exact toNodeCore_startReplicators _ _
  · rfl

@[simp] theorem toNodeCore_becomeFollower (term : Nat) (o : ReplaceOutcome) :
    (n.becomeFollower term o).toNodeCore = n.toNodeCore.becomeFollower term o :=
  toNodeCore_withCore _ _

theorem toNodeCore_finishApplied : n.finishApplied.toNodeCore = n.toNodeCore.finishApplied := by
  rw [finishApplied]
  split
  next h => simp [NodeCore.finishApplied, h]
  · dsimp only
    split <;> rfl

theorem toNodeCore_onAppendError (req : AppendRequest ι κ) :
    (n.onAppendError req).toNodeCore = n.toNodeCore := by
  rw [onAppendError]
  split
  · rfl
  · split
    · rfl
    · dsimp only
      repeat' split
      all_goals rfl

theorem toNodeCore_onAppendSuccess (pr : PeerRepl ι) (req : AppendRequest ι κ)
    (reply : AppendEntriesReply) (entries : Bool) (epoch : Nat) :
    (n.onAppendSuccess pr req reply entries epoch).toNodeCore =
      if n.matchIndex pr.peer < req.matched reply then
        n.toNodeCore.raiseMatch pr.peer (req.matched reply)
      else n.toNodeCore := by
  simp only [onAppendSuccess]
  split <;> split <;> rfl

theorem toNodeCore_onAppendReject (pr : PeerRepl ι) (req : AppendRequest ι κ)
    (reply : AppendEntriesReply) (epoch : Nat) :
    (n.onAppendReject pr req reply epoch).toNodeCore = n.toNodeCore := by
  rw [onAppendReject]
  split <;> rfl

variable [CommandCodec ι κ]

@[simp] theorem toNodeCore_becomeLeader :
    n.becomeLeader.toNodeCore = n.toNodeCore.becomeLeader := by
  rw [becomeLeader, toNodeCore_syncReplicators]

theorem toNodeCore_syncFinish (idx term : Nat) (result : Option Bool) :
    (n.syncFinish idx term result).1.toNodeCore = (n.toNodeCore.syncFinish idx term result).1 ∧
      (n.syncFinish idx term result).2 = (n.toNodeCore.syncFinish idx term result).2 := by
  simp only [syncFinish]
  split <;> exact ⟨rfl, rfl⟩

end

theorem sends_heartbeatTo (n : RaftNode ι κ) (pr : PeerRepl ι) :
    ∀ m ∈ n.heartbeatTo pr, n.toNodeCore.Sends m := by
  intro m hm
  rw [heartbeatTo] at hm
  split at hm
  next h =>
    rw [mem_singleton.1 hm]
    exact n.sends_appendArgs _ _ _ 0 (by omega)
  · split at hm
    · rw [mem_singleton.1 hm]
      exact n.sends_appendArgs _ _ _ 0 (Nat.le_refl _)
    · simp at hm

variable [DecidableEq ι] [CommandCodec ι κ]

theorem sendLoop_spec (window fuel : Nat) (n : RaftNode ι κ) (pr : PeerRepl ι) :
    (sendLoop window fuel n pr).1.toNodeCore = n.toNodeCore ∧
      ∀ m ∈ (sendLoop window fuel n pr).2.2, n.toNodeCore.Sends m := by
  induction fuel generalizing n pr with
  | zero => exact ⟨rfl, by simp [sendLoop]⟩
  | succ fuel ih =>
    rw [sendLoop]
    split
    · exact ⟨rfl, by simp⟩
    next hsend =>
      obtain ⟨hcore, hout⟩ := ih
        { n with
          nextIndex := update n.nextIndex pr.peer
            (n.nextFor pr + (n.nextBatch (n.nextFor pr)).length) }
        { pr with inflight := pr.inflight + 1 }
      refine ⟨hcore, ?_⟩
      intro m hm
      rcases mem_cons.1 hm with rfl | hm
      · have hsends := n.sends_appendArgs pr.peer (.replicator pr.uid true pr.epoch false)
          (n.nextFor pr - 1) (batchLen ι 0 0 (n.entriesFrom (n.nextFor pr))) (by omega)
        rwa [Nat.sub_add_cancel (by omega)] at hsends
      · exact hout m hm

theorem replicate_spec (n : RaftNode ι κ) (uid : Nat) :
    (n.replicate uid).1.toNodeCore = n.toNodeCore ∧
      ((n.replicate uid).2 = [] ∨ n.role = .leader) ∧
      ∀ m ∈ (n.replicate uid).2, n.toNodeCore.Sends m := by
  rw [replicate]
  split
  · exact ⟨rfl, .inl rfl, by simp⟩
  next pr _ =>
    split
    · exact ⟨rfl, .inl rfl, by simp⟩
    next hrole =>
      simp only [not_or, not_not] at hrole
      obtain ⟨hcore, hout⟩ := sendLoop_spec (n.sendWindow pr) (n.sendWindow pr + 1) n
        { pr with hbDue := false }
      refine ⟨hcore, .inr hrole.1, ?_⟩
      intro m hm
      dsimp only at hm
      split at hm
      · rw [← hcore]
        exact sends_heartbeatTo _ _ m hm
      · exact hout m hm

end RaftNode

/-! ## Elementary steps -/

/-- Answers to AppendEntries as messages of `z`. -/
def answers (z : ι) (replies : List (AppendRequest ι κ × AppendEntriesReply)) :
    List (Message ι κ) :=
  replies.map fun r => .appendReply z r.1 r.2

structure Cores (ι κ : Type) where
  nodes : ι → NodeCore ι κ
  net : List (Message ι κ)

variable [DecidableEq ι]

def Cores.put (s : Cores ι κ) (z : ι) (n : NodeCore ι κ) (out : List (Message ι κ)) :
    Cores ι κ where
  nodes := update s.nodes z n
  net := s.net ++ out

theorem Cores.forall_put {s : Cores ι κ} {z : ι} {n : NodeCore ι κ} {out : List (Message ι κ)}
    {A : ι → NodeCore ι κ → Prop} (h : ∀ y, A y (s.nodes y)) (hn : A z n) :
    ∀ y, A y ((s.put z n out).nodes y) := by
  intro y
  by_cases hy : y = z
  · subst hy
    simpa [put] using hn
  · simpa [put, hy] using h y

theorem Cores.forall_mem_put {s : Cores ι κ} {z : ι} {n : NodeCore ι κ}
    {out : List (Message ι κ)} {A : Message ι κ → Prop} (h : ∀ msg ∈ s.net, A msg)
    (hout : ∀ msg ∈ out, A msg) :
    ∀ msg ∈ (s.put z n out).net, A msg := by
  intro msg hmsg
  rcases mem_append.1 hmsg with hmsg | hmsg
  · exact h msg hmsg
  · exact hout msg hmsg

theorem NodeCore.campaign_won {n : NodeCore ι κ} {o : ReplaceOutcome}
    (h : (n.campaign o).2 = true) :
    (n.campaign o).1.role = .candidate ∧ (n.campaign o).1.votes.length = 1 ∧
      ((n.campaign o).1.currentTerm, (n.campaign o).1.id) ∈ (n.campaign o).1.granted := by
  simp only [NodeCore.campaign] at h ⊢
  split at h
  next hsaved => simp [hsaved]
  · simp at h

variable [CommandCodec ι κ]

/-- The elementary steps of node `z`: its core before and after, and the
messages it sends.  `net` holds the messages sent so far. -/
inductive NodeStep (R : Rules ι κ) (z : ι) (net : List (Message ι κ)) :
    NodeCore ι κ → NodeCore ι κ → List (Message ι κ) → Prop where
  | follow {n} (term : Nat) (o : ReplaceOutcome) (hterm : n.currentTerm < term) :
      NodeStep R z net n (n.becomeFollower term o) []
  | vote {n} (args : RequestVoteArgs ι) (contact : Bool) (o o' o'' : ReplaceOutcome)
      (hmsg : .requestVote z args ∈ net) :
      NodeStep R z net n (n.handleRequestVote args contact o o' o'').1
        [.voteReply z args (n.handleRequestVote args contact o o' o'').2]
  | preVote {n} (out : List (Message ι κ))
      (hout : ∀ m ∈ out, ∃ p args, m = .requestVote p args ∧ args.preVote = true) :
      NodeStep R z net n n out
  | campaign {n} (o : ReplaceOutcome) (out : List (Message ι κ)) (hrole : n.role ≠ .leader)
      (hvoter : n.config.contains n.id = true)
      (hout : ∀ m ∈ out, (n.campaign o).2 = true ∧ (n.campaign o).1.Solicits m) :
      NodeStep R z net n (n.campaign o).1 out
  | count {n} (source : ι) (args : RequestVoteArgs ι) (reply : RequestVoteReply)
      (hmsg : .voteReply source args reply ∈ net) (hcand : args.candidateID = z)
      (hpre : args.preVote = false) (hgranted : reply.voteGranted = true)
      (hterm : n.currentTerm = args.term) (hrole : n.role = .candidate)
      (hawait : source ∈ n.awaiting) :
      NodeStep R z net n (n.countVote source) []
  | lead {n} (hrole : n.role = .candidate) (hwon : n.needed ≤ n.votes.length)
      (hsince : (n.currentTerm, n.id) ∈ n.granted ∨ ∃ source args reply,
        .voteReply source args reply ∈ net ∧ args.candidateID = z ∧ args.preVote = false ∧
          n.currentTerm = args.term) :
      NodeStep R z net n n.becomeLeader []
  | append {n n'} (batch : List κ) (hrole : n.role = .leader)
      (happend : n.leaderAppend (batch.mapIdx (n.newEntry entryNormal)) = some n') :
      NodeStep R z net n n' []
  | propose {n n'} (next : Configuration ι) (hrole : n.role = .leader) (hchange : R.change n next)
      (happend : n.leaderAppend
        [n.newEntry entryConfig 0 (CommandCodec.encodeConfiguration next)] = some n') :
      NodeStep R z net n (n'.adoptConfig next (n.lastLogIndex + 1)) []
  | send {n} (out : List (Message ι κ)) (hrole : n.role = .leader) (hout : ∀ m ∈ out, n.Sends m) :
      NodeStep R z net n n out
  | sendSnapshot {n} (p : ι) (m : SnapshotMeta ι) (uid : Nat) (legacy : Bool)
      (hrole : n.role = .leader) (hsnap : n.snapFile = some m) :
      NodeStep R z net n n
        [.snapshot p { source := n.id, term := n.currentTerm, header := m, uid := uid
                       legacy := legacy }]
  | acknowledged {n} (source : ι) (req : AppendRequest ι κ) (reply : AppendEntriesReply)
      (hmsg : .appendReply source req reply ∈ net) (hsource : req.source = z)
      (hrole : n.role = .leader) (hterm : n.currentTerm = req.args.term)
      (hreply : reply.term ≤ n.currentTerm) (hsuccess : reply.success = true) :
      NodeStep R z net n (n.raiseMatch source (req.matched reply)) []
  | snapshotSent {n} (source : ι) (req : SnapshotRequest ι) (term : Nat) (status : SnapshotStatus)
      (hmsg : .snapshotReply source req term status ∈ net) (hsource : req.source = z)
      (hrole : n.role = .leader) (hterm : n.currentTerm = req.term) :
      NodeStep R z net n (n.raiseMatch source req.header.index) []
  | accept {n} (req : AppendRequest ι κ) (o o' : ReplaceOutcome) (hmsg : .append z req ∈ net)
      (hsafe : R.safe → n.TermSaved req.args.term) :
      NodeStep R z net n (n.handleAppendEntries req o o').1
        (answers z (n.handleAppendEntries req o o').2)
  | syncCapture {n} (hsync : n.sync = .idle) : NodeStep R z net n n.syncCapture []
  | syncWrite {n} (idx term : Nat) (o : NodeCore.WriteOutcome)
      (hsync : n.sync = .captured idx term) : NodeStep R z net n (n.syncWrite idx term o) []
  | syncFsync {n} (idx term covered gen : Nat) (ok : Bool)
      (hsync : n.sync = .written idx term covered gen) :
      NodeStep R z net n (n.syncFsync idx term covered gen ok) []
  | syncFinish {n} (idx term : Nat) (result : Option Bool)
      (hsync : n.sync = .flushed idx term result) (hsafe : R.safe → n.CampaignSafe result) :
      NodeStep R z net n (n.syncFinish idx term result).1
        (answers z (n.syncFinish idx term result).2)
  | gather {n} : NodeStep R z net n n.gather []
  | applySome {n} : NodeStep R z net n n.applySome []
  | finishApplied {n} : NodeStep R z net n n.finishApplied []
  | captureFence {n} (snapshotID : Nat) : NodeStep R z net n (n.captureFence snapshotID) []
  | captureInstall {n} (o : ReplaceOutcome) : NodeStep R z net n (n.captureInstall o) []
  | captureCompact {n} (o : LogStore.RewriteOutcome) : NodeStep R z net n (n.captureCompact o) []
  | receive {n} (req : SnapshotRequest ι) (o o' : ReplaceOutcome) (hmsg : .snapshot z req ∈ net)
      (hsafe : R.safe → n.TermSaved req.term) :
      NodeStep R z net n (n.handleInstallSnapshot req o o').1
        ((n.handleInstallSnapshot req o o').2.toList.map fun r => .snapshotReply z req r.1 r.2)
  | installBegin {n} (valid : Bool) :
      NodeStep R z net n (n.installBegin valid).1 (n.installBegin valid).2
  | installRename {n} (o : ReplaceOutcome) :
      NodeStep R z net n (n.installRename o).1 (n.installRename o).2
  | installLog {n} (o : LogStore.RewriteOutcome) :
      NodeStep R z net n (n.installLog o).1 (answers z (n.installLog o).2)
  | installRestored {n} : NodeStep R z net n n.installRestored.1 n.installRestored.2
  | stop {n} : NodeStep R z net n { n with stopped := true } []
  | closeStore {n} (hstopped : n.stopped = true) :
      NodeStep R z net n
        { n.takeDecidedWaiters.1 with store := { n.store with closed := true } }
        (answers z n.takeDecidedWaiters.2)
  | restart {n n'} (f : LogStore.CrashedLog) (applied : Option AppliedIndexState)
      (o : ReplaceOutcome) (rw : LogStore.RewriteOutcome)
      (happlied : ∀ a ∈ applied, a.restoring = true ∨ a ∈ n.records)
      (hrestart : n.crashRestart f applied o rw = some n') :
      NodeStep R z net n n' []
  | wipe {n} (hwiped : ¬R.unwiped) : NodeStep R z net n (wipedCore n) []

def CoreStep (R : Rules ι κ) (s s' : Cores ι κ) : Prop :=
  ∃ z n' out, NodeStep R z s.net (s.nodes z) n' out ∧ s' = s.put z n' out

abbrev CoreSteps (R : Rules ι κ) : Cores ι κ → Cores ι κ → Prop :=
  Relation.ReflTransGen (CoreStep R)

namespace Cluster

def cores (c : Cluster ι κ) : Cores ι κ where
  nodes := fun z => (c.nodes z).toNodeCore
  net := c.net

omit [CommandCodec ι κ] in
theorem cores_put (c : Cluster ι κ) (z : ι) (n : RaftNode ι κ) (out : List (Message ι κ)) :
    (c.put z n out).cores = c.cores.put z n.toNodeCore out := by
  have hnodes : (c.put z n out).cores.nodes = (c.cores.put z n.toNodeCore out).nodes := by
    funext y
    by_cases hy : y = z
    · subst hy
      simp [cores, put, Cores.put]
    · simp [cores, put, Cores.put, hy]
  exact congrArg₂ Cores.mk hnodes rfl

variable {R : Rules ι κ} {c : Cluster ι κ} {z : ι} {n : RaftNode ι κ} {out : List (Message ι κ)}

theorem steps_put (h : NodeStep R z c.net (c.nodes z).toNodeCore n.toNodeCore out) :
    CoreSteps R c.cores (c.put z n out).cores := by
  rw [cores_put]
  exact .single ⟨z, n.toNodeCore, out, h, rfl⟩

theorem steps_put_same (h : n.toNodeCore = (c.nodes z).toNodeCore) :
    CoreSteps R c.cores (c.put z n []).cores := by
  have hsame : (c.put z n []).cores = c.cores := by
    rw [cores_put, h]
    simp [Cores.put, cores]
  rw [hsame]

theorem steps_put_two {n₁ : NodeCore ι κ} {out₁ : List (Message ι κ)}
    (h₁ : NodeStep R z c.net (c.nodes z).toNodeCore n₁ out₁)
    (h₂ : NodeStep R z (c.net ++ out₁) n₁ n.toNodeCore out) :
    CoreSteps R c.cores (c.put z n (out₁ ++ out)).cores := by
  refine .tail (.single ⟨z, n₁, out₁, h₁, rfl⟩) ⟨z, n.toNodeCore, out, ?_, ?_⟩
  · simpa [Cores.put, cores] using h₂
  · rw [cores_put]
    simp [Cores.put]

/-! ## Conditions on actions -/

def noWipe : Action ι κ → Bool
  | .wipe _ => false
  | _ => true

/-- An AppendEntries or snapshot RPC of the receiver's own term finds that term
in the receiver's meta file. -/
def termsSaved (c : Cluster ι κ) : Action ι κ → Bool
  | .deliver i _ _ _ _ =>
    match c.net[i]? with
    | some (.append dest req) => (c.nodes dest).TermSaved req.args.term
    | some (.snapshot dest req) => (c.nodes dest).TermSaved req.term
    | _ => true
  | _ => true

def campaignsSafe (c : Cluster ι κ) : Action ι κ → Bool
  | .syncFinish z =>
    match (c.nodes z).sync with
    | .flushed _ _ result => (c.nodes z).CampaignSafe result
    | _ => true
  | _ => true

/-- The configurations an action may append on node `z`. -/
def Proposes (c : Cluster ι κ) (z : ι) (next : Configuration ι) : Action ι κ → Prop
  | .addMember z' call =>
    z' = z ∧ (c.nodes z).beginChange = true ∧
      (c.nodes z).config.isMember call.member = false ∧
      (c.nodes z).reachableQuorum (c.nodes z).config = true ∧
      next = (c.nodes z).config.addLearner call
  | .resumeAdd z' i =>
    z' = z ∧ ∃ call, (c.nodes z).adds[i]? = some call ∧
      (c.nodes z).reachableQuorum (c.nodes z).config = true ∧
      (c.nodes z).beginChange = true ∧ next = (c.nodes z).config.addLearner call
  | .removeMember z' id =>
    z' = z ∧ (c.nodes z).beginChange = true ∧ (c.nodes z).config.isMember id = true ∧
      ((c.nodes z).config.contains id = true →
        (c.nodes z).reachableQuorum ((c.nodes z).config.remove id) = true) ∧
      next = (c.nodes z).config.remove id
  | .resumeRemove z' i =>
    z' = z ∧ ∃ id, (c.nodes z).removes[i]? = some id ∧
      (c.nodes z).reachableQuorum ((c.nodes z).config.remove id) = true ∧
      (c.nodes z).beginChange = true ∧ (c.nodes z).config.isMember id = true ∧
      next = (c.nodes z).config.remove id
  | .heartbeat z' _ =>
    z' = z ∧ (c.nodes z).beginChange = true ∧
      ∃ id ∈ (c.nodes z).config.learners,
        (c.nodes z).reachableQuorum ((c.nodes z).config.promote id) = true ∧
        next = (c.nodes z).config.promote id
  | _ => False

/-! ## Actions as elementary steps -/

/-- The node stays as it is or takes an elementary step that sends nothing. -/
def Quiet (R : Rules ι κ) (z : ι) (net : List (Message ι κ)) (n n' : NodeCore ι κ) : Prop :=
  n' = n ∨ NodeStep R z net n n' []

theorem steps_put_quiet (h : Quiet R z c.net (c.nodes z).toNodeCore n.toNodeCore) :
    CoreSteps R c.cores (c.put z n []).cores := by
  rcases h with h | h
  · exact steps_put_same h
  · exact steps_put h

/-- A step down to the term of a message. -/
theorem quiet_becomeFollower {term : Nat} {o : ReplaceOutcome} {net : List (Message ι κ)}
    (hterm : n.currentTerm < term) :
    Quiet R z net n.toNodeCore (n.becomeFollower term o).toNodeCore := by
  rw [toNodeCore_becomeFollower]
  exact .inr (.follow _ o hterm)

theorem steps_some {c₁ c' : Cluster ι κ} (h : some c₁ = some c')
    (hs : CoreSteps R c.cores c₁.cores) : CoreSteps R c.cores c'.cores :=
  Option.some.inj h ▸ hs

theorem steps_unless {p : Prop} [Decidable p] {c₁ c' : Cluster ι κ}
    (h : (if p then none else some c₁) = some c') (hs : CoreSteps R c.cores c₁.cores) :
    CoreSteps R c.cores c'.cores :=
  steps_some (Option.ite_none_left_eq_some.mp h).2 hs

theorem quiet_flushBatch (n : RaftNode ι κ) (batch : List κ) (net : List (Message ι κ)) :
    Quiet R z net n.toNodeCore (n.flushBatch batch).toNodeCore := by
  rw [flushBatch]
  split
  · exact .inl rfl
  next hrole =>
    rw [not_not] at hrole
    rw [appendEntries]
    split
    next happend => exact .inr (.append batch hrole happend)
    · exact .inl rfl

theorem quiet_proposeConfig (n : RaftNode ι κ) (next : Configuration ι) (net : List (Message ι κ))
    (hrole : n.role = .leader) (hchange : R.change n.toNodeCore next) :
    Quiet R z net n.toNodeCore (n.proposeConfig next).1.toNodeCore := by
  rw [proposeConfig]
  split
  · exact .inl rfl
  · cases happend : n.toNodeCore.leaderAppend
        [n.toNodeCore.newEntry entryConfig 0 (CommandCodec.encodeConfiguration next)] with
    | none =>
      simp only [appendEntries, happend]
      exact .inl rfl
    | some core =>
      simp only [appendEntries, happend, if_true, toNodeCore_syncReplicators]
      exact .inr (.propose next hrole hchange happend)

omit [DecidableEq ι] [CommandCodec ι κ] in
theorem leader_of_beginChange (h : n.beginChange = true) : n.role = .leader := by
  simp only [beginChange, Bool.and_eq_true, beq_iff_eq] at h
  exact h.1

theorem quiet_addNow (n : RaftNode ι κ) (call : AddCall ι) (net : List (Message ι κ))
    (hchange : n.beginChange = true → R.change n.toNodeCore (n.config.addLearner call)) :
    Quiet R z net n.toNodeCore (n.addNow call).toNodeCore := by
  rw [addNow]
  split
  next hbegin =>
    exact quiet_proposeConfig n _ net (leader_of_beginChange hbegin) (hchange hbegin)
  · exact .inl rfl

theorem quiet_removeNow (n : RaftNode ι κ) (id : ι) (net : List (Message ι κ))
    (hchange : n.beginChange = true → n.config.isMember id = true →
      R.change n.toNodeCore (n.config.remove id)) :
    Quiet R z net n.toNodeCore (n.removeNow id).toNodeCore := by
  rw [removeNow]
  split
  next hbegin =>
    exact quiet_proposeConfig n _ net (leader_of_beginChange hbegin.1) (hchange hbegin.1 hbegin.2)
  · exact .inl rfl

theorem quiet_promoteLoop (n : RaftNode ι κ) (slow ids : List ι) (net : List (Message ι κ))
    (hrole : n.role = .leader)
    (hchange : ∀ id ∈ ids, ∀ m : RaftNode ι κ, m.toNodeCore = n.toNodeCore →
      m.lastAck = n.lastAck → m.reachableQuorum (m.config.promote id) = true →
      R.change n.toNodeCore (n.config.promote id)) :
    Quiet R z net n.toNodeCore (n.promoteLoop slow ids).toNodeCore := by
  induction ids generalizing n with
  | nil => exact .inl rfl
  | cons id ids ih =>
    have hrest := fun id' hid' => hchange id' (mem_cons_of_mem _ hid')
    rw [promoteLoop]
    split
    · exact ih n hrole hrest
    · split
      · exact ih (n.startRound id) hrole hrest
      · split
        · exact ih n hrole hrest
        · split
          · exact ih (n.startRound id) hrole hrest
          next hquorum =>
            simp only [not_or] at hquorum
            have hstep := quiet_proposeConfig (z := z) n (n.config.promote id) net hrole
              (hchange id (mem_cons_self ..) n rfl rfl (by simpa using hquorum.2))
            dsimp only
            split
            · exact hstep
            · exact hstep

theorem steps_startElection (round : Nat) (o : ReplaceOutcome) :
    CoreSteps R c.cores (c.put z ((c.nodes z).startElection round o).1
      ((c.nodes z).startElection round o).2).cores := by
  rw [startElection]
  split
  · exact steps_put_same rfl
  · split
    · exact steps_put_same rfl
    · dsimp only
      split
      · exact steps_put_same rfl
      next hguard =>
        simp only [not_or] at hguard
        have hvoter : (c.nodes z).config.contains (c.nodes z).id = true := by
          simpa using hguard.2.1
        split
        · exact steps_put (.campaign o [] hguard.2.2 hvoter (by simp))
        next hok =>
          split
          next hwon =>
            -- the only voter wins at once
            refine steps_put_two (.campaign o [] hguard.2.2 hvoter (by simp)) ?_
            rw [toNodeCore_becomeLeader]
            have hok' : ((c.nodes z).toNodeCore.campaign o).2 = true := by
              simpa using hok
            obtain ⟨hrole, hvotes, hself⟩ := NodeCore.campaign_won hok'
            exact .lead hrole (by rw [hvotes]; exact hwon) (.inl hself)
          · refine steps_put (.campaign o _ hguard.2.2 hvoter ?_)
            intro m hm
            obtain ⟨p, -, rfl⟩ := mem_map.1 hm
            exact ⟨by simpa using hok, p, rfl⟩

theorem quiet_onAppendReply (source : ι) (req : AppendRequest ι κ)
    (reply : AppendEntriesReply) (o : ReplaceOutcome)
    (hmsg : .appendReply source req reply ∈ c.net) (hsource : req.source = z) :
    Quiet R z c.net (c.nodes z).toNodeCore
      ((c.nodes z).onAppendReply source req reply o).toNodeCore := by
  rw [onAppendReply]
  split
  · exact .inl rfl
  · split
    next hterm => exact quiet_becomeFollower hterm
    next hterm =>
      extract_lets n₁
      have hcore : n₁.toNodeCore = (c.nodes z).toNodeCore := by
        dsimp only [n₁]
        split <;> rfl
      split
      · exact .inl hcore
      next pr hpr =>
        have hpeer : pr.peer = source := by
          have := List.find?_some hpr
          simp only [decide_eq_true_eq] at this
          exact this.2
        extract_lets pr₁
        have hpeer₁ : pr₁.peer = source := by
          dsimp only [pr₁]
          split <;> exact hpeer
        split
        · exact .inl hcore
        next hguard =>
          simp only [not_or, not_not] at hguard
          split
          next hsuccess =>
            rw [toNodeCore_onAppendSuccess, hpeer₁, hcore]
            split
            · rw [hcore] at hguard
              exact .inr (.acknowledged source req reply hmsg hsource hguard.2.1
                hguard.2.2 (Nat.le_of_not_lt hterm) hsuccess)
            · exact .inl rfl
          · rw [toNodeCore_onAppendReject]
            exact .inl hcore

theorem steps_deliver {msg : Message ι κ} (hmsg : msg ∈ c.net)
    (happend : ∀ dest req, msg = .append dest req →
      R.safe → (c.nodes dest).TermSaved req.args.term)
    (hsnapshot : ∀ dest req, msg = .snapshot dest req →
      R.safe → (c.nodes dest).TermSaved req.term)
    (o o' o'' : ReplaceOutcome) (round : Nat) :
    CoreSteps R c.cores (c.deliver msg o o' o'' round).cores := by
  cases msg with
  | requestVote dest args =>
    refine steps_put ?_
    simp only [toNodeCore_withCore]
    exact .vote args _ o o' o'' hmsg
  | voteReply source args reply =>
    simp only [deliver]
    split
    · refine steps_put_quiet ?_
      rw [onPreVoteReply]
      split
      · exact .inl rfl
      · split
        · dsimp only
          split
          · exact .inl rfl
          · split
            next hterm => exact quiet_becomeFollower hterm
            · exact .inl rfl
        · exact .inl rfl
    next hpre =>
      rw [onVoteReply]
      split
      next hterm =>
        refine steps_put ?_
        rw [toNodeCore_becomeFollower]
        exact .follow _ o hterm
      · split
        next hvote =>
          have hcount : NodeStep R args.candidateID c.net (c.nodes args.candidateID).toNodeCore
              ((c.nodes args.candidateID).toNodeCore.countVote source) [] :=
            .count source args reply hmsg rfl (by simpa using hpre) hvote.1 hvote.2.1
              hvote.2.2.1 hvote.2.2.2
          dsimp only
          split
          next hwon =>
            refine steps_put_two hcount ?_
            rw [toNodeCore_becomeLeader]
            exact .lead hvote.2.2.1 hwon (.inr ⟨source, args, reply,
              by simpa using hmsg, rfl, by simpa using hpre, hvote.2.1⟩)
          · exact steps_put hcount
        · exact steps_put_same rfl
  | append dest req =>
    refine steps_put ?_
    simp only [toNodeCore_withCore]
    exact .accept req o o' hmsg (happend dest req rfl)
  | appendReply source req reply =>
    simp only [deliver]
    split
    · exact steps_put_quiet (quiet_onAppendReply source req reply o hmsg rfl)
    · refine steps_put_quiet ?_
      rw [onReadReply]
      split
      · exact .inl rfl
      · split
        · split
          next hterm => exact quiet_becomeFollower hterm
          · exact .inl rfl
        · split <;> exact .inl rfl
  | snapshot dest req =>
    refine steps_put ?_
    simp only [toNodeCore_withCore]
    exact .receive req o o' hmsg (hsnapshot dest req rfl)
  | snapshotReply source req term status =>
    refine steps_put_quiet ?_
    rw [onSnapshotReply]
    split
    next hterm => exact quiet_becomeFollower hterm
    · dsimp only
      split
      · rw [toNodeCore_endTransfer]
        split
        next hinstalled =>
          exact .inr (.snapshotSent source req term status hmsg rfl hinstalled.2.1 hinstalled.2.2.1)
        · exact .inl rfl
      · split
        next hinstalled =>
          exact .inr (.snapshotSent source req term status hmsg rfl hinstalled.2.1 hinstalled.2.2.1)
        · exact .inl rfl

theorem steps_preVote :
    CoreSteps R c.cores (c.put z (c.nodes z).preVote.1 (c.nodes z).preVote.2).cores := by
  rw [preVote]
  split
  · exact steps_put_same rfl
  · refine steps_put (.preVote _ ?_)
    intro m hm
    split at hm
    · simp at hm
    · obtain ⟨p, -, rfl⟩ := mem_map.1 hm
      exact ⟨p, _, rfl, rfl⟩

theorem steps_replicate (uid : Nat) :
    CoreSteps R c.cores
      (c.put z ((c.nodes z).replicate uid).1 ((c.nodes z).replicate uid).2).cores := by
  obtain ⟨hcore, hrole, hout⟩ := (c.nodes z).replicate_spec uid
  rcases hrole with hnil | hrole
  · rw [hnil]
    exact steps_put_same hcore
  · refine steps_put ?_
    rw [hcore]
    exact .send _ hrole hout

theorem steps_readIndex (acked : List Nat) :
    CoreSteps R c.cores (c.put z ((c.nodes z).readIndex acked).1
      (if (c.nodes z).stopped then [] else ((c.nodes z).readIndex acked).2)).cores := by
  rw [readIndex]
  split
  · simpa using steps_put_same rfl
  next hrole =>
    split
    · simpa using steps_put_same rfl
    · refine steps_put (.send _ (not_not.1 hrole) ?_)
      intro m hm
      dsimp only at hm
      split at hm
      · simp at hm
      · split at hm
        · simp at hm
        · obtain ⟨p, -, rfl⟩ := mem_map.1 hm
          exact ⟨p, _, _, 0, .inr rfl, rfl⟩

theorem quiet_heartbeat (slow : List ι)
    (hchange : ∀ next, c.Proposes z next (.heartbeat z slow) →
      R.change (c.nodes z).toNodeCore next) :
    Quiet R z c.net (c.nodes z).toNodeCore ((c.nodes z).heartbeat slow).toNodeCore := by
  rw [heartbeat]
  split
  · exact .inl rfl
  next hrole =>
    rw [not_not] at hrole
    rw [maybePromoteLearners]
    split
    · exact .inl rfl
    · split
      · exact .inl rfl
      · dsimp only
        split
        · exact .inl rfl
        next hcommit =>
          refine quiet_promoteLoop _ slow _ _ hrole ?_
          intro id hid m hcore hack hquorum
          refine hchange _ ⟨rfl, ?_, id, hid, ?_, rfl⟩
          · simp only [beginChange, Bool.and_eq_true, beq_iff_eq,
              decide_eq_true_eq]
            exact ⟨hrole, Nat.le_of_not_lt hcommit⟩
          · simp only [reachableQuorum, hcore, hack] at hquorum ⊢
            exact hquorum

theorem quiet_addMember (call : AddCall ι)
    (hchange : ∀ next, c.Proposes z next (.addMember z call) →
      R.change (c.nodes z).toNodeCore next) :
    Quiet R z c.net (c.nodes z).toNodeCore ((c.nodes z).addMember call).toNodeCore := by
  rw [addMember]
  split
  · exact .inl rfl
  next hbegin =>
    split
    · exact .inl rfl
    next hmember =>
      split
      next hquorum =>
        refine quiet_addNow _ call _ fun hbegin => hchange _ ?_
        exact ⟨rfl, hbegin, by simpa using hmember, hquorum, rfl⟩
      · exact .inl rfl

theorem quiet_resumeAdd (i : Nat)
    (hchange : ∀ next, c.Proposes z next (.resumeAdd z i) → R.change (c.nodes z).toNodeCore next) :
    Quiet R z c.net (c.nodes z).toNodeCore ((c.nodes z).resumeAdd i).toNodeCore := by
  rw [resumeAdd]
  split
  · exact .inl rfl
  next call hcall =>
    split
    next hquorum =>
      refine quiet_addNow _ call _ fun hbegin => hchange _ ?_
      exact ⟨rfl, call, hcall, hquorum, hbegin, rfl⟩
    · split <;> exact .inl rfl

theorem quiet_removeMember (id : ι)
    (hchange : ∀ next, c.Proposes z next (.removeMember z id) →
      R.change (c.nodes z).toNodeCore next) :
    Quiet R z c.net (c.nodes z).toNodeCore ((c.nodes z).removeMember id).toNodeCore := by
  rw [removeMember]
  split
  · exact .inl rfl
  · split
    · exact .inl rfl
    · split
      · exact .inl rfl
      · split
        · exact .inl rfl
        next hquorum =>
          refine quiet_removeNow _ id _ fun hbegin hmember => hchange _ ?_
          refine ⟨rfl, hbegin, hmember, fun hvoter => ?_, rfl⟩
          by_contra hreach
          exact hquorum ⟨hvoter, by simpa using hreach⟩

theorem quiet_resumeRemove (i : Nat)
    (hchange : ∀ next, c.Proposes z next (.resumeRemove z i) →
      R.change (c.nodes z).toNodeCore next) :
    Quiet R z c.net (c.nodes z).toNodeCore ((c.nodes z).resumeRemove i).toNodeCore := by
  rw [resumeRemove]
  split
  · exact .inl rfl
  next id hcall =>
    split
    next hquorum =>
      refine quiet_removeNow _ id _ fun hbegin hmember => hchange _ ?_
      exact ⟨rfl, id, hcall, hquorum, hbegin, hmember, rfl⟩
    · split <;> exact .inl rfl

/-- Every action is a sequence of elementary steps. -/
theorem exec_steps (c : Cluster ι κ) {a : Action ι κ} (hwipe : R.unwiped → noWipe a = true)
    (hsafe : R.safe → c.termsSaved a = true ∧ c.campaignsSafe a = true)
    (hchange : ∀ z next, c.Proposes z next a → R.change (c.nodes z).toNodeCore next)
    {c' : Cluster ι κ} (h : c.exec a = some c') : CoreSteps R c.cores c'.cores := by
  cases a with
  | deliver i o o' o'' round =>
    obtain ⟨msg, hmsg, rfl⟩ := Option.map_eq_some_iff.1 h
    have hmem : msg ∈ c.net := mem_of_getElem? hmsg
    refine steps_deliver hmem ?_ ?_ o o' o'' round
    · rintro dest req rfl hs
      simpa [termsSaved, hmsg] using (hsafe hs).1
    · rintro dest req rfl hs
      simpa [termsSaved, hmsg] using (hsafe hs).1
  | appendError =>
    simp only [exec] at h
    split at h
    · exact steps_some h (steps_put_same (toNodeCore_onAppendError _ _))
    · cases h
  | preVote =>
    exact steps_unless h steps_preVote
  | preVoteDone =>
    exact steps_some h (steps_put_same (toNodeCore_preVoteDone _ _))
  | startElection z round o =>
    exact steps_some h (steps_startElection round o)
  | replicate z uid =>
    exact steps_unless h (steps_replicate uid)
  | sendSnapshot z uid legacy =>
    refine steps_unless h ?_
    rw [sendSnapshot]
    split
    next hsnap =>
      split
      · exact steps_put_same rfl
      next hguard =>
        simp only [not_or, not_not] at hguard
        rw [← hguard.2.1]
        exact steps_put (.sendSnapshot _ _ uid legacy hguard.1 hsnap)
    · exact steps_put_same rfl
  | endTransfer =>
    exact steps_some h (steps_put_same (toNodeCore_endTransfer _ _))
  | heartbeat z slow =>
    exact steps_unless h (steps_put_quiet (quiet_heartbeat slow (hchange z)))
  | submit z batch =>
    exact steps_unless h (steps_put_quiet (quiet_flushBatch _ batch _))
  | submitTimeout | giveUpAdd | giveUpRemove | timePasses =>
    exact steps_some h (steps_put_same rfl)
  | syncCapture =>
    simp only [exec] at h
    split at h
    next hsync =>
      exact steps_some h (steps_put (.syncCapture hsync))
    · cases h
  | syncWrite z o =>
    simp only [exec] at h
    split at h
    next hsync =>
      exact steps_some h (steps_put (.syncWrite _ _ o hsync))
    · cases h
  | syncFsync z ok =>
    simp only [exec] at h
    split at h
    next hsync =>
      exact steps_some h (steps_put (.syncFsync _ _ _ _ ok hsync))
    · cases h
  | syncFinish z =>
    simp only [exec] at h
    split at h
    next idx term result hsync =>
      obtain rfl := Option.some.inj h
      obtain ⟨hcore, hout⟩ := (c.nodes z).toNodeCore_syncFinish idx term result
      refine steps_put ?_
      rw [hcore, hout]
      refine .syncFinish idx term result hsync fun hs => ?_
      simpa [campaignsSafe, hsync] using (hsafe hs).2
    · cases h
  | gather =>
    exact steps_some h (steps_put .gather)
  | applySome =>
    exact steps_some h (steps_put .applySome)
  | finishApplied =>
    refine steps_some h (steps_put ?_)
    rw [toNodeCore_finishApplied]
    exact .finishApplied
  | captureFence z snapshotID =>
    exact steps_some h (steps_put (.captureFence snapshotID))
  | captureInstall z o =>
    exact steps_some h (steps_put (.captureInstall o))
  | captureCompact z o =>
    exact steps_some h (steps_put (.captureCompact o))
  | installBegin z valid =>
    exact steps_some h (steps_put (.installBegin valid))
  | installRename z o =>
    exact steps_some h (steps_put (.installRename o))
  | installLog z o =>
    refine steps_some h (steps_put ?_)
    simp only [installLog, toNodeCore_syncReplicators]
    exact .installLog o
  | installRestored =>
    exact steps_some h (steps_put .installRestored)
  | readIndex =>
    exact steps_some h (steps_readIndex _)
  | confirmRead =>
    exact steps_some h (steps_put_same (toNodeCore_confirmRead _ _))
  | returnRead =>
    exact steps_some h (steps_put_same (toNodeCore_returnRead _ _))
  | addMember z call =>
    exact steps_some h (steps_put_quiet (quiet_addMember call (hchange z)))
  | resumeAdd z i =>
    exact steps_some h (steps_put_quiet (quiet_resumeAdd i (hchange z)))
  | removeMember z id =>
    exact steps_some h (steps_put_quiet (quiet_removeMember id (hchange z)))
  | resumeRemove z i =>
    exact steps_some h (steps_put_quiet (quiet_resumeRemove i (hchange z)))
  | stop =>
    exact steps_some h (steps_put .stop)
  | closeStore =>
    simp only [exec] at h
    split at h
    next hstopped =>
      exact steps_some h (steps_put (.closeStore hstopped))
    · cases h
  | restart z f applied o rw =>
    simp only [exec] at h
    split at h
    next hguard =>
      simp only [restart, Option.map_map, Option.map_eq_some_iff] at h
      obtain ⟨n, hn, rfl⟩ := h
      exact steps_put (.restart f applied o rw hguard hn)
    · cases h
  | wipe =>
    exact steps_some h (steps_put (.wipe fun hs => absurd (hwipe hs) Bool.false_ne_true))

/-- What a run assumes, as rules of its elementary steps. -/
def Obeys (R : Rules ι κ) (c : Cluster ι κ) (a : Action ι κ) : Prop :=
  (R.unwiped → noWipe a = true) ∧
    (R.safe → c.termsSaved a = true ∧ c.campaignsSafe a = true) ∧
    ∀ z next, c.Proposes z next a → R.change (c.nodes z).toNodeCore next

/-- An invariant of the elementary steps holds of every cluster reached by a run
that obeys their rules. -/
theorem Reachable.steps_induct {opts : ι → RaftNode.Options ι}
    {P : Cluster ι κ → Action ι κ → Prop} {Inv : Cores ι κ → Prop}
    (hP : ∀ c a, P c a → Obeys R c a) (hinit : Inv (Cluster.init opts).cores)
    (hstep : ∀ s z n out, Inv s → NodeStep R z s.net (s.nodes z) n out → Inv (s.put z n out))
    {c : Cluster ι κ} (h : Reachable opts P c) : Inv c.cores := by
  have hsteps : ∀ s s', CoreSteps R s s' → Inv s → Inv s' := by
    intro s s' h hs
    induction h with
    | refl => exact hs
    | tail _ hlast ih =>
      obtain ⟨z, n, out, hnode, rfl⟩ := hlast
      exact hstep _ z n out ih hnode
  refine @Reachable.induct _ _ _ _ _ _ (fun c => Inv c.cores) hinit ?_ _ h
  intro c c' a hc hPa hexec
  exact hsteps _ _ (c.exec_steps (hP c a hPa).1 (hP c a hPa).2.1 (hP c a hPa).2.2 hexec) hc

end Cluster

end

end VeltrixDB.Consensus
