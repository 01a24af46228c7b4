import VeltrixDB.Consensus.ConfigFlow
import VeltrixDB.Consensus.Voting

/-!
# Configuration changes

Every change of the membership appends one configuration that differs from the
one it replaces in the role of one server.  The preconditions are checked before
a call waits for a reachable quorum, and AddMember repeats only some of them
afterwards.

Main results:

- Definition `Configuration.WellFormed`.
- Theorem `Cluster.Reachable.proposed_wellFormed`: as long as a resumed AddMember
  finds its server absent, every appended configuration is well formed and
  changes one role.
- Theorem `Cluster.add_twice_duplicates`: without that, a server is added
  twice.
-/

namespace VeltrixDB.Consensus

open List

/-! ## Well-formed configurations -/

inductive MemberRole where
  | outsider
  | learner
  | voter
deriving DecidableEq, Repr

namespace Configuration

variable {ι : Type} [DecidableEq ι] (c : Configuration ι)

def roleOf (id : ι) : MemberRole :=
  if c.contains id then .voter else if c.isLearner id then .learner else .outsider

/-- No server is listed twice, and there is a voter. -/
structure WellFormed (c : Configuration ι) : Prop where
  servers : c.servers.Nodup
  learners : c.learners.Nodup
  disjoint : ∀ id ∈ c.servers, id ∉ c.learners
  voter : c.servers ≠ []

/-- Exactly one server has another role in `c'` than in `c`. -/
def ChangesOneRole (c c' : Configuration ι) : Prop :=
  ∃ id, ∀ s, c.roleOf s ≠ c'.roleOf s ↔ s = id

instance instDecidableWellFormed : Decidable c.WellFormed :=
  decidable_of_iff (c.servers.Nodup ∧ c.learners.Nodup ∧ (∀ id ∈ c.servers, id ∉ c.learners) ∧
      c.servers ≠ [])
    ⟨fun h => ⟨h.1, h.2.1, h.2.2.1, h.2.2.2⟩,
      fun h => ⟨h.servers, h.learners, h.disjoint, h.voter⟩⟩

def WellFormedOrEmpty : Prop :=
  c.WellFormed ∨ (c.servers = [] ∧ c.learners = [])

theorem roleOf_eq (id : ι) : c.roleOf id =
      if id ∈ c.servers then .voter else if id ∈ c.learners then .learner else .outsider := by
  simp only [roleOf, contains_iff, isLearner_iff]

/-! ## The three changes -/

theorem foldl_known_members (known : List (ι × String)) :
    (known.foldl (fun c p => if c.isMember p.1 ∧ c.addr p.1 = "" ∧ p.2 ≠ "" then
        c.setAddr p.1 p.2 else c) c).servers = c.servers ∧
      (known.foldl (fun c p => if c.isMember p.1 ∧ c.addr p.1 = "" ∧ p.2 ≠ "" then
        c.setAddr p.1 p.2 else c) c).learners = c.learners := by
  induction known generalizing c with
  | nil => exact ⟨rfl, rfl⟩
  | cons p ps ih =>
    rw [foldl_cons]
    split
    · exact ih (c.setAddr p.1 p.2)
    · exact ih c

theorem addLearner_members (call : AddCall ι) : (c.addLearner call).servers = c.servers ∧
      (c.addLearner call).learners = c.learners ++ [call.member] := by
  have h := foldl_known_members { c with learners := c.learners ++ [call.member] } call.known
  simp only [addLearner]
  split <;> exact h

theorem mem_removeID {ids : List ι} {id s : ι} : s ∈ removeID ids id ↔ s ∈ ids ∧ s ≠ id := by
  simp [removeID]

omit [DecidableEq ι] in
/-- A majority of no voters cannot be reached. -/
theorem servers_ne_nil {c : Configuration ι} {p : ι → Prop} [DecidablePred p]
    (h : c.quorumSize ≤ (c.servers.filter (fun s => p s)).length) : c.servers ≠ [] := by
  intro hnil
  rw [quorumSize, hnil] at h
  simp at h

namespace WellFormed

variable {c : Configuration ι}

theorem addLearner (h : c.WellFormed) {call : AddCall ι} (hnew : c.isMember call.member = false) :
    (c.addLearner call).WellFormed ∧ c.ChangesOneRole (c.addLearner call) := by
  have hnew' : ¬(call.member ∈ c.servers ∨ call.member ∈ c.learners) := by
    rw [← isMember_iff, hnew]
    simp
  rw [not_or] at hnew'
  obtain ⟨hserv, hlearn⟩ := c.addLearner_members call
  refine ⟨⟨?_, ?_, ?_, ?_⟩, call.member, fun s => ?_⟩
  · rw [hserv]
    exact h.servers
  · rw [hlearn, nodup_append]
    refine ⟨h.learners, by simp, ?_⟩
    intro a ha b hb
    rw [mem_singleton.1 hb]
    rintro rfl
    exact hnew'.2 ha
  · intro id hid
    rw [hserv] at hid
    rw [hlearn, mem_append, mem_singleton, not_or]
    refine ⟨h.disjoint id hid, ?_⟩
    rintro rfl
    exact hnew'.1 hid
  · rw [hserv]
    exact h.voter
  · rw [roleOf_eq, roleOf_eq, hserv, hlearn]
    by_cases hs : s = call.member
    · simp [hs, hnew'.1, hnew'.2]
    · simp [hs]

theorem remove (h : c.WellFormed) {id : ι} (hmember : c.isMember id = true)
    (hvoter : (c.remove id).servers ≠ []) :
    (c.remove id).WellFormed ∧ c.ChangesOneRole (c.remove id) := by
  rw [isMember_iff] at hmember
  refine ⟨⟨h.servers.filter _, h.learners.filter _, ?_, hvoter⟩, id, fun s => ?_⟩
  · intro s hs hs'
    exact h.disjoint s (mem_removeID.1 hs).1 (mem_removeID.1 hs').1
  · rw [roleOf_eq, roleOf_eq]
    simp only [Configuration.remove, mem_removeID]
    by_cases hs : s = id
    · subst hs
      rcases hmember with hm | hm
      · simp [hm]
      · by_cases hv : s ∈ c.servers <;> simp [hm, hv]
    · simp [hs]

theorem promote (h : c.WellFormed) {id : ι} (hlearner : id ∈ c.learners) :
    (c.promote id).WellFormed ∧ c.ChangesOneRole (c.promote id) := by
  have hnot : id ∉ c.servers := fun hid => h.disjoint id hid hlearner
  refine ⟨⟨?_, h.learners.filter _, ?_, ?_⟩, id, fun s => ?_⟩
  · change (c.servers ++ [id]).Nodup
    rw [nodup_append]
    refine ⟨h.servers, by simp, ?_⟩
    intro a ha b hb
    rw [mem_singleton.1 hb]
    rintro rfl
    exact hnot ha
  · intro s hs hs'
    obtain ⟨hs', hne⟩ := mem_removeID.1 hs'
    rcases mem_append.1 hs with hs | hs
    · exact h.disjoint s hs hs'
    · exact hne (mem_singleton.1 hs)
  · simp [Configuration.promote]
  · rw [roleOf_eq, roleOf_eq]
    simp only [Configuration.promote, mem_removeID]
    by_cases hs : s = id
    · simp [hs, hnot, hlearner]
    · simp [hs]

end WellFormed

end Configuration

/-! ## Runs -/

namespace Cluster

open VeltrixDB.Consensus.Configuration

variable {ι κ : Type} [DecidableEq ι]

/-- A resumed AddMember finds that its server is still no member. -/
def addsFresh (c : Cluster ι κ) : Action ι κ → Bool
  | .resumeAdd z i =>
    ((c.nodes z).adds[i]?).all fun call => !(c.nodes z).config.isMember call.member
  | _ => true

def soundChange (ι κ : Type) [DecidableEq ι] : Rules ι κ where
  unwiped := False
  safe := False
  change n next :=
    n.config.WellFormedOrEmpty → next.WellFormed ∧ n.config.ChangesOneRole next

theorem soundChange_proposes {c : Cluster ι κ} {z : ι} {next : Configuration ι} {a : Action ι κ}
    (hfresh : c.addsFresh a = true) (h : c.Proposes z next a) :
    (soundChange ι κ).change (c.nodes z).toNodeCore next := by
  intro hwf
  cases a with
  | addMember =>
    obtain ⟨rfl, -, hnew, hquorum, rfl⟩ := h
    have hquorum := servers_ne_nil (of_decide_eq_true hquorum)
    exact (hwf.resolve_right fun h => hquorum h.1).addLearner hnew
  | resumeAdd =>
    obtain ⟨rfl, call, hcall, hquorum, -, rfl⟩ := h
    have hquorum := servers_ne_nil (of_decide_eq_true hquorum)
    simp only [addsFresh, hcall, Option.all_some, Bool.not_eq_true'] at hfresh
    exact (hwf.resolve_right fun h => hquorum h.1).addLearner hfresh
  | removeMember z' id =>
    obtain ⟨rfl, -, hmember, hquorum, rfl⟩ := h
    rcases hwf with hwf | ⟨hserv, hlearn⟩
    · refine hwf.remove hmember ?_
      by_cases hvoter : (c.nodes z').config.contains id = true
      · exact servers_ne_nil (of_decide_eq_true (hquorum hvoter))
      · obtain ⟨s, hs⟩ := exists_mem_of_ne_nil _ hwf.voter
        refine ne_nil_of_mem (mem_removeID.2 ⟨hs, ?_⟩)
        rintro rfl
        exact hvoter ((contains_iff _ _).2 hs)
    · rw [isMember_iff, hserv, hlearn] at hmember
      simp at hmember
  | resumeRemove =>
    obtain ⟨rfl, id, -, hquorum, -, hmember, rfl⟩ := h
    have hvoter := servers_ne_nil (of_decide_eq_true hquorum)
    rcases hwf with hwf | ⟨hserv, hlearn⟩
    · exact hwf.remove hmember hvoter
    · rw [isMember_iff, hserv, hlearn] at hmember
      simp at hmember
  | heartbeat =>
    obtain ⟨rfl, -, id, hlearner, -, rfl⟩ := h
    rcases hwf with hwf | ⟨-, hlearn⟩
    · exact hwf.promote hlearner
    · rw [hlearn] at hlearner
      simp at hlearner
  | _ => exact h.elim

theorem proposed_votingSteps {R : Rules ι κ} {z : ι} {net : List (Message ι κ)}
    {n : NodeCore ι κ} {v v' : Voting ι} {Q : Configuration ι × Configuration ι → Prop}
    (h : VotingSteps R z net n v v') (hQ : ∀ p ∈ v.proposed, Q p)
    (hchange : ∀ next, R.change n next → Q (n.config, next)) : ∀ p ∈ v'.proposed, Q p := by
  induction h with
  | refl => exact hQ
  | tail _ hstep ih =>
    have hsaves : ∀ {w w' : Voting ι} {ok : Bool}, Saves w w' ok → w'.proposed = w.proposed := by
      intro w w' ok hsave
      rw [hsave.eq]
    cases hstep with
    | propose next hnext =>
      intro p hp
      rcases mem_cons.1 hp with rfl | hp
      · exact hchange next hnext
      · exact ih p hp
    | save hsave | follow _ _ hsave | abandon hsave | raise _ _ hsave => rwa [hsaves hsave]
    | grant _ _ _ _ _ _ _ hsave | rollBack _ _ hsave | campaign _ hsave =>
      have := hsaves hsave
      simpa [this] using ih
    | _ => exact ih

variable [CommandCodec ι κ]

structure SoundConfigs (s : Cores ι κ) : Prop where
  configs : ∀ z, (s.nodes z).configParts.All Configuration.WellFormedOrEmpty
  net : ∀ msg ∈ s.net, msg.ConfigsOK Configuration.WellFormedOrEmpty
  proposed : ∀ z, ∀ p ∈ (s.nodes z).proposed, p.2.WellFormed ∧ p.1.ChangesOneRole p.2

theorem SoundConfigs.step {s : Cores ι κ} {z : ι} {n : NodeCore ι κ} {out : List (Message ι κ)}
    (hs : SoundConfigs s) (h : NodeStep (soundChange ι κ) z s.net (s.nodes z) n out) :
    SoundConfigs (s.put z n out) := by
  have hempty : (empty : Configuration ι).WellFormedOrEmpty := .inr ⟨rfl, rfl⟩
  obtain ⟨hparts, hout⟩ := h.configs (hs.configs z) hs.net
    (fun next hchange hconfig => .inl (hchange hconfig).1) (.inr hempty)
  have hproposed : ∀ p ∈ n.proposed, p.2.WellFormed ∧ p.1.ChangesOneRole p.2 :=
    proposed_votingSteps h.voting.1 (hs.proposed z) fun next hchange =>
      hchange (hs.configs z).config
  exact ⟨Cores.forall_put (A := fun _ n => n.configParts.All _) hs.configs hparts,
    Cores.forall_mem_put hs.net hout,
    Cores.forall_put (A := fun _ n => ∀ p ∈ n.proposed, p.2.WellFormed ∧ p.1.ChangesOneRole p.2)
      hs.proposed hproposed⟩

theorem SoundConfigs.init {opts : ι → RaftNode.Options ι}
    (hboot : ∀ z, (opts z).boot.WellFormedOrEmpty) :
    SoundConfigs (Cluster.init opts : Cluster ι κ).cores := by
  exact ⟨fun z => NodeCore.All.freshCore z _ _ (hboot z), by rintro _ ⟨⟩, by rintro _ _ ⟨⟩⟩

/-- In every run in which a resumed AddMember finds its server absent, every
appended configuration is well formed and changes exactly one role.  Data
directories may be wiped, and any other fault may happen. -/
theorem Reachable.proposed_wellFormed {opts : ι → RaftNode.Options ι}
    (hboot : ∀ z, (opts z).boot.WellFormedOrEmpty) {c : Cluster ι κ}
    (h : Reachable opts (fun c a => c.addsFresh a) c) :
    ∀ z, ∀ p ∈ (c.nodes z).proposed, p.2.WellFormed ∧ p.1.ChangesOneRole p.2 := by
  refine (h.steps_induct (R := soundChange ι κ) ?_ (SoundConfigs.init hboot) ?_).proposed
  · exact fun c a hfresh => ⟨False.elim, False.elim, fun z next => soundChange_proposes hfresh⟩
  · exact fun s z n out hs hstep => hs.step hstep

/-! ## Adding a server twice -/

def twoVoters (z : Fin 3) : RaftNode.Options (Fin 3) where
  boot := if z = 2 then .empty else { servers := [0, 1], learners := [], addrs := [] }
  pipelineWindow := 8
  batchSM := false
  appliedSM := false

/-- Server 0 is elected, two AddMember calls for server 2 wait for the first
acknowledgement, and the first of them is resumed and commits. -/
def addOnce : List (Action (Fin 3) (Payload (Fin 3))) :=
  [.preVote 0, recv 0, recv 1, .preVoteDone 0 0, .startElection 0 0 .done, recv 2, recv 3,
    .addMember 0 ⟨2, "", []⟩, .addMember 0 ⟨2, "", []⟩, .replicate 0 0, recv 4] ++
  syncAll 1 ++ [recv 5, .resumeAdd 0 0, .replicate 0 0, recv 6] ++ syncAll 0 ++ syncAll 1 ++
  [recv 7]

theorem twoVoters_wellFormed (z : Fin 3) : (twoVoters z).boot.WellFormedOrEmpty := by
  by_cases hz : z = 2
  · exact .inr (by simp [twoVoters, hz, empty])
  · refine .inl ?_
    simp only [twoVoters, hz]
    decide

/-- The hypotheses are met by a run that adds a server after a wait. -/
theorem proposed_wellFormed_addOnce :
    ∃ c : Cluster (Fin 3) (Payload (Fin 3)), (c.nodes 0).proposed.length = 1 ∧
      ∀ z, ∀ p ∈ (c.nodes z).proposed, p.2.WellFormed ∧ p.1.ChangesOneRole p.2 := by
  have hrun : ∃ c : Cluster (Fin 3) (Payload (Fin 3)),
      Reachable twoVoters (fun c a => c.addsFresh a) c ∧ (c.nodes 0).proposed.length = 1 :=
    exists_reachable addOnce _ (by decide)
  obtain ⟨c, hreach, hlen⟩ := hrun
  exact ⟨c, hlen, hreach.proposed_wellFormed twoVoters_wellFormed⟩

/-- The second AddMember call is resumed too: it appends a configuration that lists
its server twice and changes no role. -/
theorem add_twice_duplicates :
    (∀ z, (twoVoters z).boot.WellFormedOrEmpty) ∧
      ∃ c : Cluster (Fin 3) (Payload (Fin 3)), Reachable twoVoters AnyStep c ∧
        ∃ p ∈ (c.nodes 0).proposed, ¬p.2.WellFormed ∧ ∀ s, p.1.roleOf s = p.2.roleOf s := by
  refine ⟨twoVoters_wellFormed, ?_⟩
  have hrun : ∃ c : Cluster (Fin 3) (Payload (Fin 3)), Reachable twoVoters AnyStep c ∧
      ({ servers := [0, 1], learners := [2], addrs := [] },
        { servers := [0, 1], learners := [2, 2], addrs := [] }) ∈ (c.nodes 0).proposed :=
    exists_reachable (addOnce ++ [.resumeAdd 0 0]) _ (by decide)
  obtain ⟨c, hreach, hmem⟩ := hrun
  exact ⟨c, hreach, _, hmem, by decide, by decide⟩

end Cluster

end VeltrixDB.Consensus
