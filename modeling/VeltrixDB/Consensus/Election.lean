import VeltrixDB.Consensus.ConfigChange
import Mathlib.Data.Finset.Card

/-!
# Elections

A node has one vote a term, whatever happens to the writes of its meta file and
whenever it crashes, and a leader was voted for by a majority of the voters it
campaigned among.

Main results:

- Definition `Voting.OneVote`: the invariant of term and vote in memory, in the
  store's cache and on disk.
- Definition `Elections`: what the votes of a cluster add up to.
- Theorem `Elections.step`: elementary steps keep both.
- Theorem `Cluster.Reachable.election_safety`: with a fixed voter set there is one
  leader a term.
-/

namespace VeltrixDB.Consensus

open Function List

variable {ι κ : Type}

/-! ## One vote a term -/

/-- Votes that were granted are on disk, or belong to an older term than the disk
has, and nothing contradicts them. -/
structure Voting.OneVote (v : Voting ι) : Prop where
  file_le : v.metaFile.currentTerm ≤ v.currentTerm
  saved_le : v.savedMeta.currentTerm ≤ v.currentTerm
  saved : v.savedMeta.currentTerm = v.currentTerm → ∀ c, v.savedMeta.votedFor = some c →
    v.votedFor = some c ∧ v.metaFile = v.savedMeta
  granted_le : ∀ t c, (t, c) ∈ v.granted → t ≤ v.metaFile.currentTerm
  granted_file : ∀ c, (v.metaFile.currentTerm, c) ∈ v.granted → v.metaFile.votedFor = some c
  granted_now : ∀ c, (v.currentTerm, c) ∈ v.granted → v.votedFor = some c
  unique : ∀ t c c', (t, c) ∈ v.granted → (t, c') ∈ v.granted → c = c'

namespace Voting.OneVote

variable {v v' : Voting ι} {ok : Bool} {c : ι}

section

variable (h : v.OneVote)
include h

/-- The invariant does not look at role, tally and history of leadership. -/
theorem congr (hterm : v'.currentTerm = v.currentTerm) (hvote : v'.votedFor = v.votedFor)
    (hsaved : v'.savedMeta = v.savedMeta) (hfile : v'.metaFile = v.metaFile)
    (hgranted : v'.granted = v.granted) : v'.OneVote := by
  constructor
  all_goals simp only [hterm, hvote, hsaved, hfile, hgranted]
  · exact h.file_le
  · exact h.saved_le
  · exact h.saved
  · exact h.granted_le
  · exact h.granted_file
  · exact h.granted_now
  · exact h.unique

theorem ballot_eq_saved (hterm : v.savedMeta.currentTerm = v.currentTerm)
    (hc : v.savedMeta.votedFor = some c) : v.ballot = v.savedMeta := by
  have hvote := (h.saved hterm c hc).1
  rw [ballot, hvote, ← hc, ← hterm]

theorem granted_le_now {t : Nat} (hmem : (t, c) ∈ v.granted) : t ≤ v.currentTerm :=
  (h.granted_le t c hmem).trans h.file_le

theorem saves (hsave : Saves v v' ok) : v'.OneVote := by
  cases hsave with
  | failed | known => exact h
  | written =>
    exact ⟨Nat.le_refl _, Nat.le_refl _, fun _ c hc => ⟨hc, rfl⟩,
      fun t c hmem => h.granted_le_now hmem, h.granted_now, h.granted_now, h.unique⟩
  | replaced =>
    refine ⟨Nat.le_refl _, h.saved_le, fun hterm c hc => ⟨(h.saved hterm c hc).1, ?_⟩,
      fun t c hmem => h.granted_le_now hmem, h.granted_now, h.granted_now, h.unique⟩
    exact h.ballot_eq_saved hterm hc

/-- A vote that was persisted is in the meta file. -/
theorem file_eq (hvote : v.votedFor = some c) (hsave : Saves v v' true) :
    v'.metaFile = v'.ballot := by
  cases hsave with
  | known hknown =>
    have hc : v.savedMeta.votedFor = some c := by rw [hknown]; exact hvote
    rw [(h.saved (by rw [hknown]; rfl) c hc).2, hknown]
  | written => rfl

theorem newer {term : Nat} (hterm : v.currentTerm < term) (vote : Option ι) :
    ({ v with currentTerm := term, votedFor := vote } : Voting ι).OneVote := by
  refine ⟨h.file_le.trans (Nat.le_of_lt hterm), h.saved_le.trans (Nat.le_of_lt hterm), ?_,
    h.granted_le, h.granted_file, ?_, h.unique⟩
  · intro heq
    have := h.saved_le
    change v.savedMeta.currentTerm = term at heq
    omega
  · intro c hmem
    have := h.granted_le_now hmem
    change term ≤ v.currentTerm at this
    omega

/-- A vote in a term without a different vote. -/
theorem choose (hfree : v.votedFor = none ∨ v.votedFor = some c) :
    ({ v with votedFor := some c } : Voting ι).OneVote := by
  have hsame : ∀ d, v.votedFor = some d → some c = some d := by
    intro d hd
    rcases hfree with hfree | hfree
    · rw [hfree] at hd
      cases hd
    · rw [← hfree, hd]
  refine { h with
      saved := fun hterm d hd => ?_
      granted_now := fun d hmem => hsame d (h.granted_now d hmem) }
  obtain ⟨hvote, hfile⟩ := h.saved hterm d hd
  exact ⟨hsame d hvote, hfile⟩

theorem record {t : Nat} (hterm : v.currentTerm = t) (hvote : v.votedFor = some c)
    (hfile : v.metaFile = v.ballot) :
    ({ v with granted := (t, c) :: v.granted } : Voting ι).OneVote := by
  subst hterm
  have hnow : ∀ d, (v.currentTerm, d) ∈ (v.currentTerm, c) :: v.granted → d = c := by
    intro d hmem
    rcases mem_cons.1 hmem with heq | hmem
    · exact congrArg Prod.snd heq
    · exact Option.some.inj ((h.granted_now d hmem).symm.trans hvote)
  refine ⟨h.file_le, h.saved_le, h.saved, ?_, ?_, ?_, ?_⟩
  · intro t d hmem
    rcases mem_cons.1 hmem with heq | hmem
    · rw [Prod.mk.injEq] at heq
      rw [heq.1, hfile]
      exact Nat.le_refl _
    · exact h.granted_le t d hmem
  · intro d hmem
    rw [hfile] at hmem ⊢
    rw [hnow d hmem]
    exact hvote
  · intro d hmem
    rw [hnow d hmem]
    exact hvote
  · intro t d d' hmem hmem'
    rcases mem_cons.1 hmem with heq | hold
    · rw [Prod.mk.injEq] at heq
      rw [heq.1] at hmem'
      rw [heq.2, hnow d' hmem']
    · rcases mem_cons.1 hmem' with heq | hold'
      · rw [Prod.mk.injEq] at heq
        rw [heq.1] at hold
        rw [heq.2, hnow d (mem_cons_of_mem _ hold)]
      · exact h.unique t d d' hold hold'

end

variable [DecidableEq ι] {R : Rules ι κ} {z : ι} {net : List (Message ι κ)} {n : NodeCore ι κ}

theorem step (h : v.OneVote) (hstep : VotingStep R z net n v v') (hkept : R.unwiped) :
    v'.OneVote := by
  cases hstep with
  | demote | count | lead | propose => exact h.congr rfl rfl rfl rfl rfl
  | save hsave => exact h.saves hsave
  | follow term hterm hsave =>
    have hnew := h.newer hterm none
    refine saves ?_ hsave
    exact hnew.congr rfl rfl rfl rfl rfl
  | grant candidate _ _ _ _ _ hfree hsave =>
    have hnew := h.choose hfree
    have hfile := hnew.file_eq rfl hsave
    refine (hnew.saves hsave).record ?_ ?_ hfile
    · rw [hsave.eq]
    · rw [hsave.eq]
  | rollBack candidate hfree hsave =>
    have hnew := (h.choose hfree).saves hsave
    cases hsave with
    | failed => exact h.congr rfl rfl rfl rfl rfl
    | replaced =>
      exact { hnew with
          saved := fun hterm c hc => ⟨(h.saved hterm c hc).1, (hnew.saved hterm c hc).2⟩
          granted_now := h.granted_now }
  | campaign hvoter hsave =>
    have hnew := h.newer (Nat.lt_succ_self v.currentTerm) (some v.id)
    have hfile := hnew.file_eq rfl hsave
    have hrec := (hnew.saves hsave).record (t := v.currentTerm + 1) (c := v.id) ?_ ?_ hfile
    · exact hrec.congr rfl rfl rfl rfl rfl
    · rw [hsave.eq]
    · rw [hsave.eq]
  | abandon hsave => exact (h.newer (Nat.lt_succ_self _) (some v.id)).saves hsave
  | load =>
    exact ⟨Nat.le_refl _, Nat.le_refl _, fun _ c hc => ⟨hc, rfl⟩, h.granted_le, h.granted_file,
      h.granted_file, h.unique⟩
  | raise term hterm hsave => exact (h.newer hterm none).saves hsave
  | wipe hwiped => exact absurd hkept hwiped

end Voting.OneVote

variable [DecidableEq ι] {n : NodeCore ι κ}

theorem VotingStep.grows {R : Rules ι κ} {z : ι} {net : List (Message ι κ)} {v v' : Voting ι}
    (h : VotingStep R z net n v v') : v'.id = v.id ∧ ∀ p ∈ v.granted, p ∈ v'.granted := by
  cases h with
  | save hsave | follow _ _ hsave | rollBack _ _ hsave | abandon hsave | raise _ _ hsave =>
    rw [hsave.eq]; exact ⟨rfl, fun _ hp => hp⟩
  | grant _ _ _ _ _ _ _ hsave | campaign _ hsave =>
    rw [hsave.eq]; exact ⟨rfl, fun _ hp => mem_cons_of_mem _ hp⟩
  | _ => exact ⟨rfl, fun _ hp => hp⟩

theorem VotingSteps.grows {R : Rules ι κ} {z : ι} {net : List (Message ι κ)} {v v' : Voting ι}
    (h : VotingSteps R z net n v v') : v'.id = v.id ∧ ∀ p ∈ v.granted, p ∈ v'.granted := by
  induction h with
  | refl => exact ⟨rfl, fun _ hp => hp⟩
  | tail _ hstep ih =>
    exact ⟨hstep.grows.1.trans ih.1, fun p hp => hstep.grows.2 p (ih.2 p hp)⟩

/-! ## Votes of a cluster -/

/-- The counted and the outstanding votes of a candidate are those of different
voters among whom it campaigns. -/
structure Tally (E : Finset ι) (votes awaiting : List ι) (needed : Nat) : Prop where
  needed : needed = E.card / 2 + 1
  nodup : (votes ++ awaiting).Nodup
  subset : ∀ y ∈ votes ++ awaiting, y ∈ E

/-- What the votes of a cluster add up to, where `elect z t` are the voters
among whom `z` campaigns in term `t`. -/
structure Elections (elect : ι → Nat → Finset ι) (vs : ι → Voting ι) (net : List (Message ι κ)) :
    Prop where
  id : ∀ z, (vs z).id = z
  oneVote : ∀ z, (vs z).OneVote
  tally : ∀ z, (vs z).role = .candidate → ((vs z).currentTerm, z) ∈ (vs z).granted →
    Tally (elect z (vs z).currentTerm) (vs z).votes (vs z).awaiting (vs z).needed ∧
      ∀ y ∈ (vs z).votes, ((vs z).currentTerm, z) ∈ (vs y).granted
  led : ∀ z, ∀ t ∈ (vs z).led, (t, z) ∈ (vs z).granted ∧
    ∃ Q ⊆ elect z t, (elect z t).card < 2 * Q.card ∧ ∀ y ∈ Q, (t, z) ∈ (vs y).granted
  request : ∀ dest args, .requestVote dest args ∈ net → args.preVote = false →
    (args.term, args.candidateID) ∈ (vs args.candidateID).granted
  reply : ∀ source args reply, .voteReply source args reply ∈ net → args.preVote = false →
    (args.term, args.candidateID) ∈ (vs args.candidateID).granted ∧
      (reply.voteGranted = true → (args.term, args.candidateID) ∈ (vs source).granted)

namespace Elections

variable {elect elect' : ι → Nat → Finset ι} {vs : ι → Voting ι} {net out : List (Message ι κ)}
  {z : ι} {v' : Voting ι}

/-- Replacing the record of one node: its own tally and history have to be checked,
votes of other nodes only grow. -/
theorem update (h : Elections elect vs net) (hid : v'.id = z) (hone : v'.OneVote)
    (hgrow : ∀ p ∈ (vs z).granted, p ∈ v'.granted)
    (htally : v'.role = .candidate → (v'.currentTerm, z) ∈ v'.granted →
      Tally (elect z v'.currentTerm) v'.votes v'.awaiting v'.needed ∧
        ∀ y ∈ v'.votes, y = z ∨ (v'.currentTerm, z) ∈ (vs y).granted)
    (hled : ∀ t ∈ v'.led, t ∈ (vs z).led ∨ ((t, z) ∈ (vs z).granted ∧
      ∃ Q ⊆ elect z t, (elect z t).card < 2 * Q.card ∧ ∀ y ∈ Q, (t, z) ∈ (vs y).granted)) :
    Elections elect (Function.update vs z v') net := by
  have hmono : ∀ y, ∀ p ∈ (vs y).granted, p ∈ (Function.update vs z v' y).granted := by
    intro y p hp
    by_cases hy : y = z
    · subst hy
      rw [update_self]
      exact hgrow p hp
    · rwa [update_of_ne hy]
  constructor
  case id =>
    intro y
    by_cases hy : y = z
    · rw [hy, update_self, hid]
    · rw [update_of_ne hy, h.id]
  case oneVote =>
    intro y
    by_cases hy : y = z
    · rw [hy, update_self]
      exact hone
    · rw [update_of_ne hy]
      exact h.oneVote y
  case tally =>
    intro y
    by_cases hy : y = z
    · subst hy
      rw [update_self]
      intro hrole hmem
      obtain ⟨ht, hvotes⟩ := htally hrole hmem
      refine ⟨ht, fun x hx => ?_⟩
      rcases hvotes x hx with rfl | hx
      · rwa [update_self]
      · exact hmono x _ hx
    · rw [update_of_ne hy]
      intro hrole hmem
      obtain ⟨ht, hvotes⟩ := h.tally y hrole hmem
      exact ⟨ht, fun x hx => hmono x _ (hvotes x hx)⟩
  case led =>
    intro y t ht
    have hold : (t, y) ∈ (vs y).granted ∧ ∃ Q ⊆ elect y t, (elect y t).card < 2 * Q.card ∧
        ∀ x ∈ Q, (t, y) ∈ (vs x).granted := by
      by_cases hy : y = z
      · subst hy
        rw [update_self] at ht
        rcases hled t ht with ht | ht
        · exact h.led y t ht
        · exact ht
      · rw [update_of_ne hy] at ht
        exact h.led y t ht
    obtain ⟨hmem, Q, hsub, hcard, hQ⟩ := hold
    exact ⟨hmono y _ hmem, Q, hsub, hcard, fun x hx => hmono x _ (hQ x hx)⟩
  case request => exact fun dest args hmsg hpre => hmono _ _ (h.request dest args hmsg hpre)
  case reply =>
    intro source args reply hmsg hpre
    obtain ⟨hcand, hvote⟩ := h.reply source args reply hmsg hpre
    exact ⟨hmono _ _ hcand, fun hg => hmono _ _ (hvote hg)⟩

variable {R : Rules ι κ} {n : NodeCore ι κ}

theorem votingStep (h : Elections elect vs net) (hstep : VotingStep R z net n (vs z) v')
    (hkept : R.unwiped) (hnodup : n.config.servers.Nodup)
    (helect : z ∈ n.config.servers → ∀ t, (t, z) ∈ v'.granted → (t, z) ∉ (vs z).granted →
      elect z t = n.config.servers.toFinset) :
    Elections elect (Function.update vs z v') net := by
  have hid : v'.id = z := hstep.grows.1.trans (h.id z)
  have hone := (h.oneVote z).step hstep hkept
  have hstale : ∀ t, (vs z).currentTerm < t → (t, z) ∉ (vs z).granted := fun t ht hmem =>
    absurd ((h.oneVote z).granted_le_now hmem) (Nat.not_le_of_lt ht)
  have hkeep : (vs z).role = .candidate → ((vs z).currentTerm, z) ∈ (vs z).granted →
      Tally (elect z (vs z).currentTerm) (vs z).votes (vs z).awaiting (vs z).needed ∧
        ∀ y ∈ (vs z).votes, y = z ∨ ((vs z).currentTerm, z) ∈ (vs y).granted := fun hrole hmem =>
    ⟨(h.tally z hrole hmem).1, fun y hy => .inr ((h.tally z hrole hmem).2 y hy)⟩
  refine h.update hid hone hstep.grows.2 ?_ ?_
  · cases hstep with
    | demote | lead | load => rintro ⟨⟩
    | save hsave | rollBack _ _ hsave =>
      rw [hsave.eq]
      exact hkeep
    | follow _ _ hsave =>
      rw [hsave.eq]
      rintro ⟨⟩
    | grant candidate args hmsg hpre hcand hterm _ hsave =>
      rw [hsave.eq]
      intro hrole hmem
      rcases List.mem_cons.1 hmem with heq | hmem
      · -- a vote for itself answers a request of its own campaign
        rw [Prod.mk.injEq] at heq
        have hself := h.request z args hmsg hpre
        rw [hterm, hcand, ← heq.2] at hself
        exact hkeep hrole hself
      · exact hkeep hrole hmem
    | campaign hvoter hsave =>
      rw [h.id z, Configuration.contains_iff] at hvoter
      have hE := helect hvoter ((vs z).currentTerm + 1)
        (by rw [h.id z]; exact List.mem_cons_self ..) (hstale _ (Nat.lt_succ_self _))
      rw [hsave.eq, h.id z]
      rintro - -
      rw [hE]
      refine ⟨⟨?_, ?_, ?_⟩, fun y hy => .inl (List.mem_singleton.1 hy)⟩
      · rw [List.toFinset_card_of_nodup hnodup, Configuration.quorumSize]
      · simpa using hnodup.filter _
      · intro y hy
        rcases List.mem_cons.1 hy with rfl | hy
        · exact List.mem_toFinset.2 hvoter
        · exact List.mem_toFinset.2 (List.mem_of_mem_filter hy)
    | abandon hsave =>
      rw [hsave.eq]
      exact fun _ hmem => absurd hmem (hstale _ (Nat.lt_succ_self _))
    | count source args reply hmsg hcand hpre hgranted hterm hrole hawait =>
      intro _ hmem
      obtain ⟨ht, hvotes⟩ := hkeep hrole hmem
      have hperm : (source :: (vs z).votes ++ (vs z).awaiting.erase source).Perm
          ((vs z).votes ++ (vs z).awaiting) :=
        (List.perm_middle.symm).trans ((List.perm_cons_erase hawait).symm.append_left _)
      refine ⟨⟨ht.needed, hperm.nodup_iff.2 ht.nodup, fun y hy => ht.subset y (hperm.subset hy)⟩,
        fun y hy => ?_⟩
      rcases List.mem_cons.1 hy with rfl | hy
      · have hvote := (h.reply y args reply hmsg hpre).2 hgranted
        rw [hcand, ← hterm] at hvote
        exact .inr hvote
      · exact hvotes y hy
    | propose => exact hkeep
    | raise term hterm hsave =>
      rw [hsave.eq]
      exact fun _ hmem => absurd hmem (hstale _ hterm)
    | wipe hwiped => exact absurd hkept hwiped
  · cases hstep with
    | lead hrole hwon hsince =>
      intro t ht
      rcases List.mem_cons.1 ht with rfl | ht
      · have hself : ((vs z).currentTerm, z) ∈ (vs z).granted := by
          rcases hsince with hself | ⟨source, args, reply, hmsg, hcand, hpre, hterm⟩
          · rwa [h.id z] at hself
          · rw [hterm]
            have hself := (h.reply source args reply hmsg hpre).1
            rwa [hcand] at hself
        obtain ⟨ht, hvotes⟩ := h.tally z hrole hself
        have hnd := (List.nodup_append.1 ht.nodup).1
        refine .inr ⟨hself, (vs z).votes.toFinset, fun y hy => ?_, ?_, fun y hy => ?_⟩
        · exact ht.subset y (List.mem_append_left _ (List.mem_toFinset.1 hy))
        · rw [List.toFinset_card_of_nodup hnd]
          have := ht.needed
          omega
        · exact hvotes y (List.mem_toFinset.1 hy)
      · exact .inl ht
    | save hsave | follow _ _ hsave | grant _ _ _ _ _ _ _ hsave | rollBack _ _ hsave
    | campaign _ hsave | abandon hsave | raise _ _ hsave => rw [hsave.eq]; exact fun t ht => .inl ht
    | _ => exact fun t ht => .inl ht

theorem votingSteps (h : Elections elect vs net) (hsteps : VotingSteps R z net n (vs z) v')
    (hkept : R.unwiped) (hnodup : n.config.servers.Nodup)
    (helect : z ∈ n.config.servers → ∀ t, (t, z) ∈ v'.granted → (t, z) ∉ (vs z).granted →
      elect z t = n.config.servers.toFinset) :
    Elections elect (Function.update vs z v') net := by
  induction hsteps with
  | refl => rwa [update_eq_self]
  | tail hsteps hstep ih =>
    rename_i w _
    have hw := ih fun hvoter t ht hnew => helect hvoter t (hstep.grows.2 _ ht) hnew
    rw [← update_self z w vs] at hstep
    have hnext := hw.votingStep hstep hkept hnodup fun hvoter t ht hnew => by
      rw [update_self] at hnew
      exact helect hvoter t ht fun hold => hnew (VotingSteps.grows hsteps |>.2 _ hold)
    rwa [update_idem] at hnext

omit [DecidableEq ι] in
theorem send (h : Elections elect vs net) (hout : ∀ msg ∈ out, (vs z).Announces z net msg) :
    Elections elect vs (net ++ out) := by
  refine { h with
      request := fun dest args hmsg hpre => ?_
      reply := fun source args reply hmsg hpre => ?_ }
  · rcases mem_append.1 hmsg with hmsg | hmsg
    · exact h.request dest args hmsg hpre
    · obtain ⟨hcand, hmem⟩ := hout _ hmsg hpre
      rw [hcand, h.id z]
      rwa [h.id z] at hmem
  · rcases mem_append.1 hmsg with hmsg | hmsg
    · exact h.reply source args reply hmsg hpre
    · obtain ⟨rfl, hreq, hvote⟩ := hout _ hmsg
      exact ⟨h.request _ args hreq hpre, hvote hpre⟩

/-- Two leaders of one term whose electorates overlap are the same node. -/
theorem leader_unique (h : Elections elect vs net) {y z : ι} {t : Nat} (hy : t ∈ (vs y).led)
    (hz : t ∈ (vs z).led)
    (hoverlap : ∀ Q ⊆ elect y t, ∀ Q' ⊆ elect z t, (elect y t).card < 2 * Q.card →
      (elect z t).card < 2 * Q'.card → (Q ∩ Q').Nonempty) : y = z := by
  obtain ⟨-, Q, hsub, hcard, hQ⟩ := h.led y t hy
  obtain ⟨-, Q', hsub', hcard', hQ'⟩ := h.led z t hz
  obtain ⟨x, hx⟩ := hoverlap Q hsub Q' hsub' hcard hcard'
  rw [Finset.mem_inter] at hx
  exact (h.oneVote x).unique t y z (hQ x hx.1) (hQ' x hx.2)

variable [CommandCodec ι κ]

theorem step {s : Cores ι κ} (h : Elections elect (fun y => (s.nodes y).voting) s.net)
    (hstep : NodeStep R z s.net (s.nodes z) n out) (hkept : R.unwiped)
    (hnodup : (s.nodes z).config.servers.Nodup)
    (helect : z ∈ (s.nodes z).config.servers → ∀ t, (t, z) ∈ n.granted →
      (t, z) ∉ (s.nodes z).granted → elect z t = (s.nodes z).config.servers.toFinset) :
    Elections elect (fun y => ((s.put z n out).nodes y).voting) (s.put z n out).net := by
  obtain ⟨hsteps, hout⟩ := hstep.voting
  have hnext := h.votingSteps hsteps hkept hnodup helect
  have hvs : (fun y => ((s.put z n out).nodes y).voting) =
      Function.update (fun y => (s.nodes y).voting) z n.voting := by
    funext y
    by_cases hy : y = z
    · subst hy
      simp [Cores.put]
    · simp [Cores.put, hy]
  rw [hvs]
  refine hnext.send (z := z) ?_
  rwa [update_self]

end Elections

/-! ## A fixed voter set -/

namespace Cluster

/-- No membership calls and no wiped data directories. -/
def fixedMembers : Action ι κ → Bool
  | .addMember .. | .resumeAdd .. | .removeMember .. | .resumeRemove .. | .wipe .. => false
  | _ => true

/-- A configuration that lists the voters `V` and no learners, or that of a
server that has not joined. -/
def FixedVoters (V : Finset ι) (c : Configuration ι) : Prop :=
  c.learners = [] ∧ (c.servers = [] ∨ (c.servers.Nodup ∧ c.servers.toFinset = V))

/-- The rules of a run with a fixed voter set.  Writes of the meta file may fail. -/
def fixedRules (ι κ : Type) : Rules ι κ where
  unwiped := True
  safe := False
  change n _ := n.config.learners ≠ []

theorem fixedRules_obeys {c : Cluster ι κ} {a : Action ι κ} (h : fixedMembers a = true) :
    Obeys (fixedRules ι κ) c a := by
  refine ⟨fun _ => ?_, False.elim, fun z next hprop => ?_⟩
  · cases a <;> first | rfl | cases h
  · cases a with
    | heartbeat =>
      obtain ⟨rfl, -, id, hid, -⟩ := hprop
      exact ne_nil_of_mem hid
    | addMember | resumeAdd | removeMember | resumeRemove => cases h
    | _ => exact hprop.elim

variable [CommandCodec ι κ]

/-- The invariant of a run with a fixed voter set. -/
structure FixedElections (V : Finset ι) (s : Cores ι κ) : Prop where
  configs : ∀ z, (s.nodes z).configParts.All (FixedVoters V)
  net : ∀ msg ∈ s.net, msg.ConfigsOK (FixedVoters V)
  elections : Elections (fun _ _ => V) (fun z => (s.nodes z).voting) s.net

theorem FixedElections.step {V : Finset ι} {s : Cores ι κ} {z : ι} {out : List (Message ι κ)}
    (hs : FixedElections V s) (h : NodeStep (fixedRules ι κ) z s.net (s.nodes z) n out) :
    FixedElections V (s.put z n out) := by
  have hconfig : FixedVoters V (s.nodes z).config := (hs.configs z).config
  obtain ⟨hparts, hout⟩ := h.configs (hs.configs z) hs.net
    (fun next hchange _ => absurd hconfig.1 hchange) (.inl trivial)
  refine ⟨Cores.forall_put (A := fun _ n => n.configParts.All _) hs.configs hparts,
    Cores.forall_mem_put hs.net hout, hs.elections.step h trivial ?_ fun hvoter t _ _ => ?_⟩
  · rcases hconfig.2 with hnil | ⟨hnodup, -⟩
    · rw [hnil]
      exact nodup_nil
    · exact hnodup
  · rcases hconfig.2 with hnil | ⟨-, hV⟩
    · rw [hnil] at hvoter
      cases hvoter
    · exact hV.symm

theorem FixedElections.init {V : Finset ι} {opts : ι → RaftNode.Options ι}
    (hboot : ∀ z, FixedVoters V (opts z).boot) :
    FixedElections V (Cluster.init opts : Cluster ι κ).cores := by
  refine ⟨fun z => NodeCore.All.freshCore z _ _ (hboot z), by rintro _ ⟨⟩, ?_⟩
  · refine ⟨fun z => rfl, fun z => ?_, ?_, ?_, ?_, ?_⟩
    · refine ⟨Nat.le_refl _, Nat.le_refl _, ?_, ?_, ?_, ?_, ?_⟩
      · rintro _ _ ⟨⟩
      · rintro _ _ ⟨⟩
      · rintro _ ⟨⟩
      · rintro _ ⟨⟩
      · rintro _ _ _ ⟨⟩
    · rintro _ ⟨⟩
    · rintro _ _ ⟨⟩
    · rintro _ _ ⟨⟩
    · rintro _ _ _ ⟨⟩

/-- With a fixed voter set at most one node becomes leader in a term, and no node
votes for two candidates in one term.  Every write of a meta file may fail, and
nodes may crash at any point. -/
theorem Reachable.election_safety {V : Finset ι} {opts : ι → RaftNode.Options ι}
    (hboot : ∀ z, FixedVoters V (opts z).boot) {c : Cluster ι κ}
    (h : Reachable opts (fun _ a => fixedMembers a) c) :
    (∀ y z t, t ∈ (c.nodes y).led → t ∈ (c.nodes z).led → y = z) ∧
      ∀ z t a b, (t, a) ∈ (c.nodes z).granted → (t, b) ∈ (c.nodes z).granted → a = b := by
  have hinv := h.steps_induct (R := fixedRules ι κ) (fun c a ha => fixedRules_obeys ha)
    (FixedElections.init hboot) (fun s z n out hs hstep => hs.step hstep)
  refine ⟨fun y z t hy hz => ?_, fun z => (hinv.elections.oneVote z).unique⟩
  refine hinv.elections.leader_unique hy hz fun Q hQ Q' hQ' hcard hcard' => ?_
  exact Finset.inter_nonempty_of_card_lt_card_add_card hQ hQ' (by omega)

def threeVoters (_ : Fin 3) : RaftNode.Options (Fin 3) where
  boot := { servers := [0, 1, 2], learners := [], addrs := [] }
  pipelineWindow := 8
  batchSM := false
  appliedSM := false

theorem threeVoters_fixed (z : Fin 3) : FixedVoters {0, 1, 2} (threeVoters z).boot :=
  ⟨rfl, .inr ⟨by simp [threeVoters], by simp [threeVoters]⟩⟩

/-- The hypotheses are met by a run in which server 0 is elected in term 1 and
server 1 in term 2, with a vote whose first write failed. -/
theorem election_safety_two_terms :
    ∃ c : Cluster (Fin 3) (Payload (Fin 3)),
      (1 ∈ (c.nodes 0).led ∧ 2 ∈ (c.nodes 1).led) ∧
        (∀ y z t, t ∈ (c.nodes y).led → t ∈ (c.nodes z).led → y = z) ∧
          ∀ z t a b, (t, a) ∈ (c.nodes z).granted → (t, b) ∈ (c.nodes z).granted → a = b := by
  have hrun : ∃ c : Cluster (Fin 3) (Payload (Fin 3)),
      Reachable threeVoters (fun _ a => fixedMembers a) c ∧
        (1 ∈ (c.nodes 0).led ∧ 2 ∈ (c.nodes 1).led) :=
    exists_reachable
      [.preVote 0, recv 0, recv 2, .preVoteDone 0 0, .startElection 0 0 .done, recv 3, recv 5,
        .preVote 1, recv 7, recv 8, .preVoteDone 1 0, .startElection 1 0 .done,
        .deliver 10 .done .done .failed 0, recv 10, recv 12] _ (by decide)
  obtain ⟨c, hreach, hled⟩ := hrun
  exact ⟨c, hled, hreach.election_safety threeVoters_fixed⟩

end Cluster

end VeltrixDB.Consensus
