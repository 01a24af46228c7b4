import VeltrixDB.Consensus.Steps

/-!
# Terms, votes and roles

The part of a node that elections touch, and the few ways in which the elementary
steps change it.  Everything said about votes is checked against these.

Main results:

- Definition `VotingStep`: how terms, votes and roles change.
- Theorem `NodeStep.voting`: an elementary step is a sequence of such changes,
  and the votes it announces are in the node's history.
-/

namespace VeltrixDB.Consensus

open List NodeCore

variable {ι κ : Type}

/-! ## The record -/

/-- Term, vote and role of a node, what of it is on disk, and its history. -/
structure Voting (ι : Type) where
  id : ι
  currentTerm : Nat
  votedFor : Option ι
  savedMeta : RaftMeta ι
  metaFile : RaftMeta ι
  role : RaftRole
  votes : List ι
  awaiting : List ι
  needed : Nat
  granted : List (Nat × ι)
  led : List Nat
  proposed : List (Configuration ι × Configuration ι)

def NodeCore.voting (n : NodeCore ι κ) : Voting ι where
  id := n.id
  currentTerm := n.currentTerm
  votedFor := n.votedFor
  savedMeta := n.store.savedMeta
  metaFile := n.store.metaFile
  role := n.role
  votes := n.votes
  awaiting := n.awaiting
  needed := n.needed
  granted := n.granted
  led := n.led
  proposed := n.proposed

/-! ## Changes -/

def Voting.ballot (v : Voting ι) : RaftMeta ι :=
  { currentTerm := v.currentTerm, votedFor := v.votedFor }

inductive Saves (v : Voting ι) : Voting ι → Bool → Prop where
  | failed : Saves v v false
  | known (h : v.savedMeta = v.ballot) : Saves v v true
  | written : Saves v { v with savedMeta := v.ballot, metaFile := v.ballot } true
  | replaced : Saves v { v with metaFile := v.ballot } false

/-- Persisting changes what is on disk, and nothing else. -/
theorem Saves.eq {v v' : Voting ι} {ok : Bool} (h : Saves v v' ok) :
    v' = { v with savedMeta := v'.savedMeta, metaFile := v'.metaFile } := by
  cases h <;> rfl

/-- Persisting does not look at role and tally. -/
theorem Saves.reset {v v' : Voting ι} {ok : Bool} (h : Saves v v' ok) :
    Saves { v with role := .follower, votes := [], awaiting := [], needed := 0 }
      { v' with role := .follower, votes := [], awaiting := [], needed := 0 } ok := by
  cases h with
  | failed => exact .failed
  | known h => exact .known h
  | written => exact .written
  | replaced => exact .replaced

variable [DecidableEq ι] in
/-- The ways in which an elementary step changes the voting part of node `z`, whose
core is `n`. -/
inductive VotingStep (R : Rules ι κ) (z : ι) (net : List (Message ι κ)) (n : NodeCore ι κ) :
    Voting ι → Voting ι → Prop where
  | demote {v} : VotingStep R z net n v { v with role := .follower }
  | save {v v' ok} (hsave : Saves v v' ok) : VotingStep R z net n v v'
  | follow {v v' ok} (term : Nat) (hterm : v.currentTerm < term)
      (hsave : Saves { v with currentTerm := term, votedFor := none, role := .follower } v' ok) :
      VotingStep R z net n v v'
  | grant {v v'} (candidate : ι) (args : RequestVoteArgs ι) (hmsg : .requestVote z args ∈ net)
      (hpre : args.preVote = false) (hcand : args.candidateID = candidate)
      (hterm : args.term = v.currentTerm)
      (hfree : v.votedFor = none ∨ v.votedFor = some candidate)
      (hsave : Saves { v with votedFor := some candidate } v' true) :
      VotingStep R z net n v { v' with granted := (v.currentTerm, candidate) :: v'.granted }
  | rollBack {v v'} (candidate : ι) (hfree : v.votedFor = none ∨ v.votedFor = some candidate)
      (hsave : Saves { v with votedFor := some candidate } v' false) :
      VotingStep R z net n v { v' with votedFor := v.votedFor }
  | campaign {v v'} (hvoter : n.config.contains v.id = true)
      (hsave : Saves { v with currentTerm := v.currentTerm + 1, votedFor := some v.id } v' true) :
      VotingStep R z net n v
        { v' with
          role := .candidate
          votes := [v.id]
          awaiting := n.config.servers.filter (· ≠ v.id)
          needed := n.config.quorumSize
          granted := (v.currentTerm + 1, v.id) :: v'.granted }
  | abandon {v v'}
      (hsave : Saves { v with currentTerm := v.currentTerm + 1, votedFor := some v.id } v' false) :
      VotingStep R z net n v v'
  | count {v} (source : ι) (args : RequestVoteArgs ι) (reply : RequestVoteReply)
      (hmsg : .voteReply source args reply ∈ net) (hcand : args.candidateID = z)
      (hpre : args.preVote = false) (hgranted : reply.voteGranted = true)
      (hterm : v.currentTerm = args.term) (hrole : v.role = .candidate)
      (hawait : source ∈ v.awaiting) :
      VotingStep R z net n v
        { v with votes := source :: v.votes, awaiting := v.awaiting.erase source }
  | lead {v} (hrole : v.role = .candidate) (hwon : v.needed ≤ v.votes.length)
      (hsince : (v.currentTerm, v.id) ∈ v.granted ∨ ∃ source args reply,
        .voteReply source args reply ∈ net ∧ args.candidateID = z ∧ args.preVote = false ∧
          v.currentTerm = args.term) :
      VotingStep R z net n v { v with role := .leader, led := v.currentTerm :: v.led }
  | propose {v} (next : Configuration ι) (hchange : R.change n next) :
      VotingStep R z net n v { v with proposed := (n.config, next) :: v.proposed }
  | load {v} :
      VotingStep R z net n v
        { v with
          currentTerm := v.metaFile.currentTerm
          votedFor := v.metaFile.votedFor
          savedMeta := v.metaFile
          role := .follower, votes := [], awaiting := [], needed := 0 }
  | raise {v v' ok} (term : Nat) (hterm : v.currentTerm < term)
      (hsave : Saves { v with currentTerm := term, votedFor := none } v' ok) :
      VotingStep R z net n v v'
  | wipe {v} (hwiped : ¬R.unwiped) :
      VotingStep R z net n v
        { v with
          currentTerm := 0, votedFor := none
          savedMeta := { currentTerm := 0, votedFor := none }
          metaFile := { currentTerm := 0, votedFor := none }
          role := .follower, votes := [], awaiting := [], needed := 0 }

variable [DecidableEq ι] in
abbrev VotingSteps (R : Rules ι κ) (z : ι) (net : List (Message ι κ)) (n : NodeCore ι κ) :
    Voting ι → Voting ι → Prop :=
  Relation.ReflTransGen (VotingStep R z net n)

/-- A vote that a message of node `z` announces is in its history, and answers
a request. -/
def Voting.Announces (v : Voting ι) (z : ι) (net : List (Message ι κ)) : Message ι κ → Prop
  | .requestVote _ args =>
    args.preVote = false → args.candidateID = v.id ∧ (args.term, v.id) ∈ v.granted
  | .voteReply source args reply =>
    source = z ∧ .requestVote z args ∈ net ∧
      (args.preVote = false → reply.voteGranted = true →
        (args.term, args.candidateID) ∈ v.granted)
  | _ => True

namespace NodeCore

theorem announces_answers (v : Voting ι) (replies : List (AppendRequest ι κ × AppendEntriesReply)) :
    ∀ msg ∈ answers z replies, v.Announces z net msg := by
  intro msg hmsg
  obtain ⟨r, -, rfl⟩ := mem_map.1 hmsg
  trivial

/-! ## Functions that leave terms, votes and roles alone -/

section

variable (n : NodeCore ι κ)

theorem voting_adoptConfig (next : Configuration ι) (i : Nat) :
    (n.adoptConfig next i).voting =
      { n.voting with proposed := (n.config, next) :: n.voting.proposed } :=
  rfl

theorem voting_leaderAppend {n n' : NodeCore ι κ} {entries : List (LogEntry κ)}
    (h : n.leaderAppend entries = some n') : n'.voting = n.voting ∧ n'.config = n.config := by
  obtain ⟨store, hstore, rfl⟩ := Option.map_eq_some_iff.1 h
  rw [(LogStore.enqueue_some hstore).1]
  exact ⟨rfl, rfl⟩

theorem voting_truncateAt (i : Nat) : (n.truncateAt i).voting = n.voting := by
  rw [truncateAt]
  split <;> rfl

theorem store_truncateAt (i : Nat) : (n.truncateAt i).store = n.store := by
  rw [truncateAt]
  split <;> rfl

theorem voting_syncWrite (idx term : Nat) (o : WriteOutcome) :
    (n.syncWrite idx term o).voting = n.voting := by
  simp only [syncWrite]
  repeat' split
  all_goals rfl

theorem voting_syncFsync (idx term covered gen : Nat) (ok : Bool) :
    (n.syncFsync idx term covered gen ok).voting = n.voting := by
  rw [syncFsync]
  repeat' split
  all_goals rfl

theorem voting_gather : n.gather.voting = n.voting := by
  rw [gather]
  split <;> rfl

theorem voting_captureInstall (o : ReplaceOutcome) : (n.captureInstall o).voting = n.voting := by
  rw [captureInstall]
  repeat' split
  all_goals rfl

theorem voting_installEnd (req : SnapshotRequest ι) (ok : Bool) :
    (n.installEnd req ok).1.voting = n.voting := by
  rw [installEnd]
  split <;> rfl

theorem voting_installRename (o : ReplaceOutcome) : (n.installRename o).1.voting = n.voting := by
  rw [installRename]
  repeat' split
  all_goals first
    | rfl
    | exact voting_installEnd _ _ _

theorem voting_installRestored : n.installRestored.1.voting = n.voting := by
  rw [installRestored]
  split
  · exact voting_installEnd _ _ _
  · rfl

section

variable [CommandCodec ι κ]

theorem voting_refreshConfigFromLog : n.refreshConfigFromLog.voting = n.voting := by
  rw [refreshConfigFromLog]
  split <;> rfl

theorem voting_supersede (i : Nat) (entries : List (LogEntry κ)) :
    (n.supersede i entries).1.voting = n.voting := by
  rw [supersede]
  split
  next store h =>
    rw [voting_refreshConfigFromLog, (LogStore.enqueue_some h).1, ← voting_truncateAt n i,
      ← store_truncateAt n i]
    rfl
  · rw [voting_refreshConfigFromLog, voting_truncateAt]

theorem voting_appendLoop (prev : Nat) (entries : List (LogEntry κ)) :
    (n.appendLoop prev entries).1.voting = n.voting := by
  induction entries generalizing prev with
  | nil => rfl
  | cons e es ih =>
    rw [appendLoop]
    split
    · exact ih _
    · exact voting_supersede n _ _

theorem voting_appendFrom (req : AppendRequest ι κ) (prev : Nat) (entries : List (LogEntry κ)) :
    (n.appendFrom req prev entries).1.voting = n.voting := by
  have h := voting_appendLoop n prev entries
  simp only [appendFrom, acknowledge]
  repeat' split
  all_goals exact h

theorem voting_appendChecked (req : AppendRequest ι κ) (prev term : Nat)
    (entries : List (LogEntry κ)) :
    (n.appendChecked req prev term entries).1.voting = n.voting := by
  rw [appendChecked]
  split
  · rfl
  · split
    · rfl
    · exact voting_appendFrom _ _ _ _

theorem voting_appendMatched (req : AppendRequest ι κ) :
    (n.appendMatched req).1.voting = n.voting := by
  rw [appendMatched]
  split
  · exact voting_appendChecked _ _ _ _ _
  · split
    · rfl
    · exact voting_appendChecked _ _ _ _ _

theorem voting_onPersistFailure : n.onPersistFailure.voting = n.voting := by
  rw [onPersistFailure]
  repeat' split
  · rfl
  · exact voting_refreshConfigFromLog _
  · rfl

theorem voting_applySome : n.applySome.voting = n.voting := by
  rw [applySome]
  split
  · rfl
  · split <;> rfl

end

variable [DecidableEq ι]

@[simp] theorem voting_maybeAdvanceCommit : n.maybeAdvanceCommit.voting = n.voting := by
  rw [maybeAdvanceCommit]
  split <;> rfl

theorem voting_raiseMatch (p : ι) (i : Nat) : (n.raiseMatch p i).voting = n.voting :=
  voting_maybeAdvanceCommit _

theorem voting_markDurable (idx term : Nat) : (n.markDurable idx term).voting = n.voting := by
  rw [markDurable]
  split
  · rfl
  · dsimp only
    split
    · exact voting_maybeAdvanceCommit _
    · rfl

theorem voting_rewriteLog (o : LogStore.RewriteOutcome) : (n.rewriteLog o).voting = n.voting := by
  simp only [rewriteLog]
  rcases n.store.rewrite_cases n.log o with h | h | h | ⟨-, h⟩
  · simp only [h]
    rfl
  · simp only [h, if_true]
    split
    · exact voting_maybeAdvanceCommit _
    · rfl
  · simp only [h]
    rfl
  · simp only [h]
    rfl

theorem voting_captureCompact (o : LogStore.RewriteOutcome) :
    (n.captureCompact o).voting = n.voting := by
  rw [captureCompact]
  split
  · dsimp only
    split
    · exact voting_rewriteLog _ o
    · rfl
  · rfl

theorem voting_receiveSnapshot (req : SnapshotRequest ι) :
    (n.receiveSnapshot req).1.voting = n.voting := by
  rw [receiveSnapshot]
  repeat' split
  all_goals rfl

theorem voting_installBegin (valid : Bool) : (n.installBegin valid).1.voting = n.voting := by
  rw [installBegin]
  repeat' split
  all_goals first
    | rfl
    | exact voting_installEnd _ _ _

variable [CommandCodec ι κ]

theorem voting_becomeLeader :
    n.becomeLeader.voting =
      { n.voting with role := .leader, led := n.currentTerm :: n.led } := by
  rw [becomeLeader]
  cases h : n.store.enqueue [n.noop] with
  | none => rfl
  | some =>
    rw [(LogStore.enqueue_some h).1]
    rfl

theorem voting_syncFinish (idx term : Nat) (result : Option Bool) :
    (n.syncFinish idx term result).1.voting = n.voting := by
  simp only [syncFinish]
  split
  · rfl
  · exact voting_markDurable _ _ _
  · exact voting_onPersistFailure _

theorem voting_captureFence (sid : Nat) : (n.captureFence sid).voting = n.voting := by
  rw [captureFence]
  split <;> rfl

theorem voting_installLog (o : LogStore.RewriteOutcome) : (n.installLog o).1.voting = n.voting := by
  rw [installLog]
  split
  · exact (voting_rewriteLog _ o).trans (voting_refreshConfigFromLog _)
  · rfl

end

/-! ## Functions that change them -/

variable [DecidableEq ι] {R : Rules ι κ} {z : ι} {net : List (Message ι κ)} {m : NodeCore ι κ}

theorem saves_persistMeta (n : NodeCore ι κ) (o : ReplaceOutcome) :
    Saves n.voting (n.persistMeta o).1.voting (n.persistMeta o).2 := by
  have hcases := n.store.saveMeta_cases { currentTerm := n.currentTerm, votedFor := n.votedFor } o
  simp only [persistMeta]
  rcases hcases with h | ⟨hsaved, h⟩ | h | h
  · rw [h]
    exact .failed
  · rw [h]
    exact .known hsaved
  · rw [h]
    exact .written
  · rw [h]
    exact .replaced

theorem votingStep_becomeFollower {n : NodeCore ι κ} {term : Nat} (h : n.currentTerm < term)
    (o : ReplaceOutcome) : VotingStep R z net m n.voting (n.becomeFollower term o).voting :=
  .follow term h (saves_persistMeta { n with
    currentTerm := term, votedFor := none, role := .follower } o)

theorem votingSteps_acceptTerm (n : NodeCore ι κ) (term : Nat) (o o' : ReplaceOutcome) :
    VotingSteps R z net m n.voting (n.acceptTerm term o o').1.voting := by
  rw [acceptTerm]
  split
  next h =>
    exact .tail (.single (votingStep_becomeFollower h o)) (.save (saves_persistMeta _ o'))
  · exact .refl

theorem votingSteps_acceptLeader (n : NodeCore ι κ) (term : Nat) (o o' : ReplaceOutcome) :
    VotingSteps R z net m n.voting (n.acceptLeader term o o').1.voting := by
  have hterm : VotingSteps R z net m n.voting (n.acceptTerm term o o').1.voting :=
    votingSteps_acceptTerm n term o o'
  simp only [acceptLeader]
  split
  · exact .refl
  · split
    · exact .tail hterm .demote
    · exact hterm

theorem currentTerm_acceptTerm {n : NodeCore ι κ} {term : Nat} (h : n.currentTerm ≤ term)
    (o o' : ReplaceOutcome) : (n.acceptTerm term o o').1.currentTerm = term := by
  rw [acceptTerm]
  split
  · rfl
  next hle => exact Nat.le_antisymm h (Nat.le_of_not_lt hle)

theorem votingStep_castVote {n : NodeCore ι κ} {args : RequestVoteArgs ι}
    (hmsg : .requestVote z args ∈ net) (hpre : args.preVote = false)
    (hterm : args.term = n.currentTerm)
    (hfree : n.votedFor = none ∨ n.votedFor = some args.candidateID) (o : ReplaceOutcome) :
    VotingStep R z net m n.voting (n.castVote args.candidateID o).1.voting ∧
      ((n.castVote args.candidateID o).2 = true →
        (n.currentTerm, args.candidateID) ∈ (n.castVote args.candidateID o).1.granted) := by
  have hsave := saves_persistMeta { n with votedFor := some args.candidateID } o
  simp only [castVote]
  split
  next hok =>
    rw [hok] at hsave
    have hstep := @VotingStep.grant _ _ _ R z net m n.voting _ _ args hmsg hpre rfl hterm
      hfree hsave
    exact ⟨hstep, fun _ => mem_cons_self ..⟩
  next hok =>
    rw [Bool.not_eq_true] at hok
    rw [hok] at hsave
    have hstep := @VotingStep.rollBack _ _ _ R z net m n.voting _ _ hfree hsave
    exact ⟨hstep, by simp⟩

theorem voting_handleRequestVote (n : NodeCore ι κ) {args : RequestVoteArgs ι}
    (hmsg : .requestVote z args ∈ net) (contact : Bool) (o o' o'' : ReplaceOutcome) :
    VotingSteps R z net m n.voting (n.handleRequestVote args contact o o' o'').1.voting ∧
      (args.preVote = false → (n.handleRequestVote args contact o o' o'').2.voteGranted = true →
        (args.term, args.candidateID) ∈ (n.handleRequestVote args contact o o' o'').1.granted) := by
  have haccept : VotingSteps R z net m n.voting (n.acceptTerm args.term o o').1.voting :=
    votingSteps_acceptTerm n args.term o o'
  simp only [handleRequestVote]
  split
  · exact ⟨.refl, by simp⟩
  · split
    next hpre =>
      split
      · exact ⟨.refl, by simp⟩
      · exact ⟨.refl, by simp [hpre]⟩
    next hpre =>
      split
      · exact ⟨.refl, by simp⟩
      next hstale =>
        have hterm := currentTerm_acceptTerm (Nat.le_of_not_lt hstale) o o'
        split
        · exact ⟨haccept, by simp⟩
        · split
          next hgrant =>
            obtain ⟨hstep, hmem⟩ := votingStep_castVote (R := R) (m := m) hmsg
              (by simpa using hpre) hterm.symm hgrant.1 o''
            rw [hterm] at hmem
            exact ⟨.tail haccept hstep, fun _ => hmem⟩
          · exact ⟨haccept, by simp⟩

theorem voting_campaign {n : NodeCore ι κ} (hvoter : n.config.contains n.id = true)
    (o : ReplaceOutcome) :
    VotingStep R z net n n.voting (n.campaign o).1.voting ∧
      ((n.campaign o).2 = true → ∀ msg, (n.campaign o).1.Solicits msg →
        (n.campaign o).1.voting.Announces z net msg) := by
  have hsave := saves_persistMeta
    { n with currentTerm := n.currentTerm + 1, votedFor := some n.id } o
  simp only [campaign]
  split
  next hok =>
    rw [hok] at hsave
    have hstep := @VotingStep.campaign _ _ _ R z net n n.voting _ hvoter hsave
    refine ⟨hstep, ?_⟩
    rintro - _ ⟨p, rfl⟩ -
    exact ⟨rfl, mem_cons_self ..⟩
  next hok =>
    rw [Bool.not_eq_true] at hok
    rw [hok] at hsave
    have hstep := @VotingStep.abandon _ _ _ R z net n n.voting _ hsave
    exact ⟨hstep, by simp⟩

theorem votingSteps_handleInstallSnapshot (n : NodeCore ι κ) (req : SnapshotRequest ι)
    (o o' : ReplaceOutcome) :
    VotingSteps R z net m n.voting (n.handleInstallSnapshot req o o').1.voting := by
  have haccept : VotingSteps R z net m n.voting (n.acceptLeader req.term o o').1.voting :=
    votingSteps_acceptLeader n req.term o o'
  simp only [handleInstallSnapshot]
  split
  · rw [voting_receiveSnapshot]
    exact haccept
  · exact haccept

theorem votingSteps_finishApplied (n : NodeCore ι κ) :
    VotingSteps R z net m n.voting n.finishApplied.voting := by
  rw [finishApplied]
  split
  · exact .refl
  · dsimp only [onConfigCommitted]
    split
    · split
      · exact .refl
      · split
        · exact .single .demote
        · exact .refl
    · exact .refl

variable [CommandCodec ι κ]

theorem votingSteps_handleAppendEntries (n : NodeCore ι κ) (req : AppendRequest ι κ)
    (o o' : ReplaceOutcome) :
    VotingSteps R z net m n.voting (n.handleAppendEntries req o o').1.voting := by
  have haccept : VotingSteps R z net m n.voting (n.acceptLeader req.args.term o o').1.voting :=
    votingSteps_acceptLeader n req.args.term o o'
  have hsame : VotingSteps R z net m n.voting (n.appendEntries req o o').1.voting := by
    rw [appendEntries]
    split
    · rw [voting_appendMatched]
      exact haccept
    · exact haccept
  simp only [handleAppendEntries]
  split
  next h =>
    rw [h] at hsame
    exact hsame
  next h =>
    rw [h] at hsame
    exact hsame

theorem votingSteps_restart {n n' : NodeCore ι κ} {recs : List (LogEntry κ)}
    {a : Option AppliedIndexState} {o : ReplaceOutcome} {w : LogStore.RewriteOutcome}
    (h : n.restart recs a o w = some n') : VotingSteps R z net m n.voting n'.voting := by
  obtain ⟨-, -, -, c, store, hc, hstore, rfl⟩ := restart_some h
  have hfinal : (({ c with store := store, durableIndex := c.lastLogIndex } :
      NodeCore ι κ).startup a).voting =
      { c.voting with role := .follower, votes := [], awaiting := [], needed := 0 } := by
    rw [startup, voting_refreshConfigFromLog]
    rcases hstore with rfl | rfl <;> rfl
  rw [hfinal]
  refine .head .load ?_
  rw [raiseTerm] at hc
  split at hc
  next hlt =>
    have hsave := saves_persistMeta { n.loaded recs with
      currentTerm := (n.loaded recs).lastLogTerm, votedFor := none } o
    rw [← hc] at hsave
    exact .single (.raise _ hlt hsave.reset)
  · rw [hc]
    exact .refl

theorem votingSteps_crashRestart {n n' : NodeCore ι κ} {f : LogStore.CrashedLog}
    {a : Option AppliedIndexState} {o : ReplaceOutcome} {w : LogStore.RewriteOutcome}
    (h : n.crashRestart f a o w = some n') : VotingSteps R z net m n.voting n'.voting := by
  obtain ⟨s, hs, hrestart⟩ := Option.bind_eq_some_iff.1 h
  obtain ⟨recs, synced, renamed, rfl⟩ := LogStore.crashed_some hs
  exact votingSteps_restart (n := { n with
    store := { n.store with recs := recs, synced := synced, renamed := renamed } }) hrestart

end NodeCore

/-! ## Elementary steps -/

variable [DecidableEq ι] [CommandCodec ι κ] in
/-- An elementary step is a sequence of changes of terms, votes and roles, and the
votes it announces are in the node's history. -/
theorem NodeStep.voting {R : Rules ι κ} {z : ι} {net out : List (Message ι κ)}
    {n n' : NodeCore ι κ} (hstep : NodeStep R z net n n' out) :
    VotingSteps R z net n n.voting n'.voting ∧ ∀ msg ∈ out, n'.voting.Announces z net msg := by
  have hnil : ∀ {v : Voting ι}, ∀ msg ∈ ([] : List (Message ι κ)), v.Announces z net msg := by simp
  have heq : ∀ {v : Voting ι}, v = n.voting → VotingSteps R z net n n.voting v :=
    fun h => h ▸ .refl
  cases hstep with
  | follow term o hterm => exact ⟨.single (votingStep_becomeFollower hterm o), hnil⟩
  | vote args contact o o' o'' hreq =>
    obtain ⟨hsteps, hgranted⟩ := voting_handleRequestVote n hreq contact o o' o''
    refine ⟨hsteps, fun msg hmsg => ?_⟩
    rw [mem_singleton.1 hmsg]
    exact ⟨rfl, hreq, hgranted⟩
  | preVote _ hout =>
    refine ⟨.refl, fun msg hmsg => ?_⟩
    obtain ⟨p, args, rfl, hpre⟩ := hout msg hmsg
    simp [Voting.Announces, hpre]
  | campaign o _ _ hvoter hout =>
    obtain ⟨hvote, hsol⟩ := voting_campaign hvoter o
    exact ⟨.single hvote, fun msg hmsg => hsol (hout msg hmsg).1 msg (hout msg hmsg).2⟩
  | count source args reply hmsg hcand hpre hgranted hterm hrole hawait =>
    exact ⟨.single (.count source args reply hmsg hcand hpre hgranted hterm hrole hawait), hnil⟩
  | lead hrole hwon hsince =>
    rw [voting_becomeLeader]
    exact ⟨.single (.lead hrole hwon hsince), hnil⟩
  | append batch _ happend => exact ⟨heq (voting_leaderAppend happend).1, hnil⟩
  | propose next _ hchange happend =>
    obtain ⟨hsame, hconfig⟩ := voting_leaderAppend happend
    rw [voting_adoptConfig, hsame, hconfig]
    exact ⟨.single (.propose next hchange), hnil⟩
  | send _ _ hout =>
    refine ⟨.refl, fun msg hmsg => ?_⟩
    obtain ⟨p, tag, prev, k, -, rfl⟩ := hout msg hmsg
    trivial
  | sendSnapshot p m uid legacy _ _ =>
    refine ⟨.refl, fun msg hmsg => ?_⟩
    rw [mem_singleton.1 hmsg]
    trivial
  | acknowledged | snapshotSent => exact ⟨heq (n.voting_raiseMatch _ _), hnil⟩
  | accept req o o' _ _ =>
    exact ⟨votingSteps_handleAppendEntries n req o o', announces_answers _ _⟩
  | syncCapture | stop => exact ⟨.refl, hnil⟩
  | syncWrite idx term o => exact ⟨heq (n.voting_syncWrite idx term o), hnil⟩
  | syncFsync idx term covered gen ok =>
    exact ⟨heq (n.voting_syncFsync idx term covered gen ok), hnil⟩
  | syncFinish idx term result _ _ =>
    exact ⟨heq (n.voting_syncFinish idx term result), announces_answers _ _⟩
  | gather => exact ⟨heq n.voting_gather, hnil⟩
  | applySome => exact ⟨heq n.voting_applySome, hnil⟩
  | finishApplied => exact ⟨votingSteps_finishApplied n, hnil⟩
  | captureFence sid => exact ⟨heq (n.voting_captureFence sid), hnil⟩
  | captureInstall o => exact ⟨heq (n.voting_captureInstall o), hnil⟩
  | captureCompact o => exact ⟨heq (n.voting_captureCompact o), hnil⟩
  | receive req o o' _ _ =>
    refine ⟨votingSteps_handleInstallSnapshot n req o o', fun msg hmsg => ?_⟩
    obtain ⟨r, -, rfl⟩ := mem_map.1 hmsg
    trivial
  | installBegin valid =>
    refine ⟨heq (n.voting_installBegin valid), fun msg hmsg => ?_⟩
    obtain ⟨_, _, _, rfl⟩ := mem_installBegin hmsg
    trivial
  | installRename o =>
    refine ⟨heq (n.voting_installRename o), fun msg hmsg => ?_⟩
    obtain ⟨_, _, _, rfl⟩ := mem_installRename hmsg
    trivial
  | installLog o => exact ⟨heq (n.voting_installLog o), announces_answers _ _⟩
  | installRestored =>
    refine ⟨heq n.voting_installRestored, fun msg hmsg => ?_⟩
    obtain ⟨_, _, _, rfl⟩ := mem_installRestored hmsg
    trivial
  | closeStore _ => exact ⟨.refl, announces_answers _ _⟩
  | restart f applied o w _ hrestart => exact ⟨votingSteps_crashRestart hrestart, hnil⟩
  | wipe hwiped => exact ⟨.single (.wipe hwiped), hnil⟩

end VeltrixDB.Consensus
