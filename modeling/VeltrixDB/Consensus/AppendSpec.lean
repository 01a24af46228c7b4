import VeltrixDB.Consensus.Append
import VeltrixDB.Consensus.Contiguous

/-!
# What AppendEntries does to the log

On a log without gaps the append loop skips the entries that the log has with the
same terms and supersedes the rest.

Main results:

- Definition `NodeCore.Appended`: the outcomes of the append loop.
- Theorem `NodeCore.appended_appendLoop`: there are no others.
- Theorem `NodeCore.handled_appendMatched`: the outcomes of a request.
-/

namespace VeltrixDB.Consensus

open List

namespace NodeCore

variable {ι κ : Type} [CommandCodec ι κ]

/-- The first `k` entries are in the log after `prev`, with the same terms. -/
def Holds (n : NodeCore ι κ) (prev : Nat) (entries : List (LogEntry κ)) (k : Nat) : Prop :=
  prev + k ≤ n.lastLogIndex ∧
    ∀ j e, j < k → entries[j]? = some e → n.logTerm (prev + 1 + j) = e.term

/-- The log is superseded from the entry after the first `k` on: it ends there,
or disagrees. -/
def Conflicts (n : NodeCore ι κ) (prev : Nat) (entries : List (LogEntry κ)) (k : Nat) : Prop :=
  ∃ e, entries[k]? = some e ∧
    (n.lastLogIndex < prev + 1 + k ∨ n.logTerm (prev + 1 + k) ≠ e.term)

/-- The outcomes of the append loop, and whether what was new is queued. -/
inductive Appended (n : NodeCore ι κ) (prev : Nat) (entries : List (LogEntry κ)) :
    NodeCore ι κ → Bool → Prop where
  | known (hholds : n.Holds prev entries entries.length) : Appended n prev entries n true
  | superseded (k : Nat) (cfg : Configuration ι) (i : Nat) (hholds : n.Holds prev entries k)
      (hconflict : n.Conflicts prev entries k) (hhealthy : n.store.failed = false)
      (hconfig : (cfg, i) =
        (latestConfig (n.log.take (prev + k - n.lastIncludedIndex) ++ entries.drop k)).getD
          (n.baseConfig, n.baseConfigIndex)) :
      Appended n prev entries
        { n with
          log := n.log.take (prev + k - n.lastIncludedIndex) ++ entries.drop k
          store := { n.store with recs := n.store.recs ++ entries.drop k }
          durableIndex := min n.durableIndex (prev + k)
          config := cfg
          configIndex := i } true
  | refused (k : Nat) (cfg : Configuration ι) (i : Nat) (hholds : n.Holds prev entries k)
      (hconflict : n.Conflicts prev entries k)
      (hconfig : (cfg, i) =
        (latestConfig (n.log.take (prev + k - n.lastIncludedIndex))).getD
          (n.baseConfig, n.baseConfigIndex)) :
      Appended n prev entries
        { n with
          log := n.log.take (prev + k - n.lastIncludedIndex)
          durableIndex := min n.durableIndex (prev + k)
          config := cfg
          configIndex := i } false

variable {n : NodeCore ι κ} {entries : List (LogEntry κ)} {prev : Nat}

theorem refreshConfigFromLog_eq (n : NodeCore ι κ) :
    n.refreshConfigFromLog = { n with
      config := ((latestConfig n.log).getD (n.baseConfig, n.baseConfigIndex)).1
      configIndex := ((latestConfig n.log).getD (n.baseConfig, n.baseConfigIndex)).2 } := by
  rw [refreshConfigFromLog]
  split
  next h =>
    rw [h]
    rfl
  next h =>
    rw [h]
    rfl

section

variable (h : n.Contiguous) (hdur : n.durableIndex ≤ n.lastLogIndex)
include h hdur

omit [CommandCodec ι κ] in
theorem truncateAt_eq {i : Nat} (hi : n.lastIncludedIndex < i) :
    n.truncateAt i = { n with
      log := n.log.take (i - 1 - n.lastIncludedIndex)
      durableIndex := min n.durableIndex (i - 1) } := by
  rw [truncateAt, h.logFirstIndex_eq]
  split
  · congr 1
    · congr 1
      omega
    · split <;> omega
  next hlt =>
    have hlast := h.lastLogIndex_eq
    rw [take_of_length_le (by omega), Nat.min_eq_left (by omega)]

theorem appended_supersede {k : Nat} (hprev : n.lastIncludedIndex ≤ prev)
    (hholds : n.Holds prev entries k) (hconflict : n.Conflicts prev entries k) :
    Appended n prev entries (n.supersede (prev + 1 + k) (entries.drop k)).1
      (n.supersede (prev + 1 + k) (entries.drop k)).2 := by
  have hne : entries.drop k ≠ [] := by
    obtain ⟨e, he, -⟩ := hconflict
    rw [ne_nil_iff_length_pos, length_drop]
    have := (List.getElem?_eq_some_iff.1 he).1
    omega
  rw [supersede, truncateAt_eq h hdur (by omega)]
  rw [show prev + 1 + k - 1 = prev + k by omega]
  split
  next store hstore =>
    obtain ⟨rfl, hhealthy⟩ := LogStore.enqueue_some hstore
    rw [refreshConfigFromLog_eq]
    exact .superseded k _ _ hholds hconflict (hhealthy.resolve_right hne) rfl
  · rw [refreshConfigFromLog_eq]
    exact .refused k _ _ hholds hconflict rfl

theorem appended_appendLoop_drop (hprev : n.lastIncludedIndex ≤ prev)
    (entries : List (LogEntry κ)) (k : Nat) (hk : k ≤ entries.length) (hholds : n.Holds prev entries k) :
    Appended n prev entries (n.appendLoop (prev + k) (entries.drop k)).1
      (n.appendLoop (prev + k) (entries.drop k)).2 := by
  -- induction on the number of entries left
  induction hleft : entries.length - k generalizing k with
  | zero =>
    obtain rfl : k = entries.length := by omega
    rw [drop_length]
    exact .known hholds
  | succ left ih =>
    have hlt : k < entries.length := by omega
    rw [drop_eq_getElem_cons hlt, appendLoop]
    split
    next hsame =>
      refine ih (k + 1) (by omega) ⟨by omega, fun j e hj he => ?_⟩ (by omega)
      rcases Nat.lt_succ_iff_lt_or_eq.1 hj with hj | rfl
      · exact hholds.2 j e hj he
      · rw [List.getElem?_eq_getElem hlt] at he
        cases he
        rw [show prev + 1 + j = prev + j + 1 by omega]
        exact hsame.2
    next hdiff =>
      rw [← drop_eq_getElem_cons hlt, show prev + k + 1 = prev + 1 + k by omega]
      refine appended_supersede h hdur hprev hholds ⟨_, List.getElem?_eq_getElem hlt, ?_⟩
      rw [show prev + 1 + k = prev + k + 1 by omega]
      by_cases hle : prev + k + 1 ≤ n.lastLogIndex
      · exact .inr fun hterm => hdiff ⟨hle, hterm⟩
      · exact .inl (by omega)

theorem appended_appendLoop (hprev : n.lastIncludedIndex ≤ prev) (hle : prev ≤ n.lastLogIndex)
    (entries : List (LogEntry κ)) :
    Appended n prev entries (n.appendLoop prev entries).1 (n.appendLoop prev entries).2 :=
  appended_appendLoop_drop h hdur hprev entries 0 (Nat.zero_le _) ⟨hle, fun j e hj => by omega⟩

end

/-! ## Requests -/

/-- A request passes the consistency check at `prev`, after which it carries
`entries` that the snapshot does not cover. -/
inductive Matched (n : NodeCore ι κ) (req : AppendRequest ι κ) : Nat → List (LogEntry κ) → Prop where
  | direct (hprev : n.lastIncludedIndex ≤ req.args.prevLogIndex)
      (hlast : req.args.prevLogIndex ≤ n.lastLogIndex)
      (hterm : 0 < req.args.prevLogIndex →
        n.logTerm req.args.prevLogIndex = req.args.prevLogTerm) :
      Matched n req req.args.prevLogIndex req.args.entries
  | overlapping (hprev : req.args.prevLogIndex < n.lastIncludedIndex)
      (hlen : n.lastIncludedIndex < req.args.prevLogIndex + req.args.entries.length) :
      Matched n req n.lastIncludedIndex
        (req.args.entries.drop (n.lastIncludedIndex - req.args.prevLogIndex))

/-- The answer to a matched request: the log is durable through the acknowledged
index, or the answer waits for it. -/
def Acknowledges (n : NodeCore ι κ) (req : AppendRequest ι κ) (target : Nat) :
    AppendEntriesReply ⊕ AeWaiter ι κ → Prop
  | .inl reply => ∃ i, i ≤ target ∧ i ≤ n.durableIndex ∧ reply = n.success i
  | .inr w => w = { term := n.currentTerm, target := target, targetTerm := n.logTerm target
                    request := req }

/-- The outcomes of a request whose term was accepted. -/
inductive Handled (n : NodeCore ι κ) (req : AppendRequest ι κ) :
    NodeCore ι κ → AppendEntriesReply ⊕ AeWaiter ι κ → Prop where
  | covered (hprev : req.args.prevLogIndex < n.lastIncludedIndex)
      (hlen : req.args.prevLogIndex + req.args.entries.length ≤ n.lastIncludedIndex) :
      Handled n req n (.inl (n.success (req.args.prevLogIndex + req.args.entries.length)))
  | refused (reply : AppendEntriesReply) (hreply : reply.success = false) :
      Handled n req n (.inl reply)
  | unqueued {prev entries c} (hmatched : n.Matched req prev entries)
      (happended : Appended n prev entries c false) : Handled n req c (.inl c.refusal)
  | appended {prev entries c answer} (hmatched : n.Matched req prev entries)
      (happended : Appended n prev entries c true)
      (hanswer : c.Acknowledges req (prev + entries.length) answer) :
      Handled n req
        { c with commitIndex := max c.commitIndex
                   (min req.args.leaderCommit (prev + entries.length)) } answer

omit [CommandCodec ι κ] in
theorem Matched.bounds {req : AppendRequest ι κ} (hm : n.Matched req prev entries)
    (h : n.Contiguous) : n.lastIncludedIndex ≤ prev ∧ prev ≤ n.lastLogIndex := by
  have hlast := h.lastLogIndex_eq
  cases hm with
  | direct hprev hlast => exact ⟨hprev, hlast⟩
  | overlapping _ _ => exact ⟨Nat.le_refl _, by omega⟩

theorem handled_appendFrom (h : n.Contiguous) (hdur : n.durableIndex ≤ n.lastLogIndex)
    {req : AppendRequest ι κ} (hm : n.Matched req prev entries) :
    Handled n req (n.appendFrom req prev entries).1 (n.appendFrom req prev entries).2 := by
  have hap := appended_appendLoop h hdur (hm.bounds h).1 (hm.bounds h).2 entries
  simp only [appendFrom]
  split
  next hok =>
    rw [hok] at hap
    simp only [acknowledge]
    split
    · exact .appended hm hap ⟨_, Nat.min_le_left _ _, Nat.min_le_right _ _, rfl⟩
    · split
      next hle => exact .appended hm hap ⟨_, Nat.le_refl _, hle, rfl⟩
      · exact .appended hm hap rfl
  next hfail =>
    rw [Bool.not_eq_true] at hfail
    rw [hfail] at hap
    exact .unqueued hm hap

/-- A request whose term was accepted has no other outcomes. -/
theorem handled_appendMatched (h : n.Contiguous) (hdur : n.durableIndex ≤ n.lastLogIndex)
    (req : AppendRequest ι κ) :
    Handled n req (n.appendMatched req).1 (n.appendMatched req).2 := by
  have hlast := h.lastLogIndex_eq
  simp only [appendMatched]
  split
  next hcov =>
    simp only [appendChecked]
    split
    · exact .refused _ rfl
    next hle =>
      split
      · exact .refused _ rfl
      next hterm =>
        rw [not_and] at hle hterm
        refine handled_appendFrom h hdur (.direct (by omega) ?_ fun hpos => ?_)
        · by_cases hpos : 0 < req.args.prevLogIndex
          · exact Nat.le_of_not_lt (hle hpos)
          · omega
        · exact not_not.1 (hterm hpos)
  next hcov =>
    split
    · exact .covered (by omega) (by omega)
    next hlen =>
      have hm : n.Matched req n.lastIncludedIndex
          (req.args.entries.drop (n.lastIncludedIndex - req.args.prevLogIndex)) :=
        .overlapping (by omega) (by omega)
      simp only [appendChecked]
      rw [if_neg (by omega)]
      split
      next hterm =>
        refine absurd ?_ hterm.2
        rw [logTerm, if_neg (by omega), if_pos rfl]
      · exact handled_appendFrom h hdur hm

end NodeCore

end VeltrixDB.Consensus
