import Mathlib.Data.List.Nodup
import VeltrixDB.Storage.Index

/-!
# The counters of the index

The index counts its live keys and the values it holds in memory, and keeps the
live keys in an ordered set for range scans.  Every operation changes the three
by what it found before (`storage/shard.go`,
`storage/tombstone_checkpoint.go` and `persistAtomicKVSep` in
`storage/atomic_ops.go`).  The ordered index is a set of keys here.

Main results:

- Theorem `CountedIndex.Counts.step`: each operation keeps the counters in
  step with the map, unless an atomic operation meets a value in memory.
- Theorem `CountedIndex.counts_run`: in an engine of either mode none does, so
  that the counters are right after any sequence of operations.
-/

namespace VeltrixDB.Storage

open Function List ShardedIndex

/-! ## Counting over a list of keys -/

section CountP

variable {α : Type*} [DecidableEq α]

/-- Changing a predicate at one element moves the count by that element. -/
theorem countP_update {l : List α} (hl : l.Nodup) {p : α → Bool} {a : α} {b : Bool}
    (hp : p a = true → a ∈ l) (hb : b = true → a ∈ l) :
    (l.countP (update p a b) : Int) =
      (l.countP p : Int) - (p a).toNat + b.toNat := by
  induction l with
  | nil =>
    have hpa : p a = false := by
      apply Bool.eq_false_iff.mpr
      intro h
      cases hp h
    have hbf : b = false := by
      apply Bool.eq_false_iff.mpr
      intro h
      cases hb h
    simp [hpa, hbf]
  | cons x l ih =>
    rw [nodup_cons] at hl
    rw [countP_cons, countP_cons]
    by_cases hx : x = a
    · subst hx
      -- the rest of the list does not contain the element
      have hrest : l.countP (update p x b) = l.countP p := by
        apply countP_congr
        intro y hy
        have hne : y ≠ x := by
          intro h
          exact hl.1 (h ▸ hy)
        rw [update_of_ne hne]
      rw [hrest, update_self]
      cases b <;> cases p x <;> simp
    · have hmem : a ∈ x :: l → a ∈ l := fun h => (mem_cons.mp h).resolve_left (Ne.symm hx)
      rw [update_of_ne hx]
      have hind := ih hl.2 (fun h => hmem (hp h)) (fun h => hmem (hb h))
      push_cast
      omega

omit [DecidableEq α] in
/-- Elements outside the predicate do not change the count. -/
theorem countP_of_subset {l l' : List α} (hl : l.Nodup) (hl' : l'.Nodup) (hsub : l ⊆ l')
    {p : α → Bool} (hp : ∀ a, p a = true → a ∈ l) : l'.countP p = l.countP p := by
  rw [countP_eq_length_filter, countP_eq_length_filter]
  apply List.Perm.length_eq
  apply (perm_ext_iff_of_nodup (hl'.filter p) (hl.filter p)).mpr
  intro a
  rw [mem_filter, mem_filter]
  constructor
  · intro h
    exact ⟨hp a h.2, h.2⟩
  · intro h
    exact ⟨hsub h.1, h.2⟩

end CountP

/-! ## The index with its counters -/

namespace ShardedIndex

variable (idx : ShardedIndex)

/-- The key has an entry that is not a tombstone. -/
def isLive (key : Key) : Bool :=
  match idx.entries key with
  | some e => !e.flags.tombstone
  | none => false

/-- A value of the key is in memory. -/
def isDirty (key : Key) : Bool := (idx.dirtyValues key).isSome

/-- What the key counter should say. -/
def countLive : Nat := idx.keys.countP idx.isLive

/-- What the value counter should say. -/
def countDirty : Nat := idx.keys.countP idx.isDirty

/-- Remove a key and its value. -/
def del (key : Key) : ShardedIndex where
  entries := Function.update idx.entries key none
  dirtyValues := Function.update idx.dirtyValues key none
  keys := idx.keys
  nodup_keys := idx.nodup_keys
  mem_keys := by
    intro k e h
    by_cases hk : k = key
    · subst hk
      rw [Function.update_self] at h
      cases h
    · rw [Function.update_of_ne hk] at h
      exact idx.mem_keys k e h

/-- Move an entry that is still at the old offset. -/
def updateVLogOffset (key : Key) (oldOffset newOffset : Nat) (newPacked : Bool) : ShardedIndex :=
  idx.update key fun e =>
    if e.flags.tombstone ∨ e.diskOffset ≠ oldOffset then e
    else { e with diskOffset := newOffset, flags := { e.flags with packed := newPacked } }

end ShardedIndex

/-- An entry that is no tombstone. -/
abbrev LiveEntry := { e : IndexEntry // e.flags.tombstone = false }

/-- The index with its counters and the ordered set. -/
structure CountedIndex where
  idx : ShardedIndex
  keyCount : Int
  dirtyCount : Int
  ordered : Key → Bool

namespace CountedIndex

def empty : CountedIndex where
  idx := .empty
  keyCount := 0
  dirtyCount := 0
  ordered := fun _ => false

variable (c : CountedIndex) (key : Key)

/-- Count a key that becomes live and add it to the ordered set. -/
def enliven (idx : ShardedIndex) : CountedIndex :=
  if c.idx.isLive key then { c with idx := idx }
  else
    { c with
      idx := idx
      keyCount := c.keyCount + 1
      ordered := update c.ordered key true }

/-- `put`, with the counters. -/
def put (c : CountedIndex) (key : Key) (entry : LiveEntry)
    (value : Option (List UInt8)) : CountedIndex :=
  let c' := c.enliven key (c.idx.put key entry value)
  if value.isSome && !c.idx.isDirty key then { c' with dirtyCount := c'.dirtyCount + 1 } else c'

/-- `replayPut`, with the counters. -/
def replayPut (inOrder : Bool) (c : CountedIndex) (key : Key) (entry : LiveEntry)
    (value : Option (List UInt8)) : CountedIndex :=
  match c.idx.entries key with
  | none => c.put key entry value
  | some existing =>
    if supersedes inOrder existing entry.1.writeTimestampUs then c else c.put key entry value

/-- Tombstone the entry of a key and drop its value, as `markTombstone`,
`replayMarkTombstone` and `markExpired` do once they found it. -/
def entomb (nowUs : Int) : CountedIndex where
  idx := c.idx.markTombstone key nowUs
  keyCount := if c.idx.isLive key then c.keyCount - 1 else c.keyCount
  dirtyCount := if c.idx.isDirty key then c.dirtyCount - 1 else c.dirtyCount
  ordered := update c.ordered key false

/-- `markTombstone`, with the counters. -/
def markTombstone (nowUs : Int) : CountedIndex :=
  match c.idx.entries key with
  | none => c
  | some _ => c.entomb key nowUs

/-- `replayMarkTombstone`, with the counters. -/
def replayMarkTombstone (inOrder : Bool) (c : CountedIndex) (key : Key)
    (nowUs : Int) : CountedIndex :=
  match c.idx.entries key with
  | none => c
  | some existing => if supersedes inOrder existing nowUs then c else c.entomb key nowUs

/-- `markExpired`: tombstone a key that is still live and past its
deadline. -/
def markExpired (cutoffUs tombUs : Int) : CountedIndex :=
  match c.idx.entries key with
  | none => c
  | some e => if e.flags.tombstone ∨ e.isExpired cutoffUs = false then c else c.entomb key tombUs

/-- `removeTombstone`: drop the key unless a write revived it. -/
def removeTombstone : CountedIndex :=
  if c.idx.isLive key then c
  else
    { idx := c.idx.del key
      keyCount := c.keyCount
      dirtyCount := if c.idx.isDirty key then c.dirtyCount - 1 else c.dirtyCount
      ordered := update c.ordered key false }

/-- A flush drops the value from memory. -/
def clearDirty : CountedIndex :=
  { c with
    idx := c.idx.setDirty key none
    dirtyCount := if c.idx.isDirty key then c.dirtyCount - 1 else c.dirtyCount }

/-- The install of `persistAtomicKVSep`: it drops a value in memory and does
not count it. -/
def atomicInstall (entry : LiveEntry) : CountedIndex :=
  c.enliven key ((c.idx.swap key entry).setDirty key none)

/-- `replayTombstoneRecord`, with the counters. -/
def replayTombstoneRecord (inOrder : Bool) (c : CountedIndex) (key : Key)
    (tsUs : Int) (origin : Bool) : CountedIndex :=
  match c.idx.entries key with
  | none => { c with idx := c.idx.swap key (bareTombstone tsUs origin) }
  | some _ =>
    let c := c.replayMarkTombstone inOrder key tsUs
    if origin then { c with idx := c.idx.setReplicaApplied key tsUs } else c

def updateVLogOffset (c : CountedIndex) (key : Key) (oldOffset newOffset : Nat)
    (newPacked : Bool) : CountedIndex :=
  { c with idx := c.idx.updateVLogOffset key oldOffset newOffset newPacked }

end CountedIndex

/-- The operations on the index. -/
inductive IndexOp where
  | put (key : Key) (entry : LiveEntry) (value : Option (List UInt8))
  | replayPut (inOrder : Bool) (key : Key) (entry : LiveEntry) (value : Option (List UInt8))
  | markTombstone (key : Key) (nowUs : Int)
  | replayMarkTombstone (inOrder : Bool) (key : Key) (nowUs : Int)
  | markExpired (key : Key) (cutoffUs tombUs : Int)
  | removeTombstone (key : Key)
  | clearDirty (key : Key)
  | atomicInstall (key : Key) (entry : LiveEntry)
  | replayTombstoneRecord (inOrder : Bool) (key : Key) (tsUs : Int) (origin : Bool)
  | updateVLogOffset (key : Key) (oldOffset newOffset : Nat) (newPacked : Bool)

def CountedIndex.step (c : CountedIndex) : IndexOp → CountedIndex
  | .put key e v => c.put key e v
  | .replayPut inOrder key e v => c.replayPut inOrder key e v
  | .markTombstone key t => c.markTombstone key t
  | .replayMarkTombstone inOrder key t => c.replayMarkTombstone inOrder key t
  | .markExpired key cut t => c.markExpired key cut t
  | .removeTombstone key => c.removeTombstone key
  | .clearDirty key => c.clearDirty key
  | .atomicInstall key e => c.atomicInstall key e
  | .replayTombstoneRecord inOrder key t origin => c.replayTombstoneRecord inOrder key t origin
  | .updateVLogOffset key o n packed => c.updateVLogOffset key o n packed

def CountedIndex.run (c : CountedIndex) (ops : List IndexOp) : CountedIndex := ops.foldl step c

/-- An atomic install meets a value in memory. -/
def CountedIndex.dropsDirty (c : CountedIndex) : IndexOp → Bool
  | .atomicInstall key _ => c.idx.isDirty key
  | _ => false

/-- What an engine may issue.  Values stay in memory only without key-value
separation (`putOrigin`, `applyWALReplay`), and the atomic operations ask for it. -/
def IndexOp.issued (kvSep : Bool) : IndexOp → Bool
  | .put _ _ value | .replayPut _ _ _ value => !kvSep || value.isNone
  | .atomicInstall .. => kvSep
  | _ => true

/-! ## What the operations change -/

open CountedIndex

section Steps

variable {c : CountedIndex} {key : Key}

/-- The counters agree with the map. -/
structure CountedIndex.Counts (c : CountedIndex) : Prop where
  dirty_mem : ∀ k, c.idx.isDirty k = true → k ∈ c.idx.keys
  keyCount : c.keyCount = c.idx.countLive
  ordered : c.ordered = c.idx.isLive
  dirtyCount : c.dirtyCount = c.idx.countDirty

theorem CountedIndex.counts_empty : empty.Counts where
  dirty_mem := by
    intro k h
    cases h
  keyCount := rfl
  ordered := rfl
  dirtyCount := rfl

theorem ShardedIndex.mem_keys_of_isLive {idx : ShardedIndex} (h : idx.isLive key = true) :
    key ∈ idx.keys := by
  unfold isLive at h
  split at h
  next e he => exact idx.mem_keys key e he
  · cases h

/-- The rule for an operation on one key: the counters move by what the key was and
becomes. -/
theorem CountedIndex.Counts.change (h : c.Counts) {c' : CountedIndex} (key : Key)
    (live dirty : Bool) (hkeys : c.idx.keys ⊆ c'.idx.keys)
    (hmem : live || dirty → key ∈ c'.idx.keys)
    (hlive : c'.idx.isLive = update c.idx.isLive key live)
    (hdirty : c'.idx.isDirty = update c.idx.isDirty key dirty)
    (hkeyCount : c'.keyCount = c.keyCount - (c.idx.isLive key).toNat + live.toNat)
    (hordered : c'.ordered = update c.ordered key live)
    (hdirtyCount : c'.dirtyCount = c.dirtyCount - (c.idx.isDirty key).toNat + dirty.toNat) :
    c'.Counts := by
  have hcountLive : (c'.idx.countLive : Int) =
      c.idx.countLive - (c.idx.isLive key).toNat + live.toNat := by
    unfold countLive
    rw [hlive, countP_update c'.idx.nodup_keys, countP_of_subset c.idx.nodup_keys c'.idx.nodup_keys
      hkeys fun k => mem_keys_of_isLive]
    · intro hl
      exact hkeys (mem_keys_of_isLive hl)
    · intro hl
      exact hmem (by simp [hl])
  have hcountDirty : (c'.idx.countDirty : Int) =
      c.idx.countDirty - (c.idx.isDirty key).toNat + dirty.toNat := by
    unfold countDirty
    rw [hdirty, countP_update c'.idx.nodup_keys, countP_of_subset c.idx.nodup_keys
      c'.idx.nodup_keys hkeys h.dirty_mem]
    · intro hd
      exact hkeys (h.dirty_mem key hd)
    · intro hd
      exact hmem (by simp [hd])
  constructor
  · intro k hk
    rw [hdirty] at hk
    by_cases hkey : k = key
    · subst hkey
      rw [update_self] at hk
      exact hmem (by simp [hk])
    · rw [update_of_ne hkey] at hk
      exact hkeys (h.dirty_mem k hk)
  · have hold := h.keyCount
    omega
  · rw [hordered, h.ordered, hlive]
  · have hold := h.dirtyCount
    omega

/-! ### Which keys are live and dirty afterwards -/

section Shape

variable {idx : ShardedIndex} {f : IndexEntry → IndexEntry} {e : IndexEntry}

namespace ShardedIndex

theorem keys_subset_swap (idx : ShardedIndex) (key : Key) (e : IndexEntry) :
    idx.keys ⊆ (idx.swap key e).keys := by
  intro k hk
  unfold swap
  split
  · exact hk
  · exact mem_cons_of_mem _ hk

theorem mem_keys_swap (idx : ShardedIndex) (key : Key) (e : IndexEntry) :
    key ∈ (idx.swap key e).keys :=
  (idx.swap key e).mem_keys key e (update_self ..)

/-- A swapped key is live just when the new entry is. -/
theorem isLive_swap (idx : ShardedIndex) (key : Key) (e : IndexEntry) :
    (idx.swap key e).isLive = Function.update idx.isLive key (!e.flags.tombstone) := by
  funext k
  by_cases hk : k = key
  · subst hk
    simp [isLive, swap]
  · simp [isLive, swap, hk]

/-- An updated key is live just when its changed entry is. -/
theorem isLive_update (idx : ShardedIndex) (key : Key) (f : IndexEntry → IndexEntry) :
    (idx.update key f).isLive = Function.update idx.isLive key
      (match idx.entries key with
      | some e => !(f e).flags.tombstone
      | none => false) := by
  funext k
  by_cases hk : k = key
  · subst hk
    cases he : idx.entries k with
    | none | some => simp [isLive, update, he]
  · simp [isLive, update, hk]

theorem isLive_update_of_same
    (hf : ∀ e, idx.entries key = some e → (f e).flags.tombstone = e.flags.tombstone) :
    (idx.update key f).isLive = idx.isLive := by
  rw [isLive_update, update_eq_self_iff]
  unfold isLive
  split
  next e he => rw [hf e he]
  · rfl

/-- Only the key itself becomes or stops being dirty. -/
theorem isDirty_setDirty (idx : ShardedIndex) (key : Key) (v : Option (List UInt8)) :
    (idx.setDirty key v).isDirty = Function.update idx.isDirty key v.isSome := by
  funext k
  by_cases hk : k = key
  · subst hk
    simp [isDirty, setDirty]
  · simp [isDirty, setDirty, hk]

end ShardedIndex

end Shape

/-! ### The operations -/

section

variable (c : CountedIndex)

theorem CountedIndex.idx_enliven (key : Key) (idx : ShardedIndex) :
    (c.enliven key idx).idx = idx := by
  unfold enliven
  split <;> rfl

theorem CountedIndex.idx_put (key : Key) (e : LiveEntry) (v : Option (List UInt8)) :
    (c.put key e v).idx = c.idx.put key e v := by
  unfold put
  split
  · exact c.idx_enliven key _
  · exact c.idx_enliven key _

theorem CountedIndex.idx_markExpired (key : Key) (cutoffUs tombUs : Int) :
    (c.markExpired key cutoffUs tombUs).idx = c.idx ∨
      (c.markExpired key cutoffUs tombUs).idx = c.idx.markTombstone key tombUs := by
  unfold markExpired
  split
  · exact .inl rfl
  · split
    · exact .inl rfl
    · exact .inr rfl

theorem CountedIndex.idx_removeTombstone (key : Key) :
    (c.removeTombstone key).idx = c.idx ∨ (c.removeTombstone key).idx = c.idx.del key := by
  unfold removeTombstone
  split
  · exact .inl rfl
  · exact .inr rfl

theorem CountedIndex.idx_markTombstone (key : Key) (nowUs : Int) :
    (c.markTombstone key nowUs).idx = c.idx.markTombstone key nowUs := by
  unfold markTombstone
  cases he : c.idx.entries key with
  | none =>
    unfold ShardedIndex.markTombstone
    rw [he]
  | some => rfl

end

/-- Installing a live entry counts the key once. -/
theorem CountedIndex.Counts.enliven (h : c.Counts) (key : Key) (idx : ShardedIndex) :
    (c.enliven key idx).idx = idx ∧
      (c.enliven key idx).keyCount = c.keyCount - (c.idx.isLive key).toNat + 1 ∧
      (c.enliven key idx).ordered = update c.ordered key true ∧
      (c.enliven key idx).dirtyCount = c.dirtyCount := by
  unfold CountedIndex.enliven
  cases hl : c.idx.isLive key with
  | true =>
    have hself : update c.ordered key true = c.ordered := by
      rw [update_eq_self_iff, h.ordered, hl]
    simp [hself]
  | false => simp

theorem CountedIndex.Counts.put (h : c.Counts) (key : Key) (entry : LiveEntry)
    (value : Option (List UInt8)) : (c.put key entry value).Counts := by
  obtain ⟨hidx, hkeyCount, hordered, hdirtyCount⟩ := h.enliven key (c.idx.put key entry value)
  have hlive : (c.idx.put key entry value).isLive = update c.idx.isLive key true := by
    have hswap := c.idx.isLive_swap key entry.1
    rw [entry.2] at hswap
    cases value <;> exact hswap
  have hkeys : c.idx.keys ⊆ (c.idx.put key entry value).keys := by
    cases value <;> exact c.idx.keys_subset_swap key entry.1
  have hmem : key ∈ (c.idx.put key entry value).keys := by
    cases value <;> exact c.idx.mem_keys_swap key entry.1
  have hdirty : (c.idx.put key entry value).isDirty =
      update c.idx.isDirty key (value.isSome || c.idx.isDirty key) := by
    cases value with
    | none => exact (update_eq_self key c.idx.isDirty).symm
    | some v => exact (c.idx.swap key entry.1).isDirty_setDirty key (some v)
  unfold CountedIndex.put
  split
  next hnew =>
    rw [Bool.and_eq_true, Bool.not_eq_true'] at hnew
    apply h.change key true (value.isSome || c.idx.isDirty key)
    · show c.idx.keys ⊆ (c.enliven key _).idx.keys
      rw [hidx]
      exact hkeys
    · intro _
      show key ∈ (c.enliven key _).idx.keys
      rw [hidx]
      exact hmem
    · show (c.enliven key _).idx.isLive = _
      rw [hidx]
      exact hlive
    · show (c.enliven key _).idx.isDirty = _
      rw [hidx]
      exact hdirty
    · exact hkeyCount
    · exact hordered
    · show (c.enliven key _).dirtyCount + 1 = _
      rw [hdirtyCount, hnew.1, hnew.2]
      simp
  next hold =>
    apply h.change key true (value.isSome || c.idx.isDirty key)
    · rw [hidx]
      exact hkeys
    · intro _
      rw [hidx]
      exact hmem
    · rw [hidx]
      exact hlive
    · rw [hidx]
      exact hdirty
    · exact hkeyCount
    · exact hordered
    · rw [hdirtyCount]
      cases hv : value.isSome <;> cases hd : c.idx.isDirty key
      · simp
      · simp
      · simp [hv, hd] at hold
      · simp

theorem CountedIndex.Counts.replayPut (h : c.Counts) (inOrder : Bool) (key : Key)
    (entry : LiveEntry) (value : Option (List UInt8)) :
    (c.replayPut inOrder key entry value).Counts := by
  unfold CountedIndex.replayPut
  split
  · exact h.put key entry value
  · split
    · exact h
    · exact h.put key entry value

/-- The key has no entry, or the entry is a tombstone, once it is entombed. -/
theorem ShardedIndex.isLive_markTombstone (idx : ShardedIndex) (key : Key) (nowUs : Int) :
    (idx.markTombstone key nowUs).isLive = Function.update idx.isLive key false := by
  unfold markTombstone
  split
  next he =>
    have hlive : idx.isLive key = false := by
      unfold isLive
      rw [he]
    rw [eq_comm, Function.update_eq_self_iff, hlive]
  next e he =>
    show (idx.update key _).isLive = _
    rw [isLive_update, he]
    rfl

section

variable (h : c.Counts)
include h

/-- Entombing a key uncounts it, if it was live. -/
theorem CountedIndex.Counts.entomb {e : IndexEntry} (he : c.idx.entries key = some e)
    (nowUs : Int) : (c.entomb key nowUs).Counts := by
  have hidx : c.idx.markTombstone key nowUs =
      (c.idx.update key (·.markTombstone nowUs)).setDirty key none := by
    unfold ShardedIndex.markTombstone
    rw [he]
  apply h.change key false false
  · show c.idx.keys ⊆ (c.idx.markTombstone key nowUs).keys
    rw [hidx]
    exact List.Subset.refl _
  · intro hf
    cases hf
  · exact c.idx.isLive_markTombstone key nowUs
  · show (c.idx.markTombstone key nowUs).isDirty = _
    rw [hidx]
    exact ShardedIndex.isDirty_setDirty _ key none
  · show (if c.idx.isLive key then c.keyCount - 1 else c.keyCount) = _
    cases c.idx.isLive key <;> simp
  · rfl
  · show (if c.idx.isDirty key then c.dirtyCount - 1 else c.dirtyCount) = _
    cases c.idx.isDirty key <;> simp

theorem CountedIndex.Counts.markTombstone (key : Key) (nowUs : Int) :
    (c.markTombstone key nowUs).Counts := by
  unfold CountedIndex.markTombstone
  split
  · exact h
  next e he => exact h.entomb he nowUs

theorem CountedIndex.Counts.markExpired (key : Key) (cutoffUs tombUs : Int) :
    (c.markExpired key cutoffUs tombUs).Counts := by
  unfold CountedIndex.markExpired
  split
  · exact h
  next e he =>
    split
    · exact h
    · exact h.entomb he tombUs

theorem CountedIndex.Counts.replayMarkTombstone (inOrder : Bool) (key : Key) (nowUs : Int) :
    (c.replayMarkTombstone inOrder key nowUs).Counts := by
  unfold CountedIndex.replayMarkTombstone
  split
  · exact h
  next e he =>
    split
    · exact h
    · exact h.entomb he nowUs

theorem CountedIndex.Counts.update {f : IndexEntry → IndexEntry}
    (hf : ∀ e, c.idx.entries key = some e → (f e).flags.tombstone = e.flags.tombstone) :
    { c with idx := c.idx.update key f }.Counts :=
  { h with
    keyCount := by
      rw [h.keyCount]
      unfold countLive
      show _ = ((c.idx.keys.countP (c.idx.update key f).isLive : Nat) : Int)
      rw [isLive_update_of_same hf]
    ordered := by
      rw [isLive_update_of_same hf]
      exact h.ordered }

theorem CountedIndex.Counts.replayTombstoneRecord (inOrder : Bool) (key : Key) (tsUs : Int)
    (origin : Bool) : (c.replayTombstoneRecord inOrder key tsUs origin).Counts := by
  unfold CountedIndex.replayTombstoneRecord
  split
  next he =>
    have hdead : c.idx.isLive key = false := by
      unfold isLive
      rw [he]
    apply h.change key false (c.idx.isDirty key)
    · exact c.idx.keys_subset_swap key _
    · intro _
      exact c.idx.mem_keys_swap key _
    · exact c.idx.isLive_swap key _
    · exact (update_eq_self key c.idx.isDirty).symm
    · rw [hdead]
      simp
    · rw [eq_comm, update_eq_self_iff, h.ordered, hdead]
    · simp
  · have hmark := h.replayMarkTombstone inOrder key tsUs
    split
    · apply hmark.update
      intro e _
      split <;> rfl
    · exact hmark

theorem CountedIndex.Counts.removeTombstone (key : Key) : (c.removeTombstone key).Counts := by
  unfold CountedIndex.removeTombstone
  cases hl : c.idx.isLive key with
  | true => exact h
  | false =>
    apply h.change key false false
    · exact List.Subset.refl _
    · intro hf
      cases hf
    · funext k
      by_cases hk : k = key
      · subst hk
        simp [isLive, del]
      · simp [isLive, del, hk]
    · exact c.idx.isDirty_setDirty key none
    · simp [hl]
    · rfl
    · cases c.idx.isDirty key <;> simp

theorem CountedIndex.Counts.clearDirty (key : Key) : (c.clearDirty key).Counts := by
  apply h.change key (c.idx.isLive key) false
  · exact List.Subset.refl _
  · intro hl
    rw [Bool.or_false] at hl
    exact mem_keys_of_isLive hl
  · exact (update_eq_self key c.idx.isLive).symm
  · exact c.idx.isDirty_setDirty key none
  · show c.keyCount = _
    omega
  · rw [← h.ordered, update_eq_self]
    rfl
  · show (if c.idx.isDirty key then c.dirtyCount - 1 else c.dirtyCount) = _
    cases c.idx.isDirty key <;> simp

/-- Without a value in memory an atomic install counts right. -/
theorem CountedIndex.Counts.atomicInstall (hclean : c.idx.isDirty key = false) (entry : LiveEntry) :
    (c.atomicInstall key entry).Counts := by
  obtain ⟨hidx, hkeyCount, hordered, hdirtyCount⟩ :=
    h.enliven key ((c.idx.swap key entry).setDirty key none)
  have hlive := c.idx.isLive_swap key entry.1
  rw [entry.2] at hlive
  unfold CountedIndex.atomicInstall
  apply h.change key true false
  · rw [hidx]
    exact c.idx.keys_subset_swap key entry.1
  · intro _
    rw [hidx]
    exact c.idx.mem_keys_swap key entry.1
  · rw [hidx]
    exact hlive
  · rw [hidx]
    exact (c.idx.swap key entry.1).isDirty_setDirty key none
  · exact hkeyCount
  · exact hordered
  · rw [hdirtyCount, hclean]
    simp

/-- Each operation keeps the counters in step with the map; an atomic one must not
meet a value in memory. -/
theorem CountedIndex.Counts.step {op : IndexOp} (hdrop : c.dropsDirty op = false) :
    (c.step op).Counts := by
  cases op with
  | put key e v => exact h.put key e v
  | replayPut inOrder key e v => exact h.replayPut inOrder key e v
  | markTombstone key t => exact h.markTombstone key t
  | replayMarkTombstone inOrder key t => exact h.replayMarkTombstone inOrder key t
  | markExpired key cut t => exact h.markExpired key cut t
  | removeTombstone key => exact h.removeTombstone key
  | clearDirty key => exact h.clearDirty key
  | atomicInstall key e => exact h.atomicInstall hdrop e
  | replayTombstoneRecord inOrder key t origin => exact h.replayTombstoneRecord inOrder key t origin
  | updateVLogOffset =>
    apply h.update
    intro e _
    split <;> rfl

end

/-! ### Values in memory -/

/-- No value is in memory. -/
def CountedIndex.Clean (c : CountedIndex) : Prop := ∀ k, c.idx.dirtyValues k = none

theorem CountedIndex.Clean.isDirty (h : c.Clean) (key : Key) : c.idx.isDirty key = false := by
  rw [ShardedIndex.isDirty, h key]
  rfl

/-- Dropping a value keeps memory clean. -/
theorem CountedIndex.Clean.drop (h : c.Clean) (key k : Key) :
    update c.idx.dirtyValues key none k = none := by
  rw [update_apply, h k, ite_self]

theorem CountedIndex.Clean.markTombstone (h : c.Clean) (key k : Key) (nowUs : Int) :
    (c.idx.markTombstone key nowUs).dirtyValues k = none := by
  unfold ShardedIndex.markTombstone
  split
  · exact h k
  · exact h.drop key k

/-- With key-value separation values never come into memory. -/
theorem CountedIndex.Clean.step (h : c.Clean) {op : IndexOp} (hop : op.issued true = true) :
    (c.step op).Clean := by
  intro k
  cases op with
  | put key e v =>
    obtain rfl : v = none := by simpa [IndexOp.issued] using hop
    rw [CountedIndex.step, idx_put]
    exact h k
  | replayPut inOrder key e v =>
    obtain rfl : v = none := by simpa [IndexOp.issued] using hop
    simp only [CountedIndex.step, replayPut]
    repeat' split
    all_goals first | exact h k | (rw [idx_put]; exact h k)
  | markTombstone key t =>
    rw [CountedIndex.step, idx_markTombstone]
    exact h.markTombstone key k t
  | replayMarkTombstone inOrder key t =>
    simp only [CountedIndex.step, replayMarkTombstone]
    repeat' split
    all_goals first | exact h k | exact h.markTombstone key k t
  | markExpired key cut t =>
    rcases c.idx_markExpired key cut t with heq | heq
    · rw [CountedIndex.step, heq]
      exact h k
    · rw [CountedIndex.step, heq]
      exact h.markTombstone key k t
  | removeTombstone key =>
    rcases c.idx_removeTombstone key with heq | heq
    · rw [CountedIndex.step, heq]
      exact h k
    · rw [CountedIndex.step, heq]
      exact h.drop key k
  | clearDirty key => exact h.drop key k
  | atomicInstall key e =>
    rw [CountedIndex.step, atomicInstall, idx_enliven]
    exact h.drop key k
  | replayTombstoneRecord inOrder key t origin =>
    simp only [CountedIndex.step, replayTombstoneRecord, replayMarkTombstone]
    repeat' split
    all_goals first | exact h k | exact h.markTombstone key k t
  | updateVLogOffset => exact h k

end Steps

/-! ## Any sequence of operations -/

namespace CountedIndex

/-- The counters after a run, from any state in step with them. -/
theorem Counts.run {kvSep : Bool} {c : CountedIndex} (h : c.Counts) (hclean : kvSep = true → c.Clean)
    {ops : List IndexOp} (hops : ∀ op ∈ ops, op.issued kvSep = true) : (c.run ops).Counts := by
  induction ops generalizing c with
  | nil => exact h
  | cons op ops ih =>
    have hop := hops op mem_cons_self
    have hdrop : c.dropsDirty op = false := by
      cases op with
      | atomicInstall key e => exact (hclean hop).isDirty key
      | _ => rfl
    refine ih (h.step hdrop) (fun hkv => ?_) fun op' hop' => hops op' (mem_cons_of_mem _ hop')
    subst hkv
    exact (hclean rfl).step hop

/-- After any sequence of the operations that an engine issues, in either mode, the
key counter is the number of live keys, the ordered set holds just those, and the
value counter is the number of values in memory. -/
theorem counts_run (kvSep : Bool) (ops : List IndexOp)
    (hops : ∀ op ∈ ops, op.issued kvSep = true) :
    (empty.run ops).keyCount = (empty.run ops).idx.countLive ∧
      (∀ k, (empty.run ops).ordered k = (empty.run ops).idx.isLive k) ∧
      (empty.run ops).dirtyCount = (empty.run ops).idx.countDirty := by
  have hcounts := counts_empty.run (fun _ _ => rfl) hops
  exact ⟨hcounts.keyCount, fun k => by rw [hcounts.ordered], hcounts.dirtyCount⟩

/-- Both modes: an atomic operation on a key that comes back after a tombstone, and a
value that is overwritten, flushed and reaped. -/
theorem counts_run_modes :
    (empty.run [.put [107] ⟨⟨0, 0, 1, 1, 10, 0, 0, {}⟩, rfl⟩ none, .markTombstone [107] 11,
        .replayTombstoneRecord false [108] 5 true, .atomicInstall [107] ⟨⟨8, 0, 1, 1, 12, 0, 0, {}⟩, rfl⟩,
        .updateVLogOffset [107] 8 16 true, .removeTombstone [108]]).keyCount = 1 ∧
      (empty.run [.put [107] ⟨⟨0, 0, 1, 1, 10, 0, 0, {}⟩, rfl⟩ (some [97]),
        .replayPut false [107] ⟨⟨0, 0, 1, 1, 9, 0, 0, {}⟩, rfl⟩ (some [98]),
        .put [108] ⟨⟨0, 0, 1, 1, 11, 0, 0, {}⟩, rfl⟩ (some [99]), .clearDirty [107],
        .markTombstone [108] 12, .removeTombstone [108]]).dirtyCount = 0 :=
  ⟨(counts_run true _ (by decide)).1, (counts_run false _ (by decide)).2.2⟩

end CountedIndex

end VeltrixDB.Storage
