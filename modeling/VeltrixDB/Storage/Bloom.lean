import Mathlib.Logic.Relation
import VeltrixDB.Lib.Parties
import VeltrixDB.Storage.IndexCount
import VeltrixDB.Storage.Replay

/-!
# The Bloom filter of a shard

Reads of a shard ask its filter before they take the shard lock
(`getHashed` in `storage/shard.go`).  Writers set the bits of their key
before they take the lock, one bit at a time, and `vacuumBloomFilters` clears
the filter word by word and sets the bits of the live keys again while it holds
the lock for reading; the filter follows `storage/bloom_shard.go`.

Main results:

- Theorem `BloomSys.Sound.step`: every step that meets the condition keeps the
  bits of live keys and of waiting writers.
- Theorem `BloomSys.Run.mayContain`: as long as no word is cleared while a
  writer waits with bits set, the filter holds every live key whenever no
  rebuild is under way.
-/

namespace VeltrixDB.Storage

open Function List Parties ShardedIndex
open Bytes (fnv64a)

/-! ## The filter -/

/-- A filter of `words` words of 64 bits with `k` probes. -/
structure ShardBloom where
  bits : Nat → Bool
  words : Nat
  k : Nat

/-- Double `pow2` until it is not less than `words`; 64 rounds are
enough for a 64-bit number. -/
def pow2AtLeast (words : Nat) : Nat → Nat → Nat
  | 0, pow2 => pow2
  | rounds + 1, pow2 => if pow2 < words then pow2AtLeast words rounds (2 * pow2) else pow2

namespace ShardBloom

/-- `newShardBloom`. -/
def new (bitCount k : Nat) : ShardBloom where
  bits := fun _ => false
  words := pow2AtLeast ((max bitCount 64 + 63) / 64) 64 1
  k := if k = 0 then 7 else min k 16

variable (b : ShardBloom)

/-- The bit of a probe: the halves of the hash step through the filter. -/
def pos (fullHash : UInt64) (i : Nat) : Nat :=
  (fullHash.toNat % 2 ^ 32 + i * (fullHash.toNat / 2 ^ 32)) % (b.words * 64)

def setBit (p : Nat) : ShardBloom :=
  { b with bits := update b.bits p true }

def add (fullHash : UInt64) : ShardBloom :=
  (List.range b.k).foldl (fun b i => b.setBit (b.pos fullHash i)) b

def mayContain (fullHash : UInt64) : Bool :=
  (List.range b.k).all fun i => b.bits (b.pos fullHash i)

/-- Clear one word, as `Reset` does for all of them. -/
def clearWord (word : Nat) : ShardBloom :=
  { b with bits := fun p => if p / 64 = word then false else b.bits p }

end ShardBloom

/-! ## The system -/

/-- A put, or a put of the replay, that has set `done` bits and waits to
insert its entry. -/
structure BloomWriter where
  key : Key
  entry : LiveEntry
  value : Option (List UInt8)
  replay : Option Bool
  done : Nat

inductive VacuumStage where
  | idle
  | resetting (word : Nat)
  | readding (todo : List UInt64) (done : Nat)

/-- A shard, its filter, its writers and the rebuild. -/
structure BloomSys where
  bloom : ShardBloom
  idx : ShardedIndex
  writers : List BloomWriter
  vacuum : VacuumStage

def BloomSys.create (bitCount k : Nat) : BloomSys where
  bloom := .new bitCount k
  idx := .empty
  writers := []
  vacuum := .idle

def BloomSys.getHashed (s : BloomSys) (key : Key) : Option (IndexEntry × Option (List UInt8)) :=
  if s.bloom.mayContain (fnv64a key) then
    (s.idx.entries key).map fun e => (e, s.idx.dirtyValues key)
  else none

def BloomWriter.insert (w : BloomWriter) (idx : ShardedIndex) : ShardedIndex :=
  match w.replay with
  | none => idx.put w.key w.entry w.value
  | some inOrder => idx.replayPut inOrder w.key w.entry w.value

/-- One step.  Everything that takes the shard lock for writing waits until no
rebuild holds it; `P` is asked of a word that is cleared. -/
inductive BloomSys.Step (P : BloomSys → Prop) : BloomSys → BloomSys → Prop
  | start (s : BloomSys) (key : Key) (entry : LiveEntry) (value : Option (List UInt8))
      (replay : Option Bool) :
      Step P s { s with writers := ⟨key, entry, value, replay, 0⟩ :: s.writers }
  | setBit (s : BloomSys) (pre post : List BloomWriter) (w : BloomWriter)
      (hw : s.writers = pre ++ w :: post) (hdone : w.done < s.bloom.k) :
      Step P s
        { s with
          bloom := s.bloom.setBit (s.bloom.pos (fnv64a w.key) w.done)
          writers := pre ++ { w with done := w.done + 1 } :: post }
  | insert (s : BloomSys) (pre post : List BloomWriter) (w : BloomWriter)
      (hw : s.writers = pre ++ w :: post) (hdone : w.done = s.bloom.k) (hlock : s.vacuum = .idle) :
      Step P s { s with idx := w.insert s.idx, writers := pre ++ post }
  | atomic (s : BloomSys) (key : Key) (entry : LiveEntry) (hlock : s.vacuum = .idle) :
      Step P s
        { s with
          idx := (s.idx.swap key entry).setDirty key none
          bloom := s.bloom.add (fnv64a key) }
  | delete (s : BloomSys) (key : Key) (nowUs : Int) (hlock : s.vacuum = .idle) :
      Step P s { s with idx := s.idx.markTombstone key nowUs }
  | reap (s : BloomSys) (key : Key) (hdead : s.idx.isLive key = false) (hlock : s.vacuum = .idle) :
      Step P s { s with idx := s.idx.del key }
  | vacuum (s : BloomSys) (hlock : s.vacuum = .idle) : Step P s { s with vacuum := .resetting 0 }
  | clearWord (s : BloomSys) (word : Nat) (hstage : s.vacuum = .resetting word)
      (hword : word < s.bloom.words) (hP : P s) :
      Step P s { s with bloom := s.bloom.clearWord word, vacuum := .resetting (word + 1) }
  | scan (s : BloomSys) (todo : List UInt64) (hstage : s.vacuum = .resetting s.bloom.words)
      (htodo : todo.Perm ((s.idx.keys.filter s.idx.isLive).map fnv64a)) :
      Step P s { s with vacuum := .readding todo 0 }
  | readd (s : BloomSys) (h : UInt64) (todo : List UInt64) (done : Nat)
      (hstage : s.vacuum = .readding (h :: todo) done) (hdone : done < s.bloom.k) :
      Step P s
        { s with
          bloom := s.bloom.setBit (s.bloom.pos h done)
          vacuum := .readding (h :: todo) (done + 1) }
  | next (s : BloomSys) (h : UInt64) (todo : List UInt64)
      (hstage : s.vacuum = .readding (h :: todo) s.bloom.k) :
      Step P s { s with vacuum := .readding todo 0 }
  | finish (s : BloomSys) (hstage : s.vacuum = .readding [] 0) :
      Step P s { s with vacuum := .idle }

def BloomSys.Run (P : BloomSys → Prop) (bitCount k : Nat) (s : BloomSys) : Prop :=
  Relation.ReflTransGen (BloomSys.Step P) (.create bitCount k) s

def BloomSys.NoneWaiting (s : BloomSys) : Prop := ∀ w ∈ s.writers, w.done = 0

/-! ## Filters grow -/

section Filter

variable {b b' : ShardBloom} {h : UInt64}

/-- The filter has at least the bits of another one. -/
structure ShardBloom.Le (b b' : ShardBloom) : Prop where
  words : b'.words = b.words
  k : b'.k = b.k
  bits : ∀ p, b.bits p = true → b'.bits p = true

theorem ShardBloom.Le.refl (b : ShardBloom) : b.Le b := ⟨rfl, rfl, fun _ hp => hp⟩

theorem ShardBloom.Le.trans {b'' : ShardBloom} (h : b.Le b') (h' : b'.Le b'') : b.Le b'' :=
  ⟨h'.words.trans h.words, h'.k.trans h.k, fun p hp => h'.bits p (h.bits p hp)⟩

theorem ShardBloom.Le.pos (hle : b.Le b') (h : UInt64) (i : Nat) : b'.pos h i = b.pos h i := by
  unfold ShardBloom.pos
  rw [hle.words]

theorem ShardBloom.le_setBit (b : ShardBloom) (p : Nat) : b.Le (b.setBit p) := by
  refine ⟨rfl, rfl, ?_⟩
  intro q hq
  by_cases hqp : q = p
  · subst hqp
    exact update_self ..
  · show update b.bits p true q = true
    rw [update_of_ne hqp]
    exact hq

theorem ShardBloom.mayContain_iff :
    b.mayContain h = true ↔ ∀ i, i < b.k → b.bits (b.pos h i) = true := by
  simp [ShardBloom.mayContain]

theorem ShardBloom.Le.mayContain_mono (hle : b.Le b') (hb : b.mayContain h = true) :
    b'.mayContain h = true := by
  rw [ShardBloom.mayContain_iff] at hb ⊢
  intro i hi
  rw [hle.pos]
  rw [hle.k] at hi
  exact hle.bits _ (hb i hi)

/-- Setting the first `n` bits of a hash. -/
theorem ShardBloom.foldl_setBit (b : ShardBloom) (h : UInt64) (n : Nat) :
    b.Le ((List.range n).foldl (fun b i => b.setBit (b.pos h i)) b) ∧
      ∀ i, i < n →
        ((List.range n).foldl (fun b i => b.setBit (b.pos h i)) b).bits (b.pos h i) = true := by
  induction n with
  | zero =>
    refine ⟨ShardBloom.Le.refl b, ?_⟩
    intro i hi
    cases hi
  | succ n ih =>
    rw [range_succ, foldl_append]
    have hstep := ShardBloom.le_setBit ((List.range n).foldl (fun b i => b.setBit (b.pos h i)) b)
      (((List.range n).foldl (fun b i => b.setBit (b.pos h i)) b).pos h n)
    refine ⟨ih.1.trans hstep, ?_⟩
    intro i hi
    by_cases hin : i = n
    · subst hin
      rw [← ih.1.pos]
      exact update_self ..
    · exact hstep.bits _ (ih.2 i (by omega))

theorem ShardBloom.le_add (b : ShardBloom) (h : UInt64) : b.Le (b.add h) :=
  (b.foldl_setBit h b.k).1

theorem ShardBloom.mayContain_add (b : ShardBloom) (h : UInt64) : (b.add h).mayContain h = true := by
  rw [ShardBloom.mayContain_iff]
  intro i hi
  rw [(b.le_add h).pos]
  rw [(b.le_add h).k] at hi
  exact (b.foldl_setBit h b.k).2 i hi

end Filter

/-! ## The invariant -/

/-- The first `n` bits of a hash are set. -/
def ShardBloom.HasBits (b : ShardBloom) (h : UInt64) (n : Nat) : Prop :=
  ∀ i, i < n → b.bits (b.pos h i) = true

def BloomSys.Rebuilds (s : BloomSys) : Prop :=
  match s.vacuum with
  | .idle => ∀ k, s.idx.isLive k = true → s.bloom.mayContain (fnv64a k) = true
  | .resetting _ => True
  | .readding todo done =>
    (∀ h rest, todo = h :: rest → s.bloom.HasBits h done) ∧
      ∀ k, s.idx.isLive k = true → s.bloom.mayContain (fnv64a k) = true ∨ fnv64a k ∈ todo

/-- Waiting writers have their bits, and so do live keys that the rebuild is done
with. -/
structure BloomSys.Sound (s : BloomSys) : Prop where
  writers : ∀ w ∈ s.writers, s.bloom.HasBits (fnv64a w.key) w.done
  rebuilds : s.Rebuilds

section Sound

variable {s s' : BloomSys}

theorem ShardBloom.Le.hasBits {b b' : ShardBloom} {h : UInt64} {n : Nat} (hle : b.Le b')
    (hb : b.HasBits h n) : b'.HasBits h n := by
  intro i hi
  rw [hle.pos]
  exact hle.bits _ (hb i hi)

theorem ShardBloom.HasBits.setBit {b : ShardBloom} {h : UInt64} {n : Nat} (hb : b.HasBits h n) :
    (b.setBit (b.pos h n)).HasBits h (n + 1) := by
  intro i hi
  by_cases hin : i = n
  · subst hin
    exact update_self ..
  · exact (b.le_setBit _).hasBits hb i (by omega)

theorem BloomSys.rebuilds_idle (hv : s.vacuum = .idle) :
    s.Rebuilds ↔ ∀ k, s.idx.isLive k = true → s.bloom.mayContain (fnv64a k) = true := by
  rw [BloomSys.Rebuilds, hv]

theorem BloomSys.rebuilds_readding {todo : List UInt64} {done : Nat}
    (hv : s.vacuum = .readding todo done) :
    s.Rebuilds ↔ (∀ h rest, todo = h :: rest → s.bloom.HasBits h done) ∧
      ∀ k, s.idx.isLive k = true → s.bloom.mayContain (fnv64a k) = true ∨ fnv64a k ∈ todo := by
  rw [BloomSys.Rebuilds, hv]

/-- More bits in the filter, with the same live keys. -/
theorem BloomSys.Rebuilds.mono (h : s.Rebuilds) (hle : s.bloom.Le s'.bloom)
    (hvacuum : s'.vacuum = s.vacuum)
    (hlive : ∀ k, s'.idx.isLive k = true → s.idx.isLive k = true) : s'.Rebuilds := by
  cases hv : s.vacuum with
  | idle =>
    apply (rebuilds_idle (hvacuum.trans hv)).mpr
    intro k hk
    exact hle.mayContain_mono ((rebuilds_idle hv).mp h k (hlive k hk))
  | resetting =>
    rw [Rebuilds, hvacuum, hv]
    trivial
  | readding =>
    have h := (rebuilds_readding hv).mp h
    apply (rebuilds_readding (hvacuum.trans hv)).mpr
    constructor
    · intro g rest hg
      exact hle.hasBits (h.1 g rest hg)
    · intro k hk
      rcases h.2 k (hlive k hk) with hm | hm
      · exact .inl (hle.mayContain_mono hm)
      · exact .inr hm

theorem BloomWriter.isLive_insert (w : BloomWriter) (idx : ShardedIndex) {k : Key}
    (hk : (w.insert idx).isLive k = true) : k = w.key ∨ idx.isLive k = true := by
  have hput : (idx.put w.key w.entry w.value).isLive k = true → k = w.key ∨ idx.isLive k = true := by
    intro hlive
    by_cases hkey : k = w.key
    · exact .inl hkey
    · have hswap : (idx.swap w.key w.entry.1).isLive k = true := by
        cases hv : w.value with
        | none | some =>
          rw [hv] at hlive
          exact hlive
      rw [isLive_swap, update_of_ne hkey] at hswap
      exact .inr hswap
  unfold BloomWriter.insert at hk
  split at hk
  · exact hput hk
  · unfold replayPut at hk
    split at hk
    · exact hput hk
    · split at hk
      · exact .inr hk
      · exact hput hk

namespace BloomSys

theorem sound_create (bitCount k : Nat) : (create bitCount k).Sound := by
  constructor
  · intro w hw
    cases hw
  · intro k hk
    cases hk

section
variable (h : s.Sound)
include h

/-- A writer has set the bits of its key, and no word was cleared since. -/
theorem Sound.insert {pre post : List BloomWriter} {w : BloomWriter}
    (hw : s.writers = pre ++ w :: post) (hdone : w.done = s.bloom.k) (hlock : s.vacuum = .idle) :
    Sound { s with idx := w.insert s.idx, writers := pre ++ post } := by
  constructor
  · exact fun x hx => h.writers x (mem_rest hw hx)
  · have hbits := h.writers w (mem_middle hw)
    refine (rebuilds_idle (by exact hlock)).mpr fun k hk => ?_
    rcases w.isLive_insert s.idx hk with rfl | hk
    · rw [ShardBloom.mayContain_iff]
      rw [hdone] at hbits
      exact hbits
    · exact (rebuilds_idle hlock).mp h.rebuilds k hk

/-- An entry that is swapped in with its bits under one lock. -/
theorem Sound.atomic (key : Key) (entry : LiveEntry) (hlock : s.vacuum = .idle) :
    Sound
      { s with
        idx := (s.idx.swap key entry).setDirty key none
        bloom := s.bloom.add (fnv64a key) } := by
  have hle := s.bloom.le_add (fnv64a key)
  constructor
  · intro x hx
    exact hle.hasBits (h.writers x hx)
  · refine (rebuilds_idle (by exact hlock)).mpr fun k hk => ?_
    by_cases hkey : k = key
    · subst hkey
      exact s.bloom.mayContain_add _
    · have hswap : (s.idx.swap key entry.1).isLive k = true := hk
      rw [isLive_swap, update_of_ne hkey] at hswap
      exact hle.mayContain_mono ((rebuilds_idle hlock).mp h.rebuilds k hswap)

/-- Steps that only take keys away. -/
theorem Sound.shrink {idx : ShardedIndex}
    (hlive : ∀ k, idx.isLive k = true → s.idx.isLive k = true) : Sound { s with idx := idx } :=
  ⟨h.writers, h.rebuilds.mono (.refl _) rfl hlive⟩

/-- The rebuild sets one more bit of the hash it is at. -/
theorem Sound.readd {g : UInt64} {todo : List UInt64} {done : Nat}
    (hstage : s.vacuum = .readding (g :: todo) done) :
    Sound
      { s with
        bloom := s.bloom.setBit (s.bloom.pos g done)
        vacuum := .readding (g :: todo) (done + 1) } := by
  have hle := s.bloom.le_setBit (s.bloom.pos g done)
  have hold := (rebuilds_readding hstage).mp h.rebuilds
  refine ⟨fun x hx => hle.hasBits (h.writers x hx), ?_, fun k hk => ?_⟩
  · intro g' rest heq
    cases heq
    exact (hold.1 g todo rfl).setBit
  · exact (hold.2 k hk).imp_left hle.mayContain_mono

/-- The rebuild is done with a hash, all of whose bits are set. -/
theorem Sound.next {g : UInt64} {todo : List UInt64}
    (hstage : s.vacuum = .readding (g :: todo) s.bloom.k) :
    Sound { s with vacuum := .readding todo 0 } := by
  have hold := (rebuilds_readding hstage).mp h.rebuilds
  refine ⟨h.writers, fun g' rest _ i hi => (by cases hi), fun k hk => ?_⟩
  rcases hold.2 k hk with hm | hm
  · exact .inl hm
  · rcases mem_cons.mp hm with heq | hm
    · apply Or.inl
      rw [heq, ShardBloom.mayContain_iff]
      exact hold.1 g todo rfl
    · exact .inr hm

/-- Every step that meets the condition keeps the bits of live keys and of waiting
writers. -/
theorem Sound.step (hstep : Step NoneWaiting s s') : s'.Sound := by
  cases hstep with
  | start =>
    constructor
    · refine forall_mem_cons.mpr ⟨fun i hi => ?_, h.writers⟩
      cases hi
    · exact h.rebuilds.mono (.refl _) rfl fun _ hk => hk
  | setBit pre post w hw =>
    have hle := s.bloom.le_setBit (s.bloom.pos (fnv64a w.key) w.done)
    constructor
    · refine forall_mem_replaced hw (fun x hx => hle.hasBits (h.writers x hx)) ?_
      exact (h.writers w (mem_middle hw)).setBit
    · exact h.rebuilds.mono hle rfl fun _ hk => hk
  | insert pre post w hw hdone hlock => exact h.insert hw hdone hlock
  | atomic key entry hlock => exact h.atomic key entry hlock
  | delete key nowUs =>
    refine h.shrink fun k hlive => ?_
    rw [isLive_markTombstone] at hlive
    by_cases hkey : k = key
    · subst hkey
      rw [update_self] at hlive
      cases hlive
    · rwa [update_of_ne hkey] at hlive
  | reap key =>
    refine h.shrink fun k hk => ?_
    by_cases hkey : k = key
    · subst hkey
      simp [isLive, del] at hk
    · simpa [isLive, del, hkey] using hk
  | vacuum => exact ⟨h.writers, trivial⟩
  | clearWord word hstage hword hP =>
    refine ⟨fun w hw i hi => ?_, trivial⟩
    rw [hP w hw] at hi
    cases hi
  | scan todo hstage htodo =>
    refine ⟨h.writers, fun g rest _ i hi => (by cases hi), fun k hk => ?_⟩
    apply Or.inr
    apply htodo.mem_iff.mpr
    apply mem_map_of_mem
    exact mem_filter.mpr ⟨mem_keys_of_isLive hk, hk⟩
  | readd g todo done hstage => exact h.readd hstage
  | next g todo hstage => exact h.next hstage
  | finish hstage =>
    have hold := (rebuilds_readding hstage).mp h.rebuilds
    refine ⟨h.writers, fun k hk => ?_⟩
    rcases hold.2 k hk with hm | hm
    · exact hm
    · cases hm

end

theorem Run.sound {bitCount k : Nat} (h : Run NoneWaiting bitCount k s) :
    s.Sound := by
  induction h with
  | refl => exact sound_create bitCount k
  | tail _ hstep ih => exact ih.step hstep

/-- Through any interleaving in which no word is cleared while a writer waits with
bits set, the filter holds every live key whenever no rebuild is under way, so a
read past the filter finds what the shard holds. -/
theorem Run.mayContain {bitCount k : Nat}
    (h : Run NoneWaiting bitCount k s) (hidle : s.vacuum = .idle) {key : Key}
    (hlive : s.idx.isLive key = true) :
    s.bloom.mayContain (fnv64a key) = true ∧
      s.getHashed key = (s.idx.entries key).map fun e => (e, s.idx.dirtyValues key) := by
  have hmay := (rebuilds_idle hidle).mp h.sound.rebuilds key hlive
  refine ⟨hmay, ?_⟩
  unfold getHashed
  rw [if_pos hmay]

end BloomSys

/-- A put, then a whole rebuild of a filter of one word. -/
theorem mayContain_after_rebuild :
    ∃ s, BloomSys.Run BloomSys.NoneWaiting 64 1 s ∧ s.vacuum = .idle ∧
      s.idx.isLive [107] = true ∧ s.bloom.mayContain (fnv64a [107]) = true := by
  have h₀ : BloomSys.Run BloomSys.NoneWaiting 64 1 (.create 64 1) := .refl
  have h₁ := h₀.tail (.start _ [107] ⟨⟨0, 0, 1, 1, 10, 0, 0, {}⟩, rfl⟩ none none)
  have h₂ := h₁.tail (.setBit _ [] [] _ rfl (by decide))
  have h₃ := h₂.tail (.insert _ [] [] _ rfl rfl rfl)
  have h₄ := h₃.tail (.vacuum _ rfl)
  have h₅ := h₄.tail (.clearWord _ 0 rfl (by decide) fun w hw => (by cases hw))
  have h₆ := h₅.tail (.scan _ [fnv64a [107]] rfl (.refl _))
  have h₇ := h₆.tail (.readd _ _ _ _ rfl (by decide))
  have h₈ := h₇.tail (.next _ _ _ rfl)
  have h₉ := h₈.tail (.finish _ rfl)
  exact ⟨_, h₉, rfl, rfl, (BloomSys.Run.mayContain h₉ rfl rfl).1⟩

/-- While a rebuild is under way a live key that nobody writes reads as absent;
and a put that set its bits before a rebuild and inserts its entry after it
leaves a live key that the filter does not hold once all are done. -/
theorem mayContain_ne_rebuild :
    (∃ s, BloomSys.Run (fun _ => True) 64 1 s ∧ s.writers = [] ∧
      s.idx.isLive [107] = true ∧ s.bloom.mayContain (fnv64a [107]) = false ∧
      s.getHashed [107] = none) ∧
    ∃ s, BloomSys.Run (fun _ => True) 64 1 s ∧ s.writers = [] ∧ s.vacuum = .idle ∧
      s.idx.isLive [107] = true ∧ s.bloom.mayContain (fnv64a [107]) = false ∧
      s.getHashed [107] = none := by
  have h₀ : BloomSys.Run (fun _ => True) 64 1 (.create 64 1) := .refl
  have h₁ := h₀.tail (.start _ [107] ⟨⟨0, 0, 1, 1, 10, 0, 0, {}⟩, rfl⟩ none none)
  have h₂ := h₁.tail (.setBit _ [] [] _ rfl (by decide))
  constructor
  · have h₃ := h₂.tail (.insert _ [] [] _ rfl rfl rfl)
    have h₄ := h₃.tail (.vacuum _ rfl)
    have h₅ := h₄.tail (.clearWord _ 0 rfl (by decide) trivial)
    exact ⟨_, h₅, rfl, rfl, rfl, rfl⟩
  · have h₃ := h₂.tail (.vacuum _ rfl)
    have h₄ := h₃.tail (.clearWord _ 0 rfl (by decide) trivial)
    have h₅ := h₄.tail (.scan _ [] rfl (.refl _))
    have h₆ := h₅.tail (.finish _ rfl)
    have h₇ := h₆.tail (.insert _ [] [] _ rfl rfl rfl)
    exact ⟨_, h₇, rfl, rfl, rfl, rfl, rfl⟩

end Sound

end VeltrixDB.Storage
