import VeltrixDB.Storage.CacheCoherence
import VeltrixDB.Storage.Checkpoint

/-!
# Reads through the cache and replay

Writers run beside the cache.  A read returns a cached value that has not
expired and asks the index only otherwise, so what reads return depends on a
fourth order beside those of stamps, records and installs: the order of the
cache updates, which a writer makes after its install and outside of the shard
lock (`putOrigin`, `delOrigin`, `get` in `storage/engine.go`).

Main results:

- Theorem `CachedSys.Ok.step`: in disciplined runs the index shows the installed
  part of the log and the cache holds what the index shows.
- Theorem `CachedSys.Run.replayedView_eq_get`: once the writers have returned,
  replay then shows what reads return.
- Theorem `get_ne_late_install`: two puts installed against the order of their
  records.
-/

namespace VeltrixDB.Storage

open Function List Parties Register

/-! ## Writers and the cache -/

/-- What the index shows of a key, expired or not. -/
def Engine.shown (codec : ValueCodec) (se : Engine) (key : Key) : Option (List UInt8 × Int) :=
  live (se.index.visible codec se.vlogs key)

/-- The engine with its writers, the cache, and the operations that still are
to reach the cache. -/
structure CachedSys where
  sys : Sys
  cache : Key → Option (List UInt8 × Int)
  threads : List CacheThread

/-- The slot of a key of which the index shows this. -/
def Slot.ofShown : Option (List UInt8 × Int) → Slot
  | some c => .live c.1 c.2
  | none => .tombstone

/-- What a writer has to do to the cache after its install: store or refresh
the value that its entry leads to, or evict the key that it deleted. -/
def CacheThread.Follows (t : CacheThread) (key : Key) : Option (List UInt8 × Int) → Prop
  | some c => t = .putCache key c.1 c.2 ∨ t = .refresh key c.1 c.2
  | none => t = .evict key

namespace CachedSys

/-- A fresh engine with an empty cache. -/
def create (kvSep : Bool) (numDisks : Nat) : CachedSys where
  sys := .create kvSep numDisks
  cache := fun _ => none
  threads := []

variable (codec : ValueCodec) (s : CachedSys)

/-- The cache beside what the index shows. -/
def toCache : CacheSys where
  index := fun key => .ofShown (s.sys.se.shown codec key)
  cache := s.cache
  threads := s.threads

/-- What a read returns: a cached value that has not expired, else what the
index shows. -/
def get (key : Key) (nowUs : Int) : Option (List UInt8 × Int) :=
  match s.cache key with
  | some c => if c.2 = 0 ∨ nowUs < c.2 then some c else s.sys.se.view codec key nowUs
  | none => s.sys.se.view codec key nowUs

end CachedSys

/-- One step of a writer, of a read or of the cache. -/
inductive CachedSys.Step (codec : ValueCodec) (P : Discipline) (Q : CacheDiscipline) :
    CachedSys → CachedSys → Prop
  /-- A step of a writer that installs nothing. -/
  | write (s : CachedSys) (r : Option WALEntry) (sys : Sys) (hs : s.sys.Step codec P r sys)
      (hinstalls : sys.installs = s.sys.installs) : Step codec P Q s { s with sys := sys }
  /-- An atomic operation locks its shard and decides on a value, whatever it has
  read: it too asks the cache. -/
  | lock (s : CachedSys) (clk : WriteClock) (key : Key) (value : List UInt8) (ttl : Int)
      (hmode : s.sys.se.kvSep = true)
      (hfree : ∀ w ∈ s.sys.writers, ¬w.holdsShard (shardOf key)) :
      Step codec P Q s { s with sys := { s.sys with writers := s.sys.writers ++
        [⟨some key, s.sys.se.disk key, 0, .stamped clk (.atomic key value ttl)⟩] } }
  /-- A writer installs a change of `key`; its cache update is to follow. -/
  | install (s : CachedSys) (r : Option WALEntry) (sys : Sys) (key : Key) (t : CacheThread)
      (hs : s.sys.Step codec P r sys)
      (hinstalls : sys.installs = update s.sys.installs key (s.sys.installs key + 1))
      (ht : t.Follows key (sys.se.shown codec key)) (hQ : Q.change key s.threads) :
      Step codec P Q s { s with sys := sys, threads := t :: s.threads }
  /-- A read or an update of the cache, or an eviction.  The index keeps what it
  has, and the operations here hold no shard. -/
  | cacheOp (s : CachedSys) (c : CacheSys) (hs : CacheSys.Step Q (s.toCache codec) c)
      (hindex : c.index = (s.toCache codec).index) (hfree : ∀ t ∈ c.threads, t.holdsShard = false) :
      Step codec P Q s { s with cache := c.cache, threads := c.threads }

/-- The states that writers and reads reach on a fresh engine. -/
inductive CachedSys.Run (codec : ValueCodec) (P : Discipline) (Q : CacheDiscipline) :
    CachedSys → Prop
  | create (kvSep : Bool) (numDisks : Nat) : Run codec P Q (.create kvSep numDisks)
  | step {s s' : CachedSys} (h : Run codec P Q s) (hs : s.Step codec P Q s') : Run codec P Q s'

/-! ## The invariant -/

/-- The index shows the installed part of the log, the cache holds what the
index shows or is about to be corrected, and no cache update holds a shard. -/
structure CachedSys.Ok (codec : ValueCodec) (s : CachedSys) : Prop where
  ordered : s.sys.Ordered codec
  sound : (s.toCache codec).Sound
  free : ∀ t ∈ s.threads, t.holdsShard = false

section Invariant

variable {codec : ValueCodec} {s s' : CachedSys} {a a' : Sys} {r : Option WALEntry} {key : Key}

theorem Sys.Ordered.shown_eq (h : a.Ordered codec) (key : Key) :
    a.se.shown codec key = (a.lastInstalled key).bind (a.se.outcome codec) := by
  rw [Engine.shown]
  rcases h.holds.shows key with ⟨r, hr, hs⟩ | ⟨hs, hnone⟩
  · rw [hs, hr]
    rfl
  · rw [hs, hnone]
    rfl

/-- A step that installs nothing changes nothing of what the index shows. -/
theorem Sys.Step.shown_eq (h : a.Ordered codec) (hs : a.Step codec .ordered r a')
    (hinstalls : a'.installs = a.installs) : a'.se.shown codec = a.se.shown codec := by
  have heffect := hs.effect h
  funext k
  have hlast : a'.lastInstalled k = a.lastInstalled k := by
    rw [Sys.lastInstalled, Sys.lastInstalled, heffect.records, hinstalls,
      take_append_of_le_length (h.installs_le k)]
  rw [(h.step hs).shown_eq, h.shown_eq, hlast]
  cases hr : a.lastInstalled k with
  | none => rfl
  | some r => exact (h.holds.last_stored k r hr).2.outcome_grow heffect.grows

/-- An install changes what the index shows of one key only. -/
theorem Sys.Step.shown_of_ne (h : a.Ordered codec) (hs : a.Step codec .ordered r a')
    (hinstalls : a'.installs = update a.installs key (a.installs key + 1)) {k : Key}
    (hk : k ≠ key) : a'.se.shown codec k = a.se.shown codec k := by
  have hone : a.installs key + 1 ≠ a.installs key := Nat.succ_ne_self _
  have hself : a'.installs key = a.installs key + 1 := by rw [hinstalls, update_self]
  cases hs with
  | stamp | lock | enter | prepare | append | exit => exact absurd hself.symm hone
  | install pre post lock d t l logged hw hfree hP =>
    have hkey : key = l.key := by
      by_contra hne
      simp only [update_of_ne hne] at hself
      exact hone hself.symm
    obtain ⟨hready, -⟩ := (h.writers _ (mem_middle hw)).ready l.write (by simp [Writer.writes])
    have hne : k ≠ l.write.record.key := fun heq => hk (heq.trans hkey.symm)
    have hother := Engine.install_of_ne hready.agrees hne
    simp only [Engine.shown, Engine.install_vlogs]
    rw [ShardedIndex.visible_congr hother.1 hother.2]

theorem CacheThread.Follows.spec {t : CacheThread} {c : Option (List UInt8 × Int)}
    (h : t.Follows key c) : t.key = key ∧ t.corrects = true ∧ t.holdsShard = false ∧
      ∀ p, t.carries = some p → Slot.ofShown c = .live p.1 p.2 := by
  cases c with
  | none =>
    obtain rfl : t = .evict key := h
    exact ⟨rfl, rfl, rfl, fun p hp => by cases hp⟩
  | some c =>
    rcases h with rfl | rfl <;>
      exact ⟨rfl, rfl, rfl, fun p hp => by cases hp; rfl⟩

namespace CachedSys

theorem ok_create (codec : ValueCodec) (kvSep : Bool) (numDisks : Nat) :
    (create kvSep numDisks).Ok codec where
  ordered := Sys.ordered_create codec kvSep numDisks
  sound :=
    { carries := fun _ ht => (by cases ht)
      coherent := fun _ => .inl fun _ hc => (by cases hc)
      reads := fun _ _ _ ht => (by cases ht)
      locks := .nil }
  free := fun _ ht => (by cases ht)

theorem Ok.shardFree (h : s.Ok codec) (key : Key) : (s.toCache codec).ShardFree key :=
  CacheSys.shardFree_of_none h.free key

theorem Ok.install {sys : Sys} {t : CacheThread} (h : s.Ok codec)
    (hs : s.sys.Step codec .ordered r sys)
    (hinstalls : sys.installs = update s.sys.installs key (s.sys.installs key + 1))
    (ht : t.Follows key (sys.se.shown codec key))
    (hQ : CacheDiscipline.exclusive.change key s.threads) :
    Ok codec { s with sys := sys, threads := t :: s.threads } where
  ordered := h.ordered.step hs
  sound := by
    obtain ⟨hkey, hcorrects, hholds, hcarries⟩ := ht.spec
    have hcache : toCache codec { s with sys := sys, threads := t :: s.threads } =
        ((s.toCache codec).setSlot key (.ofShown (sys.se.shown codec key))).setThreads
          (t :: (s.toCache codec).threads) := by
      simp only [toCache, CacheSys.setSlot, CacheSys.setThreads, CacheSys.mk.injEq, and_true]
      funext k
      by_cases hk : k = key
      · rw [hk, update_self]
      · rw [update_of_ne hk, hs.shown_of_ne h.ordered hinstalls hk]
    rw [hcache]
    exact h.sound.install (h.shardFree key) hQ hkey hcorrects hholds hcarries
  free := forall_mem_cons.mpr ⟨ht.spec.2.2.1, h.free⟩

/-- While stamps and installs follow the log of each key, and no entry changes
under an operation that carries a value of its key to the cache, the invariant
holds. -/
theorem Ok.step (h : s.Ok codec) (hs : s.Step codec .ordered .exclusive s') : s'.Ok codec := by
  cases hs with
  | write r sys hs hinstalls =>
    refine ⟨h.ordered.step hs, ?_, h.free⟩
    have hcache : toCache codec { s with sys := sys } = s.toCache codec := by
      rw [toCache, toCache, hs.shown_eq h.ordered hinstalls]
    rw [hcache]
    exact h.sound
  | lock clk key value ttl hmode hfree =>
    refine ⟨h.ordered.start rfl rfl ?_, h.sound, h.free⟩
    intro req hreq
    cases hreq
    exact ⟨fun _ => hmode, rfl⟩
  | install r sys key t hs hinstalls ht hQ => exact h.install hs hinstalls ht hQ
  | cacheOp c hs hindex hfree =>
    refine ⟨h.ordered, ?_, hfree⟩
    have hcache : toCache codec { s with cache := c.cache, threads := c.threads } = c := by
      obtain ⟨index, cache, threads⟩ := c
      simp only at hindex
      subst hindex
      rfl
    rw [hcache]
    exact h.sound.step hs

theorem Run.ok (h : s.Run codec .ordered .exclusive) : s.Ok codec := by
  induction h with
  | create kvSep numDisks => exact ok_create codec kvSep numDisks
  | step _ hs ih => exact ih.step hs

/-- A key that no operation is still to correct is read as the index shows
it. -/
theorem Ok.get_eq_view (h : s.Ok codec)
    (hquiet : ∀ t ∈ s.threads, t.key = key → t.corrects = false) (nowUs : Int) :
    s.get codec key nowUs = s.sys.se.view codec key nowUs := by
  have hcoh : (s.toCache codec).Coherent key := by
    rcases h.sound.coherent key with hcoh | ⟨t, ht, hkey, hcor⟩
    · exact hcoh
    · rw [hquiet t ht hkey] at hcor
      cases hcor
  rw [get]
  cases hc : s.cache key with
  | none => rfl
  | some c =>
    have hslot : Slot.ofShown (s.sys.se.shown codec key) = .live c.1 c.2 := hcoh c hc
    have hshown : s.sys.se.shown codec key = some c := by
      cases hx : s.sys.se.shown codec key with
      | none =>
        rw [hx] at hslot
        cases hslot
      | some p =>
        rw [hx] at hslot
        exact congrArg some (Prod.ext (Slot.live.inj hslot).1 (Slot.live.inj hslot).2)
    have hview : s.sys.se.view codec key nowUs = unexpired nowUs c := by
      rw [Engine.view, ShardedIndex.view_eq]
      change (s.sys.se.shown codec key).bind _ = _
      rw [hshown]
      rfl
    simp only [hview]
    split
    next hlive => rw [unexpired, if_neg (by omega)]
    · rfl

/-- Once all writers have returned and made their cache updates, replay shows of
every key what reads return, if stamps did not fall along the log of any key,
changes were installed in log order, and no entry changed under an operation
that carried a value of its key to the cache. -/
theorem Run.replayedView_eq_get (h : s.Run codec .ordered .exclusive)
    (hdone : s.sys.writers = []) (key : Key)
    (hquiet : ∀ t ∈ s.threads, t.key = key → t.corrects = false) (nowUs : Int) :
    s.sys.se.replayedView codec key nowUs = s.get codec key nowUs := by
  rw [h.ok.get_eq_view hquiet, h.ok.ordered.replayedView_eq_view hdone]

end CachedSys

end Invariant

/-- Two puts of one key that overlap until their installs, each followed by its
cache update; then the key falls out of the cache and a read brings it
back. -/
theorem replayedView_eq_get_two_puts :
    ∃ s : CachedSys, s.Run .plain .ordered .exclusive ∧ s.sys.writers = [] ∧ s.threads = [] ∧
      s.cache [107] = some ([98], 0) ∧ s.sys.se.replayedView .plain [107] 20 = some ([98], 0) := by
  have h₀ : CachedSys.Run .plain .ordered .exclusive (.create true 1) := .create true 1
  have h₁ := h₀.step (.write _ _ _ (.stamp _ ⟨10, 10⟩ (putK [97]) rfl fun _ => rfl) rfl)
  have h₂ := h₁.step (.write _ _ _ (.stamp _ ⟨11, 11⟩ (putK [98]) rfl fun _ => rfl) rfl)
  have h₃ := h₂.step (.write _ _ _ (.enter _ [] [_] none 0 0 ⟨10, 10⟩ (putK [97]) rfl) rfl)
  have h₄ := h₃.step (.write _ _ _ (.enter _ [_] [] none 0 0 ⟨11, 11⟩ (putK [98]) rfl) rfl)
  have h₅ := h₄.step (.write _ _ _ (.prepare _ [] [_] none 0 0 ⟨10, 10⟩ (putK [97]) rfl) rfl)
  have h₆ := h₅.step (.write _ _ _ (.prepare _ [_] [] none 0 0 ⟨11, 11⟩ (putK [98]) rfl) rfl)
  have h₇ := h₆.step (.write _ _ _ (.append _ [] [_] none 0 0 _ [] [] rfl
    ⟨fun r hr => (by cases hr), fun h => (by cases h)⟩) rfl)
  have h₈ := h₇.step (.write _ _ _ (.append _ [_] [] none 0 0 _ [] [] rfl
    ⟨by decide +kernel, fun h => (by cases h)⟩) rfl)
  have h₉ := h₈.step (.install _ _ _ [107] (.putCache [107] [97] 0)
    (.install _ [] [_] none 0 0 _ [] rfl (by simp [Writer.holdsShard]) rfl) rfl (.inl rfl)
    fun t ht => (by cases ht))
  have h₁₀ := h₉.step (.cacheOp _ _ (.putCache _ [] [] [107] [97] 0 rfl) rfl fun t ht => (by cases ht))
  have h₁₁ := h₁₀.step (.install _ _ _ [107] (.putCache [107] [98] 0)
    (.install _ [_] [] none 0 0 _ [] rfl (by simp [Writer.holdsShard]) rfl) rfl (.inl rfl)
    fun t ht => (by cases ht))
  have h₁₂ := h₁₁.step (.cacheOp _ _ (.putCache _ [] [] [107] [98] 0 rfl) rfl fun t ht => (by cases ht))
  have h₁₃ := h₁₂.step (.write _ _ _ (.exit _ [] [_] none 0 0 rfl) rfl)
  have h₁₄ := h₁₃.step (.write _ _ _ (.exit _ [] [] none 0 0 rfl) rfl)
  have h₁₅ := h₁₄.step (.cacheOp _ _ (.makeRoom _ [107]) rfl fun t ht => (by cases ht))
  have h₁₆ := h₁₅.step (.cacheOp _ _ (.miss _ [107] 5 fun c hc => (by cases hc)) rfl (by decide))
  have h₁₇ := h₁₆.step (.cacheOp _ _ (.lookup _ [] [] [107] 5 rfl
    (CacheSys.shardFree_of_none (by decide) _)) rfl (by decide +kernel))
  have h₁₈ := h₁₇.step (.cacheOp _ _ (.fill _ [] [] [107] [98] 0 rfl) rfl fun t ht => (by cases ht))
  refine ⟨_, h₁₈, rfl, rfl, rfl, ?_⟩
  exact (h₁₈.replayedView_eq_get rfl [107] (fun t ht => (by cases ht)) 20).trans rfl

/-- Two puts of one key whose changes are installed against the order of their
records, each with its cache update right after: reads return the first, replay
shows the second. -/
theorem get_ne_late_install :
    ∃ s : CachedSys, s.Run .plain .none .exclusive ∧ s.sys.writers = [] ∧ s.threads = [] ∧
      s.get .plain [107] 20 = some ([97], 0) ∧
      s.sys.se.replayedView .plain [107] 20 = some ([98], 0) := by
  have h₀ : CachedSys.Run .plain .none .exclusive (.create true 1) := .create true 1
  have h₁ := h₀.step (.write _ _ _ (.stamp _ ⟨10, 10⟩ (putK [97]) rfl fun _ => rfl) rfl)
  have h₂ := h₁.step (.write _ _ _ (.stamp _ ⟨11, 11⟩ (putK [98]) rfl fun _ => rfl) rfl)
  have h₃ := h₂.step (.write _ _ _ (.enter _ [] [_] none 0 0 ⟨10, 10⟩ (putK [97]) rfl) rfl)
  have h₄ := h₃.step (.write _ _ _ (.enter _ [_] [] none 0 0 ⟨11, 11⟩ (putK [98]) rfl) rfl)
  have h₅ := h₄.step (.write _ _ _ (.prepare _ [] [_] none 0 0 ⟨10, 10⟩ (putK [97]) rfl) rfl)
  have h₆ := h₅.step (.write _ _ _ (.prepare _ [_] [] none 0 0 ⟨11, 11⟩ (putK [98]) rfl) rfl)
  have h₇ := h₆.step (.write _ _ _ (.append _ [] [_] none 0 0 _ [] [] rfl trivial) rfl)
  have h₈ := h₇.step (.write _ _ _ (.append _ [_] [] none 0 0 _ [] [] rfl trivial) rfl)
  have h₉ := h₈.step (.install _ _ _ [107] (.putCache [107] [98] 0)
    (.install _ [_] [] none 0 0 _ [] rfl (by simp [Writer.holdsShard]) trivial) rfl (.inl rfl)
    fun t ht => (by cases ht))
  have h₁₀ := h₉.step (.cacheOp _ _ (.putCache _ [] [] [107] [98] 0 rfl) rfl fun t ht => (by cases ht))
  have h₁₁ := h₁₀.step (.install _ _ _ [107] (.putCache [107] [97] 0)
    (.install _ [] [_] none 0 0 _ [] rfl (by simp [Writer.holdsShard]) trivial) rfl (.inl rfl)
    fun t ht => (by cases ht))
  have h₁₂ := h₁₁.step (.cacheOp _ _ (.putCache _ [] [] [107] [97] 0 rfl) rfl fun t ht => (by cases ht))
  have h₁₃ := h₁₂.step (.write _ _ _ (.exit _ [] [_] none 0 0 rfl) rfl)
  have h₁₄ := h₁₃.step (.write _ _ _ (.exit _ [] [] none 0 0 rfl) rfl)
  exact ⟨_, h₁₄, rfl, rfl, rfl, rfl⟩

end VeltrixDB.Storage
