import Mathlib.Logic.Relation
import VeltrixDB.Storage.Writers

/-!
# The cache beside the index

Reads ask the cache first and fill it with what they found in the index; writes
install their entry in the index and then put it into the cache, refresh what
is there, or evict it.  Index and cache have locks of their own, so other
operations may come between the two (`get`, `putOrigin` and
`delOrigin` in `storage/engine.go`, `multiPutKVSep`,
`storage/atomic_ops.go`, `backgroundTTLScanner`).  Of an index entry only
the value it leads to and its deadline matter here; the records and value logs
never change what an entry leads to.

Main results:

- Theorem `CacheSys.Sound.step`: while no index entry changes under an
  operation that carries a value of its key to the cache, what is carried is
  what the index holds.
- Theorem `CacheSys.Run.coherent`: then a key without an operation under way is
  cached as the index holds it or not at all, and atomic operations decide on
  what the index holds.
-/

namespace VeltrixDB.Storage

open Function List Parties

/-! ## Index and cache -/

inductive Slot where
  | absent
  | tombstone
  | live (value : List UInt8) (expiryUs : Int)
deriving DecidableEq, Repr

def Slot.isExpired (nowUs : Int) : Slot → Bool
  | .live _ expiryUs => decide (0 < expiryUs) && decide (expiryUs ≤ nowUs)
  | _ => false

def Slot.valueAt (nowUs : Int) (slot : Slot) : Option (List UInt8) :=
  match slot with
  | .live value _ => if slot.isExpired nowUs then none else some value
  | _ => none

/-- `markTombstone`: only a key with an entry gets one. -/
def Slot.bury : Slot → Slot
  | .absent => .absent
  | _ => .tombstone

/-- An operation on a key that has taken its first step and not its last. -/
inductive CacheThread where
  | missed (key : Key)
  | expiring (key : Key)
  | fill (key : Key) (value : List UInt8) (expiryUs : Int)
  | putCache (key : Key) (value : List UInt8) (expiryUs : Int)
  | refresh (key : Key) (value : List UInt8) (expiryUs : Int)
  | evict (key : Key)
  /-- An atomic operation that holds the shard and decided on a value that it read
  at some time. -/
  | atomicRead (key : Key) (nowUs : Int) (cur : Option (List UInt8))
  | atomicCache (key : Key) (value : List UInt8) (expiryUs : Int)

def CacheThread.key : CacheThread → Key
  | .missed key | .expiring key | .fill key _ _ | .putCache key _ _ | .refresh key _ _
  | .evict key | .atomicRead key _ _ | .atomicCache key _ _ => key

def CacheThread.carries : CacheThread → Option (List UInt8 × Int)
  | .fill _ value expiryUs | .putCache _ value expiryUs | .refresh _ value expiryUs
  | .atomicCache _ value expiryUs => some (value, expiryUs)
  | _ => none

/-- The operation changed the index and is still to bring the cache in line. -/
def CacheThread.corrects : CacheThread → Bool
  | .putCache .. | .refresh .. | .evict .. | .atomicCache .. => true
  | _ => false

def CacheThread.holdsShard : CacheThread → Bool
  | .atomicRead .. | .atomicCache .. => true
  | _ => false

/-- The index, the cache and the operations under way. -/
structure CacheSys where
  index : Key → Slot
  cache : Key → Option (List UInt8 × Int)
  threads : List CacheThread

namespace CacheSys

def create : CacheSys where
  index := fun _ => .absent
  cache := fun _ => none
  threads := []

variable (s : CacheSys) (key : Key)

def putWithExpiry (value : List UInt8) (expiryUs : Int) : CacheSys :=
  { s with cache := update s.cache key (some (value, expiryUs)) }

def putIfPresent (value : List UInt8) (expiryUs : Int) : CacheSys :=
  if (s.cache key).isSome then s.putWithExpiry key value expiryUs else s

def evictKey : CacheSys :=
  { s with cache := update s.cache key none }

@[simp] theorem putWithExpiry_cache (value : List UInt8)
    (expiryUs : Int) : (s.putWithExpiry key value expiryUs).cache =
      update s.cache key (some (value, expiryUs)) := rfl

@[simp] theorem evictKey_cache :
    (s.evictKey key).cache = update s.cache key none := rfl

def setSlot (slot : Slot) : CacheSys :=
  { s with index := update s.index key slot }

def markExpired (cutoffUs : Int) : CacheSys :=
  if (s.index key).isExpired cutoffUs then s.setSlot key .tombstone else s

def setThreads (threads : List CacheThread) : CacheSys :=
  { s with threads := threads }

def ShardFree : Prop :=
  ∀ t ∈ s.threads, t.holdsShard = true → shardOf t.key ≠ shardOf key

/-- What `readUnderShardLockKVSep` returns: nothing for a key that is not live,
else the cached value, else the value of the entry. -/
def readLocked (nowUs : Int) : Option (List UInt8) :=
  match (s.index key).valueAt nowUs with
  | none => none
  | some value =>
    match s.cache key with
    | some c => some c.1
    | none => some value

end CacheSys

/-- What the read of a key does after it missed the cache. -/
def Slot.lookup (key : Key) (nowUs : Int) (slot : Slot) : Option CacheThread :=
  match slot with
  | .live value expiryUs =>
    if slot.isExpired nowUs then some (.expiring key) else some (.fill key value expiryUs)
  | _ => none

/-- What is asked of a run: of an index change of a key beside the operations
`others`, and of the read of an atomic operation. -/
structure CacheDiscipline where
  change : Key → List CacheThread → Prop
  read : Key → List CacheThread → Prop

def CacheDiscipline.none : CacheDiscipline := ⟨fun _ _ => True, fun _ _ => True⟩

/-- No other operation on the key carries a value when its index slot changes,
and none is still to correct the cache when an atomic operation reads. -/
def CacheDiscipline.exclusive : CacheDiscipline where
  change := fun key others => ∀ t ∈ others, t.key = key → t.carries = Option.none
  read := fun key others => ∀ t ∈ others, t.key = key → t.corrects = false

inductive CacheSys.Step (P : CacheDiscipline) : CacheSys → CacheSys → Prop
  | miss (s : CacheSys) (key : Key) (nowUs : Int)
      (hmiss : ∀ c, s.cache key = some c → c.2 ≠ 0 ∧ c.2 ≤ nowUs) :
      Step P s (s.setThreads (.missed key :: s.threads))
  | lookup (s : CacheSys) (pre post : List CacheThread) (key : Key) (nowUs : Int)
      (ht : s.threads = pre ++ .missed key :: post) (hfree : s.ShardFree key) :
      Step P s (s.setThreads (pre ++ ((s.index key).lookup key nowUs).toList ++ post))
  | readFail (s : CacheSys) (pre post : List CacheThread) (key : Key) (value : List UInt8)
      (expiryUs : Int) (ht : s.threads = pre ++ .fill key value expiryUs :: post) :
      Step P s (s.setThreads (pre ++ post))
  /-- A read that found the key expired tombstones it, if it still is expired at
  the cutoff. -/
  | expire (s : CacheSys) (pre post : List CacheThread) (key : Key) (cutoffUs : Int)
      (ht : s.threads = pre ++ .expiring key :: post) (hfree : s.ShardFree key)
      (hP : (s.index key).isExpired cutoffUs = true → P.change key (pre ++ post)) :
      Step P s ((s.markExpired key cutoffUs).setThreads (pre ++ .evict key :: post))
  | scan (s : CacheSys) (key : Key) (cutoffUs : Int) (hfree : s.ShardFree key)
      (hexp : (s.index key).isExpired cutoffUs = true) (hP : P.change key s.threads) :
      Step P s ((s.markExpired key cutoffUs).setThreads (.evict key :: s.threads))
  | fill (s : CacheSys) (pre post : List CacheThread) (key : Key) (value : List UInt8)
      (expiryUs : Int) (ht : s.threads = pre ++ .fill key value expiryUs :: post) :
      Step P s ((s.putWithExpiry key value expiryUs).setThreads (pre ++ post))
  | put (s : CacheSys) (key : Key) (value : List UInt8) (expiryUs : Int) (hfree : s.ShardFree key)
      (hP : P.change key s.threads) :
      Step P s ((s.setSlot key (.live value expiryUs)).setThreads
        (.putCache key value expiryUs :: s.threads))
  | putCache (s : CacheSys) (pre post : List CacheThread) (key : Key) (value : List UInt8)
      (expiryUs : Int) (ht : s.threads = pre ++ .putCache key value expiryUs :: post) :
      Step P s ((s.putWithExpiry key value expiryUs).setThreads (pre ++ post))
  | batch (s : CacheSys) (key : Key) (value : List UInt8) (expiryUs : Int)
      (hfree : s.ShardFree key) (hP : P.change key s.threads) :
      Step P s ((s.setSlot key (.live value expiryUs)).setThreads
        (.refresh key value expiryUs :: s.threads))
  | refresh (s : CacheSys) (pre post : List CacheThread) (key : Key) (value : List UInt8)
      (expiryUs : Int) (ht : s.threads = pre ++ .refresh key value expiryUs :: post) :
      Step P s ((s.putIfPresent key value expiryUs).setThreads (pre ++ post))
  | delete (s : CacheSys) (key : Key) (hfree : s.ShardFree key) (hP : P.change key s.threads) :
      Step P s ((s.setSlot key (s.index key).bury).setThreads (.evict key :: s.threads))
  | evict (s : CacheSys) (pre post : List CacheThread) (key : Key)
      (ht : s.threads = pre ++ .evict key :: post) :
      Step P s ((s.evictKey key).setThreads (pre ++ post))
  | atomicRead (s : CacheSys) (key : Key) (nowUs : Int) (hfree : s.ShardFree key)
      (hP : P.read key s.threads) :
      Step P s (s.setThreads (.atomicRead key nowUs (s.readLocked key nowUs) :: s.threads))
  | atomicAbort (s : CacheSys) (pre post : List CacheThread) (key : Key) (nowUs : Int)
      (cur : Option (List UInt8)) (ht : s.threads = pre ++ .atomicRead key nowUs cur :: post) :
      Step P s (s.setThreads (pre ++ post))
  | atomicInstall (s : CacheSys) (pre post : List CacheThread) (key : Key) (nowUs : Int)
      (cur : Option (List UInt8)) (value : List UInt8) (expiryUs : Int)
      (ht : s.threads = pre ++ .atomicRead key nowUs cur :: post) (hP : P.change key (pre ++ post)) :
      Step P s ((s.setSlot key (.live value expiryUs)).setThreads
        (pre ++ .atomicCache key value expiryUs :: post))
  | atomicCache (s : CacheSys) (pre post : List CacheThread) (key : Key) (value : List UInt8)
      (expiryUs : Int) (ht : s.threads = pre ++ .atomicCache key value expiryUs :: post) :
      Step P s ((s.putWithExpiry key value expiryUs).setThreads (pre ++ post))
  | reap (s : CacheSys) (key : Key) (hfree : s.ShardFree key) (hdead : s.index key = .tombstone) :
      Step P s (s.setSlot key .absent)
  | makeRoom (s : CacheSys) (key : Key) : Step P s (s.evictKey key)

def CacheSys.Run (P : CacheDiscipline) (s : CacheSys) : Prop :=
  Relation.ReflTransGen (CacheSys.Step P) .create s

/-! ## The invariant -/

def CacheSys.Coherent (s : CacheSys) (key : Key) : Prop :=
  ∀ c, s.cache key = some c → s.index key = .live c.1 c.2

def CacheThread.Apart (t t' : CacheThread) : Prop :=
  t.holdsShard = true → t'.holdsShard = true → shardOf t.key ≠ shardOf t'.key

/-- What operations carry to the cache is what the index holds, the cache is right
unless an operation is still to correct it, atomic operations have read what the
index holds, and a shard has one holder. -/
structure CacheSys.Sound (s : CacheSys) : Prop where
  carries : ∀ t ∈ s.threads, ∀ c, t.carries = some c → s.index t.key = .live c.1 c.2
  coherent : ∀ key, s.Coherent key ∨ ∃ t ∈ s.threads, t.key = key ∧ t.corrects = true
  reads : ∀ key nowUs cur, .atomicRead key nowUs cur ∈ s.threads →
    cur = (s.index key).valueAt nowUs
  locks : s.threads.Pairwise CacheThread.Apart

open CacheThread

section Invariant

variable {s s' : CacheSys} {key : Key} {t : CacheThread} {pre post threads : List CacheThread}

theorem CacheSys.sound_create : CacheSys.create.Sound where
  carries := by
    intro t ht
    cases ht
  coherent := by
    intro key
    apply Or.inl
    intro c hc
    cases hc
  reads := by
    intro key nowUs cur ht
    cases ht
  locks := List.Pairwise.nil

namespace CacheThread

theorem Apart.symm {t t' : CacheThread} (h : t.Apart t') : t'.Apart t :=
  fun ht' ht => (h ht ht').symm

/-- The operation in the middle may be taken first. -/
theorem pairwise_split :
    (pre ++ t :: post).Pairwise Apart ↔
      (∀ t' ∈ pre ++ post, t.Apart t') ∧ (pre ++ post).Pairwise Apart := by
  rw [pairwise_middle fun h => h.symm, pairwise_cons]

theorem apart_of_not_holds (ht : t.holdsShard = false) (t' : CacheThread) : t.Apart t' := by
  intro h
  rw [ht] at h
  cases h

end CacheThread

namespace CacheSys

theorem mem_of_corrects (ht : s.threads = pre ++ t :: post) (hcor : t.corrects = false) :
    ∀ x ∈ s.threads, x.corrects = true → x ∈ pre ++ post := by
  intro x hx hx'
  rcases mem_middle_cases ht hx with rfl | hx
  · rw [hcor] at hx'
    cases hx'
  · exact hx

section

variable (h : s.Sound)
include h

theorem Sound.locks_split (ht : s.threads = pre ++ t :: post) :
    (∀ t' ∈ pre ++ post, t.Apart t') ∧ (pre ++ post).Pairwise CacheThread.Apart :=
  pairwise_split.mp (ht ▸ h.locks)

/-- The index slot of a key changes, and an operation that will correct the cache
joins the operations `others`. -/
theorem Sound.change {slot : Slot} (others : List CacheThread)
    (hothers : ∀ x ∈ others, x ∈ s.threads)
    (hkept : ∀ x ∈ s.threads, x.corrects = true → x.key ≠ key → x ∈ others)
    (hP : ∀ x ∈ others, x.key = key → x.carries = none)
    (hlock : ∀ x ∈ others, x.holdsShard = true → x.key ≠ key) (hkey : t.key = key)
    (hcorrects : t.corrects = true) (hslot : ∀ c, t.carries = some c → slot = .live c.1 c.2)
    (hmem : ∀ x, x ∈ threads ↔ x = t ∨ x ∈ others) (hlocks : threads.Pairwise CacheThread.Apart) :
    ((s.setSlot key slot).setThreads threads).Sound := by
  have hindex : ∀ k, k ≠ key → ((s.setSlot key slot).setThreads threads).index k = s.index k :=
    fun k hk => update_of_ne hk ..
  have hself : ((s.setSlot key slot).setThreads threads).index key = slot :=
    update_self ..
  constructor
  · intro x hx c hc
    rcases (hmem x).mp hx with rfl | hx
    · rw [hkey, hself]
      exact hslot c hc
    · by_cases hxk : x.key = key
      · rw [hP x hx hxk] at hc
        cases hc
      · rw [hindex _ hxk]
        exact h.carries x (hothers x hx) c hc
  · intro k
    by_cases hk : k = key
    · subst hk
      exact .inr ⟨t, (hmem t).mpr (.inl rfl), hkey, hcorrects⟩
    · rcases h.coherent k with hcoh | ⟨x, hx, hxk, hcor⟩
      · apply Or.inl
        intro c hc
        rw [hindex k hk]
        exact hcoh c hc
      · refine .inr ⟨x, (hmem x).mpr (.inr (hkept x hx hcor ?_)), hxk, hcor⟩
        rw [hxk]
        exact hk
  · intro k nowUs cur hx
    rcases (hmem _).mp hx with heq | hx
    · subst heq
      cases hcorrects
    · have hk : k ≠ key := hlock _ hx rfl
      rw [hindex k hk]
      exact h.reads k nowUs cur (hothers _ hx)
  · exact hlocks

theorem Sound.install {slot : Slot} (hfree : s.ShardFree key)
    (hP : CacheDiscipline.exclusive.change key s.threads) (hkey : t.key = key)
    (hcorrects : t.corrects = true) (hholds : t.holdsShard = false)
    (hslot : ∀ c, t.carries = some c → slot = .live c.1 c.2) :
    ((s.setSlot key slot).setThreads (t :: s.threads)).Sound := by
  apply h.change s.threads (fun x hx => hx) (fun x hx _ _ => hx) hP ?_ hkey hcorrects
    hslot (fun x => mem_cons)
  · apply pairwise_cons.mpr
    exact ⟨fun t' _ => apart_of_not_holds hholds t', h.locks⟩
  · intro x hx hx' heq
    exact hfree x hx hx' (by rw [heq])

/-- An operation takes its last step: it leaves its key cached as the index holds
it, or it was not to correct the cache and leaves the cache alone. -/
theorem Sound.drop (ht : s.threads = pre ++ t :: post) (hthreads : s'.threads = pre ++ post)
    (hindex : s'.index = s.index) (hcache : ∀ k, k ≠ t.key → s'.cache k = s.cache k)
    (hkey : s'.Coherent t.key ∨ t.corrects = false ∧ s'.cache = s.cache) : s'.Sound := by
  constructor
  · intro x hx
    rw [hindex]
    rw [hthreads] at hx
    exact h.carries x (mem_rest ht hx)
  · intro k
    have hcases : s'.Coherent k ∨
        (∀ c, s'.cache k = some c → s.cache k = some c) ∧
          ∀ x ∈ s.threads, x.key = k → x.corrects = true → x ∈ pre ++ post := by
      by_cases hk : k = t.key
      · subst hk
        rcases hkey with hcoh | ⟨hcor, hsame⟩
        · exact .inl hcoh
        · exact .inr ⟨fun c hc => by rw [← hsame]; exact hc,
            fun x hx _ => mem_of_corrects ht hcor x hx⟩
      · refine .inr ⟨fun c hc => by rw [← hcache k hk]; exact hc, fun x hx hxk _ => ?_⟩
        rcases mem_middle_cases ht hx with rfl | hx
        · exact absurd hxk.symm hk
        · exact hx
    rcases hcases with hcoh | ⟨hsame, hkept⟩
    · exact .inl hcoh
    · rcases h.coherent k with hcoh | ⟨x, hx, hxk, hcor⟩
      · apply Or.inl
        intro c hc
        rw [hindex]
        exact hcoh c (hsame c hc)
      · apply Or.inr
        rw [hthreads]
        exact ⟨x, hkept x hx hxk hcor, hxk, hcor⟩
  · intro k nowUs cur hx
    rw [hindex]
    rw [hthreads] at hx
    exact h.reads k nowUs cur (mem_rest ht hx)
  · rw [hthreads]
    exact (h.locks_split ht).2

theorem Sound.store (ht : s.threads = pre ++ t :: post) {value : List UInt8} {expiryUs : Int}
    (hcarries : t.carries = some (value, expiryUs)) :
    ((s.putWithExpiry t.key value expiryUs).setThreads (pre ++ post)).Sound := by
  refine h.drop ht rfl rfl (fun k hk => update_of_ne hk ..) (.inl ?_)
  intro c hc
  have hstored : (s.putWithExpiry t.key value expiryUs).cache t.key = some c := hc
  rw [putWithExpiry_cache, update_self] at hstored
  cases hstored
  exact h.carries t (mem_middle ht) _ hcarries

theorem Sound.evictKey (key : Key) : (s.evictKey key).Sound :=
  { h with
    coherent := by
      intro k
      rcases h.coherent k with hcoh | hcor
      · apply Or.inl
        intro c hc
        by_cases hk : k = key
        · subst hk
          rw [evictKey_cache, update_self] at hc
          cases hc
        · rw [evictKey_cache, update_of_ne hk] at hc
          exact hcoh c hc
      · exact .inr hcor }

/-- An operation that changes neither index nor cache takes the place of another,
or joins. -/
theorem Sound.setThreads
    (hmem : ∀ x ∈ threads, x ∈ s.threads ∨
      (∀ c, x.carries = some c → s.index x.key = .live c.1 c.2) ∧
        ∀ k nowUs cur, x = .atomicRead k nowUs cur → cur = (s.index k).valueAt nowUs)
    (hkept : ∀ x ∈ s.threads, x.corrects = true → x ∈ threads)
    (hlocks : threads.Pairwise CacheThread.Apart) : (s.setThreads threads).Sound where
  carries := by
    intro x hx c hc
    rcases hmem x hx with hx | hx
    · exact h.carries x hx c hc
    · exact hx.1 c hc
  coherent := by
    intro k
    rcases h.coherent k with hcoh | ⟨x, hx, hxk, hcor⟩
    · exact .inl hcoh
    · exact .inr ⟨x, hkept x hx hcor, hxk, hcor⟩
  reads := by
    intro k nowUs cur hx
    rcases hmem _ hx with hx | hx
    · exact h.reads k nowUs cur hx
    · exact hx.2 k nowUs cur rfl
  locks := hlocks

theorem Sound.join (hcarries : t.carries = none)
    (hread : ∀ k nowUs cur, t = .atomicRead k nowUs cur → cur = (s.index k).valueAt nowUs)
    (happart : ∀ t' ∈ s.threads, t.Apart t') : (s.setThreads (t :: s.threads)).Sound := by
  refine h.setThreads ?_ (fun x hx _ => mem_cons_of_mem _ hx)
    (pairwise_cons.mpr ⟨happart, h.locks⟩)
  intro x hx
  rcases mem_cons.mp hx with rfl | hx
  · refine .inr ⟨fun c hc => ?_, hread⟩
    rw [hcarries] at hc
    cases hc
  · exact .inl hx

theorem Sound.goOn (ht : s.threads = pre ++ t :: post) (hcor : t.corrects = false)
    (t' : CacheThread) (hholds : t'.holdsShard = false)
    (hcarries : ∀ c, t'.carries = some c → s.index t'.key = .live c.1 c.2) :
    (s.setThreads (pre ++ t' :: post)).Sound := by
  apply h.setThreads
  · intro x hx
    rcases mem_replaced ht hx with rfl | hx
    · refine .inr ⟨hcarries, ?_⟩
      intro k now cur heq
      rw [heq] at hholds
      cases hholds
    · exact .inl hx
  · intro x hx hx'
    exact mem_middle_iff.mpr (.inr (mem_of_corrects ht hcor x hx hx'))
  · exact pairwise_split.mpr ⟨fun x _ => apart_of_not_holds hholds x, (h.locks_split ht).2⟩

theorem Sound.lookup (ht : s.threads = pre ++ .missed key :: post) (nowUs : Int) :
    (s.setThreads (pre ++ ((s.index key).lookup key nowUs).toList ++ post)).Sound := by
  have hend : (s.setThreads (pre ++ post)).Sound :=
    h.drop ht rfl rfl (fun _ _ => rfl) (.inr ⟨rfl, rfl⟩)
  rw [append_assoc]
  cases hslot : s.index key with
  | absent | tombstone => exact hend
  | live value expiryUs =>
    unfold Slot.lookup
    split
    next v e heq =>
      cases heq
      split
      · exact h.goOn ht rfl (.expiring key) rfl fun c hc => (by cases hc)
      · refine h.goOn ht rfl (.fill key value expiryUs) rfl fun c hc => ?_
        cases hc
        exact hslot
    next hne => exact absurd rfl (hne value expiryUs)

/-- What an atomic operation reads under the lock is what the index holds, when no
operation is still to correct the cache. -/
theorem Sound.readLocked_eq (hP : CacheDiscipline.exclusive.read key s.threads) (nowUs : Int) :
    s.readLocked key nowUs = (s.index key).valueAt nowUs := by
  have hcoh : s.Coherent key := by
    rcases h.coherent key with hcoh | ⟨x, hx, hxk, hcor⟩
    · exact hcoh
    · rw [hP x hx hxk] at hcor
      cases hcor
  unfold readLocked
  cases hv : (s.index key).valueAt nowUs with
  | none => rfl
  | some value =>
    cases hc : s.cache key with
    | none => rfl
    | some c =>
      have hlive := hcoh c hc
      rw [hlive] at hv
      change (if _ then none else some c.1) = some value at hv
      split at hv
      · cases hv
      · exact hv

/-- While no index entry changes under an operation that carries a value of its
key, and atomic operations read when none is still to correct the cache, the
invariant holds. -/
theorem Sound.step (hstep : Step .exclusive s s') : s'.Sound := by
  cases hstep with
  | miss =>
    exact h.join rfl (fun k now cur heq => (by cases heq)) fun t' _ => apart_of_not_holds rfl t'
  | lookup pre post key nowUs ht => exact h.lookup ht nowUs
  | readFail _ _ _ _ _ ht | atomicAbort _ _ _ _ _ ht =>
    exact h.drop ht rfl rfl (fun _ _ => rfl) (.inr ⟨rfl, rfl⟩)
  | expire pre post key cutoffUs ht hfree hP =>
    unfold markExpired
    split
    next hexp =>
      refine h.change _ (fun _ => mem_rest ht) (fun x hx hcor _ => mem_of_corrects ht rfl x hx hcor)
        (hP hexp) ?_ rfl rfl (fun c hc => (by cases hc)) (fun _ => mem_middle_iff) ?_
      · intro x hx hholds heq
        exact hfree x (mem_rest ht hx) hholds (by rw [heq])
      · exact pairwise_split.mpr ⟨fun t' _ => apart_of_not_holds rfl t', (h.locks_split ht).2⟩
    · exact h.goOn ht rfl (.evict key) rfl fun c hc => (by cases hc)
  | scan key cutoffUs hfree hexp hP =>
    unfold markExpired
    rw [if_pos hexp]
    exact h.install hfree hP rfl rfl rfl fun c hc => (by cases hc)
  | fill _ _ _ _ _ ht | putCache _ _ _ _ _ ht | atomicCache _ _ _ _ _ ht => exact h.store ht rfl
  | put _ _ _ hfree hP | batch _ _ _ hfree hP =>
    refine h.install hfree hP rfl rfl rfl fun c hc => ?_
    cases hc
    rfl
  | refresh pre post key value expiryUs ht =>
    unfold putIfPresent
    split
    · exact h.store ht rfl
    next hnone =>
      refine h.drop ht rfl rfl (fun _ _ => rfl) (.inl ?_)
      intro c hc
      have hsome : (s.cache key).isSome = true := by
        show (s.cache key).isSome = true
        rw [show s.cache key = some c from hc]
        rfl
      exact absurd hsome hnone
  | delete key hfree hP => exact h.install hfree hP rfl rfl rfl fun c hc => (by cases hc)
  | evict pre post key ht =>
    refine h.drop ht rfl rfl (fun k hk => update_of_ne hk ..) (.inl ?_)
    intro c hc
    have hnone : (s.evictKey key).cache key = some c := hc
    rw [evictKey_cache, update_self] at hnone
    cases hnone
  | atomicRead key nowUs hfree hP =>
    refine h.join rfl ?_ fun t' ht' _ hholds heq => hfree t' ht' hholds heq.symm
    intro k now cur heq
    cases heq
    exact h.readLocked_eq hP nowUs
  | atomicInstall pre post key nowUs cur value expiryUs ht hP =>
    have hold := h.locks_split ht
    refine h.change (pre ++ post) (fun _ => mem_rest ht)
      (fun x hx hcor _ => mem_of_corrects ht rfl x hx hcor) hP ?_ rfl rfl ?_
      (fun _ => mem_middle_iff) ?_
    · intro x hx hholds heq
      exact hold.1 x hx rfl hholds (by rw [heq]; rfl)
    · intro c hc
      cases hc
      rfl
    · exact pairwise_split.mpr ⟨fun t' ht' _ => hold.1 t' ht' rfl, hold.2⟩
  | reap key hfree hdead =>
    have hindex : ∀ k v e, s.index k = .live v e →
        (s.setSlot key .absent).index k = .live v e := by
      intro k v e hk
      have hne : k ≠ key := by
        intro heq
        rw [heq, hdead] at hk
        cases hk
      rw [← hk]
      exact update_of_ne hne ..
    constructor
    · intro x hx c hc
      exact hindex _ _ _ (h.carries x hx c hc)
    · intro k
      rcases h.coherent k with hcoh | hcor
      · exact .inl fun c hc => hindex _ _ _ (hcoh c hc)
      · exact .inr hcor
    · intro k nowUs cur hx
      have hne : k ≠ key := by
        intro heq
        exact hfree _ hx rfl (by rw [← heq]; rfl)
      have hsame : (s.setSlot key .absent).index k = s.index k := update_of_ne hne ..
      rw [hsame]
      exact h.reads k nowUs cur hx
    · exact h.locks
  | makeRoom key => exact h.evictKey key

end

theorem Run.sound (h : Run .exclusive s) : s.Sound := by
  induction h with
  | refl => exact sound_create
  | tail _ hstep ih => exact ih.step hstep

/-- In every run that meets the condition, a key without an operation under way is
cached with the value and deadline that the index holds, or not at all, and an
atomic operation has decided on the value that the index holds. -/
theorem Run.coherent (h : Run .exclusive s) :
    (∀ key, (∀ t ∈ s.threads, t.key ≠ key) →
      s.cache key = none ∨
        ∃ value expiryUs, s.cache key = some (value, expiryUs) ∧
          s.index key = .live value expiryUs) ∧
    ∀ key nowUs cur, .atomicRead key nowUs cur ∈ s.threads →
      cur = (s.index key).valueAt nowUs := by
  constructor
  · intro key hquiet
    rcases h.sound.coherent key with hcoh | ⟨t, ht, hkey, -⟩
    · cases hc : s.cache key with
      | none => exact .inl rfl
      | some c => exact .inr ⟨c.1, c.2, rfl, hcoh c hc⟩
    · exact absurd hkey (hquiet t ht)
  · exact h.sound.reads

end CacheSys

/-- The shard of a key is free when nobody holds one. -/
theorem CacheSys.shardFree_of_none (hnone : ∀ t ∈ s.threads, t.holdsShard = false) (key : Key) :
    s.ShardFree key := by
  intro t ht hholds
  rw [hnone t ht] at hholds
  cases hholds

/-- A read fills the cache beside the put of another key; a second read of the key is
under way when the key is deleted; then an atomic operation reads the other key. -/
theorem coherent_two_readers :
    ∃ s, CacheSys.Run .exclusive s ∧ s.index [107] = .tombstone ∧ s.cache [107] = none ∧
      .atomicRead [108] 5 (some [98]) ∈ s.threads ∧
      some [98] = (s.index [108]).valueAt 5 := by
  have h₀ : CacheSys.Run .exclusive .create := .refl
  have h₁ := h₀.tail (.put _ [107] [97] 0 (CacheSys.shardFree_of_none (by decide) _)
    fun t ht => (by cases ht))
  have h₂ := h₁.tail (.putCache _ [] [] [107] [97] 0 rfl)
  have h₃ := h₂.tail (.makeRoom _ [107])
  have h₄ := h₃.tail (.miss _ [107] 5 fun c hc => (by cases hc))
  have h₅ := h₄.tail (.lookup _ [] [] [107] 5 rfl (CacheSys.shardFree_of_none (by decide) _))
  have hfill : ∀ t ∈ [CacheThread.fill [107] [97] 0], t.key = [108] → t.carries = none := by decide
  have h₆ := h₅.tail (.put _ [108] [98] 0 (CacheSys.shardFree_of_none (by decide) _) hfill)
  have h₇ := h₆.tail (.fill _ [.putCache [108] [98] 0] [] [107] [97] 0 rfl)
  have h₈ := h₇.tail (.putCache _ [] [] [108] [98] 0 rfl)
  have h₉ := h₈.tail (.makeRoom _ [107])
  have h₁₀ := h₉.tail (.miss _ [107] 5 fun c hc => (by cases hc))
  have hmissed : ∀ t ∈ [CacheThread.missed [107]], t.key = [107] → t.carries = none := by decide
  have h₁₁ := h₁₀.tail (.delete _ [107] (CacheSys.shardFree_of_none (by decide) _) hmissed)
  have h₁₂ := h₁₁.tail (.lookup _ [.evict [107]] [] [107] 5 rfl
    (CacheSys.shardFree_of_none (by decide) _))
  have h₁₃ := h₁₂.tail (.evict _ [] [] [107] rfl)
  have h₁₄ := h₁₃.tail (.atomicRead _ [108] 5 (CacheSys.shardFree_of_none (by decide) _)
    fun t ht => (by cases ht))
  obtain ⟨hcached, hdecided⟩ := CacheSys.Run.coherent h₁₄
  refine ⟨_, h₁₄, rfl, ?_, mem_cons_self, hdecided [108] 5 (some [98]) mem_cons_self⟩
  rcases hcached [107] (by decide) with hnone | ⟨v, e, -, hlive⟩
  · exact hnone
  · cases hlive

/-- A read that looked up a key before its delete fills the cache after it, so the
deleted key is served from the cache; and an atomic operation that takes the
shard between the install of a put and its cache update decides on the value
that the put replaced. -/
theorem coherent_ne_late_fill :
    (∃ s, CacheSys.Run .none s ∧ s.threads = [] ∧ s.index [107] = .tombstone ∧
      s.cache [107] = some ([97], 0)) ∧
    ∃ s nowUs, CacheSys.Run .none s ∧ s.index [107] = .live [98] 0 ∧
      .atomicRead [107] nowUs (some [97]) ∈ s.threads := by
  have h₀ : CacheSys.Run .none .create := .refl
  have h₁ := h₀.tail (.put _ [107] [97] 0 (fun t ht => (by cases ht)) trivial)
  have h₂ := h₁.tail (.putCache _ [] [] [107] [97] 0 rfl)
  constructor
  · have h₃ := h₂.tail (.makeRoom _ [107])
    have h₄ := h₃.tail (.miss _ [107] 5 fun c hc => (by cases hc))
    have h₅ := h₄.tail (.lookup _ [] [] [107] 5 rfl (CacheSys.shardFree_of_none (by decide) _))
    have h₆ := h₅.tail (.delete _ [107] (CacheSys.shardFree_of_none (by decide) _) trivial)
    have h₇ := h₆.tail (.evict _ [] _ [107] rfl)
    have h₈ := h₇.tail (.fill _ [] [] [107] [97] 0 rfl)
    exact ⟨_, h₈, rfl, rfl, rfl⟩
  · have h₃ := h₂.tail (.put _ [107] [98] 0 (fun t ht => (by cases ht)) trivial)
    have h₄ := h₃.tail (.atomicRead _ [107] 5 (CacheSys.shardFree_of_none (by decide) _) trivial)
    exact ⟨_, 5, h₄, rfl, mem_cons_self ..⟩

end Invariant

end VeltrixDB.Storage
