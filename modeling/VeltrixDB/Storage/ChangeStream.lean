import VeltrixDB.Storage.CacheCoherence
import VeltrixDB.Storage.RaftCommand

/-!
# The change stream

Every successful mutation is announced to the subscribers of the change stream once its
entry is in the index (`storage/cdc.go`; `putOrigin` and `delOrigin` in
`storage/engine.go`, `multiPutKVSep`, `persistAtomicKVSep`).  The install and
the announcement are two steps, and only an atomic operation holds the lock of its shard
from the one to the other.  What an atomic operation reads is arbitrary here, so nothing
rests on the cache.

Main results:

- Theorem `CdcSys.Sound.step`: while no key is written between the install and the
  announcement of another write of it, what is still to be announced tells what the index
  holds, and so does the last event of every other key.
- Theorem `CdcSys.Run.last_event`: then the stream ends in the current state.
-/

namespace VeltrixDB.Storage

open Function List Parties

/-! ## Events and subscribers -/

inductive CdcOp where
  | put | del
deriving DecidableEq, Repr

/-- `CDCEvent`; a delete has no value. -/
structure CdcEvent where
  op : CdcOp
  key : Key
  value : List UInt8
  timestamp : Int

/-- So many drops in a row end a subscription. -/
def cdcEvictAfterDrops : Nat := 3

/-- A subscription: its channel, and what the subscriber took from it. -/
structure CdcSubscription where
  keyPrefix : List UInt8
  bufferSize : Nat
  ch : List CdcEvent
  taken : List CdcEvent
  consecutiveDrops : Nat
  closed : Bool

namespace CdcSubscription

/-- `Broadcast`, for one subscriber. -/
def broadcast (sub : CdcSubscription) (ev : CdcEvent) : CdcSubscription :=
  if sub.closed || !sub.keyPrefix.isPrefixOf ev.key then sub
  else if sub.ch.length < sub.bufferSize then
    { sub with ch := sub.ch ++ [ev], consecutiveDrops := 0 }
  else
    { sub with
      consecutiveDrops := sub.consecutiveDrops + 1
      closed := decide (cdcEvictAfterDrops ≤ sub.consecutiveDrops + 1) }

def received (sub : CdcSubscription) : List CdcEvent := sub.taken ++ sub.ch

end CdcSubscription

def CdcEvent.Tells (ev : CdcEvent) : Slot → Prop
  | .live value _ => ev.op = .put ∧ ev.value = value
  | _ => ev.op = .del

/-- No later event is about the key of `ev`. -/
def LastOfKey (evs : List CdcEvent) (ev : CdcEvent) : Prop :=
  ∃ pre post, evs = pre ++ ev :: post ∧ ∀ e ∈ post, e.key ≠ ev.key

/-! ## Writers -/

/-- A mutation without a deadline. -/
inductive CdcMutation where
  | put (key : Key) (value : List UInt8)
  | delete (key : Key)
  | atomic (key : Key) (op : AtomicOp)

/-- A goroutine that writes: what it still has to do, and the event of what it did
last. -/
structure CdcWriter where
  todo : List CdcMutation
  event : Option CdcEvent
  holdsShard : Bool

/-- The index, the writers under way, a subscription, and the events of all that was
installed. -/
structure CdcSys where
  index : Key → Slot
  writers : List CdcWriter
  sub : CdcSubscription
  installed : List CdcEvent

namespace CdcSys

/-- A subscriber of all keys has registered, and no operation is under way. -/
def start (index : Key → Slot) (bufferSize : Nat) : CdcSys where
  index := index
  writers := []
  sub := ⟨[], bufferSize, [], [], 0, false⟩
  installed := []

def Unlocked (shardFor : Key → Nat) (s : CdcSys) (key : Key) : Prop :=
  ∀ w ∈ s.writers, w.holdsShard = true → ∀ ev ∈ w.event, shardFor ev.key ≠ shardFor key

/-- A writer between `pre` and `post` installs a slot and has its event to
announce. -/
def install (s : CdcSys) (pre post : List CdcWriter) (todo : List CdcMutation)
    (holdsShard : Bool) (slot : Slot) (ev : CdcEvent) : CdcSys :=
  { s with
    index := update s.index ev.key slot
    writers := pre ++ ⟨todo, some ev, holdsShard⟩ :: post
    installed := s.installed ++ [ev] }

inductive Step (shardFor : Key → Nat) (P : CdcSys → Key → Prop) : CdcSys → CdcSys → Prop
  | call (s : CdcSys) (todo : List CdcMutation) :
      Step shardFor P s { s with writers := ⟨todo, none, false⟩ :: s.writers }
  | refuse (s : CdcSys) (pre post m todo)
      (h : s.writers = pre ++ ⟨m :: todo, none, false⟩ :: post) :
      Step shardFor P s { s with writers := pre ++ ⟨todo, none, false⟩ :: post }
  | put (s : CdcSys) (pre post key value stampUs todo)
      (h : s.writers = pre ++ ⟨.put key value :: todo, none, false⟩ :: post)
      (hfree : s.Unlocked shardFor key) (hP : P s key) :
      Step shardFor P s
        (s.install pre post todo false (.live value 0) ⟨.put, key, value, stampUs⟩)
  | delete (s : CdcSys) (pre post key stampUs todo)
      (h : s.writers = pre ++ ⟨.delete key :: todo, none, false⟩ :: post)
      (hfree : s.Unlocked shardFor key) (hP : P s key) :
      Step shardFor P s
        (s.install pre post todo false (s.index key).bury ⟨.del, key, [], stampUs⟩)
  /-- An atomic operation that read `cur` keeps the lock of its shard. -/
  | atomic (s : CdcSys) (pre post key op cur value stampUs todo)
      (h : s.writers = pre ++ ⟨.atomic key op :: todo, none, false⟩ :: post)
      (hvalue : op.value cur = some value) (hfree : s.Unlocked shardFor key) (hP : P s key) :
      Step shardFor P s
        (s.install pre post todo true (.live value 0) ⟨.put, key, value, stampUs⟩)
  | broadcast (s : CdcSys) (pre post todo ev holdsShard)
      (h : s.writers = pre ++ ⟨todo, some ev, holdsShard⟩ :: post)
      (hroom : s.sub.ch.length < s.sub.bufferSize) :
      Step shardFor P s
        { s with writers := pre ++ ⟨todo, none, false⟩ :: post, sub := s.sub.broadcast ev }
  | returns (s : CdcSys) (pre post)
      (h : s.writers = pre ++ ⟨[], none, false⟩ :: post) :
      Step shardFor P s { s with writers := pre ++ post }
  | take (s : CdcSys) (ev ch) (h : s.sub.ch = ev :: ch) :
      Step shardFor P s
        { s with sub := { s.sub with ch := ch, taken := s.sub.taken ++ [ev] } }

def Run (shardFor : Key → Nat) (P : CdcSys → Key → Prop) (index : Key → Slot)
    (bufferSize : Nat) (s : CdcSys) : Prop :=
  Relation.ReflTransGen (Step shardFor P) (start index bufferSize) s

def anyInstall : CdcSys → Key → Prop := fun _ _ => True

def announced (s : CdcSys) (key : Key) : Prop :=
  ∀ w ∈ s.writers, ∀ ev ∈ w.event, ev.key ≠ key

/-! ## The stream ends in the current state -/

structure Sound (s : CdcSys) : Prop where
  open_all : s.sub.closed = false ∧ s.sub.keyPrefix = []
  perm : (s.sub.received ++ s.writers.filterMap CdcWriter.event).Perm s.installed
  pending : ∀ w ∈ s.writers, ∀ ev ∈ w.event, ev.Tells (s.index ev.key)
  last : ∀ ev, LastOfKey s.sub.received ev → s.announced ev.key → ev.Tells (s.index ev.key)

end CdcSys

theorem lastOfKey_concat {evs : List CdcEvent} {ev e : CdcEvent} (h : LastOfKey (evs ++ [e]) ev) :
    ev = e ∨ e.key ≠ ev.key ∧ LastOfKey evs ev := by
  obtain ⟨pre, post, heq, hpost⟩ := h
  cases post using reverseRecOn with
  | nil =>
    obtain ⟨-, htail⟩ := append_inj' heq rfl
    exact .inl (singleton_inj.mp htail).symm
  | append_singleton post e' =>
    rw [← cons_append, ← append_assoc] at heq
    obtain ⟨hevs, htail⟩ := append_inj' heq rfl
    obtain rfl := singleton_inj.mp htail
    exact .inr ⟨hpost e (mem_append_right _ (mem_singleton_self _)), pre, post, hevs,
      fun e' he' => hpost e' (mem_append_left _ he')⟩

namespace CdcSys

variable {shardFor : Key → Nat} {s s' : CdcSys} {pre post : List CdcWriter} {w w' : CdcWriter}

theorem sound_start (index : Key → Slot) (bufferSize : Nat) : (start index bufferSize).Sound where
  open_all := ⟨rfl, rfl⟩
  perm := .refl _
  pending := fun w hw => (by cases hw)
  last := by
    rintro ev ⟨pre, post, h, -⟩
    exact absurd h (by simp [start, CdcSubscription.received])

/-- A writer without an event comes, goes or moves on. -/
theorem Sound.of_writers (h : s.Sound) {ws : List CdcWriter}
    (hws : ws.filterMap CdcWriter.event = s.writers.filterMap CdcWriter.event) :
    { s with writers := ws }.Sound := by
  have hmem : ∀ ev, (∃ w ∈ ws, ev ∈ w.event) ↔ ∃ w ∈ s.writers, ev ∈ w.event := by
    intro ev
    simp only [Option.mem_def, ← mem_filterMap, hws]
  refine { h with perm := hws ▸ h.perm, pending := fun w hw ev hev => ?_, last := ?_ }
  · obtain ⟨w', hw', hev'⟩ := (hmem ev).mp ⟨w, hw, hev⟩
    exact h.pending w' hw' ev hev'
  · intro ev hlast hann
    refine h.last ev hlast fun w hw e he => ?_
    obtain ⟨w', hw', he'⟩ := (hmem e).mpr ⟨w, hw, he⟩
    exact hann w' hw' e he'

theorem announced_of_replaced (hws : s.writers = pre ++ w :: post) {key : Key}
    (h : announced { s with writers := pre ++ w' :: post } key)
    (hw : ∀ ev ∈ w.event, ev.key ≠ key) : s.announced key := by
  intro v hv
  rcases mem_middle_cases hws hv with rfl | hv
  · exact hw
  · exact h v (mem_middle_iff.mpr (.inr hv))

theorem Sound.install (h : s.Sound) {m : CdcMutation} {todo : List CdcMutation}
    (hws : s.writers = pre ++ ⟨m :: todo, none, false⟩ :: post) {slot : Slot} {ev : CdcEvent}
    (htells : ev.Tells slot) (hann : s.announced ev.key) (holdsShard : Bool) :
    (s.install pre post todo holdsShard slot ev).Sound where
  open_all := h.open_all
  perm := by
    have hperm := (h.perm.append_right [ev])
    rw [hws] at hperm
    refine .trans ?_ hperm
    simp only [CdcSys.install, filterMap_append, filterMap_cons, append_assoc]
    refine (Perm.refl _).append ((Perm.refl _).append ?_)
    exact (perm_append_singleton ev _).symm
  pending := by
    intro v hv e he
    rcases mem_replaced hws hv with rfl | hv
    · obtain rfl := Option.mem_some_iff.mp he
      show ev.Tells (update s.index ev.key slot ev.key)
      rwa [update_self]
    · show e.Tells (update s.index ev.key slot e.key)
      rw [update_of_ne (hann v hv e he)]
      exact h.pending v hv e he
  last := by
    intro e hlast hann'
    have hne : ev.key ≠ e.key := hann' _ (mem_append_right _ mem_cons_self) ev rfl
    show e.Tells (update s.index ev.key slot e.key)
    rw [update_of_ne hne.symm]
    exact h.last e hlast (announced_of_replaced hws hann' fun e' he' => (by cases he'))

theorem Sound.broadcast (h : s.Sound) {todo : List CdcMutation} {ev : CdcEvent}
    {holdsShard : Bool} (hws : s.writers = pre ++ ⟨todo, some ev, holdsShard⟩ :: post)
    (hroom : s.sub.ch.length < s.sub.bufferSize) :
    Sound { s with
      writers := pre ++ ⟨todo, none, false⟩ :: post
      sub := s.sub.broadcast ev } := by
  have hsub : s.sub.broadcast ev = { s.sub with ch := s.sub.ch ++ [ev], consecutiveDrops := 0 } := by
    simp [CdcSubscription.broadcast, h.open_all, hroom]
  have hreceived : (s.sub.broadcast ev).received = s.sub.received ++ [ev] := by
    rw [hsub, CdcSubscription.received, ← append_assoc]
    rfl
  have hown : ev.Tells (s.index ev.key) :=
    h.pending _ (mem_middle hws) ev rfl
  constructor
  · rw [hsub]
    exact h.open_all
  · refine .trans ?_ h.perm
    rw [hreceived, hws]
    simp only [filterMap_append, filterMap_cons, append_assoc, singleton_append]
    exact (Perm.refl _).append perm_middle.symm
  · intro v hv e he
    rcases mem_replaced hws hv with rfl | hv
    · cases he
    · exact h.pending v hv e he
  · intro e hlast hann
    rw [hreceived] at hlast
    rcases lastOfKey_concat hlast with rfl | ⟨hne, hlast⟩
    · exact hown
    · refine h.last e hlast (announced_of_replaced hws hann fun e' he' => ?_)
      obtain rfl := Option.mem_some_iff.mp he'
      exact hne

/-- Every step keeps the stream in line with the index, when each install finds the writes
of its key announced. -/
theorem Sound.step (h : s.Sound) (hstep : Step shardFor announced s s') : s'.Sound := by
  cases hstep with
  | call => exact h.of_writers rfl
  | refuse _ _ _ _ hws | returns _ _ hws =>
    apply h.of_writers
    rw [hws, filterMap_append, filterMap_append]
    rfl
  | put pre post key value stampUs todo hws hfree hann =>
    refine h.install hws ?_ hann false
    exact ⟨rfl, rfl⟩
  | delete pre post key stampUs todo hws hfree hann =>
    refine h.install hws ?_ hann false
    cases s.index key <;> rfl
  | atomic pre post key op cur value stampUs todo hws hvalue hfree hann =>
    refine h.install hws ?_ hann true
    exact ⟨rfl, rfl⟩
  | broadcast pre post todo ev holdsShard hws hroom => exact h.broadcast hws hroom
  | take ev ch hch =>
    have hreceived : { s.sub with ch := ch, taken := s.sub.taken ++ [ev] }.received =
        s.sub.received := by
      simp [CdcSubscription.received, hch]
    exact ⟨h.open_all, hreceived ▸ h.perm, h.pending, hreceived ▸ h.last⟩

theorem Run.sound {index : Key → Slot} {bufferSize : Nat}
    (hrun : Run shardFor announced index bufferSize s) : s.Sound := by
  induction hrun with
  | refl => exact sound_start index bufferSize
  | tail _ hstep ih => exact ih.step hstep

/-- Once all operations have returned, the channel has received one event for each
mutation that took place, and the last event of every key tells its current value or that
it is gone. -/
theorem Run.last_event {index : Key → Slot} {bufferSize : Nat}
    (hrun : Run shardFor announced index bufferSize s) (hdone : s.writers = []) :
    s.sub.received.Perm s.installed ∧
      ∀ ev, LastOfKey s.sub.received ev → ev.Tells (s.index ev.key) := by
  have h := hrun.sound
  refine ⟨?_, fun ev hlast => h.last ev hlast fun w hw => ?_⟩
  · have hperm := h.perm
    rwa [hdone, filterMap_nil, append_nil] at hperm
  · rw [hdone] at hw
    cases hw

/-- A put and a delete of one key, one after the other. -/
theorem last_event_put_delete :
    ∃ s : CdcSys, s.writers = [] ∧ s.sub.received.length = 2 ∧ s.index [107] = .tombstone ∧
      s.sub.received.Perm s.installed ∧
      ∀ ev, LastOfKey s.sub.received ev → ev.Tells (s.index ev.key) := by
  have h₀ : Run (fun _ => 0) announced (fun _ => .absent) 2 (start (fun _ => .absent) 2) := .refl
  have h₁ := h₀.tail (.call _ [.put [107] [97], .delete [107]])
  have h₂ := h₁.tail (.put _ [] [] [107] [97] 1 _ rfl (by simp [Unlocked, start])
    (by simp [announced, start]))
  have h₃ := h₂.tail (.broadcast _ [] [] _ _ _ rfl (by decide))
  have h₄ := h₃.tail (.delete _ [] [] [107] 2 _ rfl (by simp [Unlocked]) (by simp [announced]))
  have h₅ := h₄.tail (.broadcast _ [] [] _ _ _ rfl (by decide))
  have h₆ := h₅.tail (.returns _ [] [] rfl)
  exact ⟨_, rfl, rfl, rfl, Run.last_event h₆ rfl⟩

/-- Two puts of one key are announced in the order in which they were not installed: the
last event carries the value that was overwritten. -/
theorem last_event_overtaken :
    ∃ (s : CdcSys) (ev : CdcEvent), Run (fun _ => 0) anyInstall (fun _ => .absent) 2 s ∧
      s.writers = [] ∧ LastOfKey s.sub.received ev ∧ ev.op = .put ∧ ev.value = [97] ∧
      s.index ev.key = .live [98] 0 := by
  have h₀ : Run (fun _ => 0) anyInstall (fun _ => .absent) 2 (start (fun _ => .absent) 2) := .refl
  have h₁ := h₀.tail (.call _ [.put [107] [97]])
  have h₂ := h₁.tail (.call _ [.put [107] [98]])
  have h₃ := h₂.tail (.put _ [_] [] [107] [97] 1 _ rfl (by simp [Unlocked, start]) trivial)
  have h₄ := h₃.tail (.put _ [] [_] [107] [98] 2 _ rfl (by simp [Unlocked, install]) trivial)
  have h₅ := h₄.tail (.broadcast _ [] [_] _ _ _ rfl (by decide))
  have h₆ := h₅.tail (.broadcast _ [_] [] _ _ _ rfl (by decide))
  have h₇ := h₆.tail (.returns _ [] [_] rfl)
  have h₈ := h₇.tail (.returns _ [] [] rfl)
  refine ⟨_, ⟨.put, [107], [97], 1⟩, h₈, rfl, ⟨[_], [], rfl, ?_⟩, rfl, rfl, rfl⟩
  intro e he
  cases he

end CdcSys

end VeltrixDB.Storage
