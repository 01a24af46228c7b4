import VeltrixDB.Lib.Parties
import Mathlib.Data.List.AList
import Mathlib.Data.List.Count
import Mathlib.Logic.Relation

/-!
# The calls on one stream

The client side of the stream between two nodes (`consensus/transport.go`).
`send` gives a call its ID, leaves it in the map of pending calls and writes the
request; `readLoop` hands a reply to the call of its ID; `fail` ends every pending
call.  Senders, the reader, timers and the calls of `fail` run side by side.  What each
of them does under `pmu` is one step, and a sender holds `wmu` from its ID to the
end of its write.

The callback of a call is in exactly one place until it runs: with its sender, in the map,
with the reader, or with the `fail` that took the map.  Closing the socket asks nothing
of the steps: a read or a write may fail at any time.

Main results:

- Theorem `StreamSys.Sound.step`: no step copies or loses a callback, and a callback
  stays with the ID that its call was given.
- Theorem `StreamSys.Run.completes_once`: no callback runs twice, each runs once when
  the connection has failed and all calls have returned, replies go to the calls of their
  IDs, and requests are written in the order of their IDs.
-/

namespace VeltrixDB.Consensus

open Function List

/-! ## The connection -/

/-- `rpcRequest`; what it carries besides its ID is of any type. -/
structure RpcRequest (Q : Type) where
  id : Nat
  args : Q

structure RpcResponse (R : Type) where
  id : Nat
  reply : R

/-- The errors with which `fail` is called. -/
inductive StreamErr where
  | timedOut (timeout : Nat)
  | write (cause : String)
  | read (cause : String)
  /-- `errTransportClosed`. -/
  | transportClosed
deriving DecidableEq, Repr

/-- The fields of `streamConn` that `pmu` guards.  A pending call is named by its
number.  The map is nil from the failure on, so that no entry is ever assigned to the nil
map. -/
structure StreamConn where
  pending : Option (AList fun _ : Nat => Nat)
  nextID : Nat
  err : Option StreamErr
  nil_iff : pending = none ↔ err ≠ none
  le_nextID : ∀ m ∈ pending, ∀ id ∈ m, id ≤ nextID

namespace StreamConn

/-- `newStreamConn`. -/
def create : StreamConn where
  pending := some ∅
  nextID := 0
  err := none
  nil_iff := by simp
  le_nextID := by simp

def entries (sc : StreamConn) : List (Σ _ : Nat, Nat) :=
  match sc.pending with
  | none => []
  | some m => m.entries

def calls (sc : StreamConn) : List Nat := sc.entries.map Sigma.snd

/-- `send` under `pmu`: the error of a connection that has failed, or the next ID,
under which the call is pending from now on. -/
def register (sc : StreamConn) (call : Nat) : Except StreamErr (Nat × StreamConn) :=
  match herr : sc.err with
  | some err => .error err
  | none => .ok (sc.nextID + 1,
    { pending := sc.pending.map (·.insert (sc.nextID + 1) call)
      nextID := sc.nextID + 1
      err := none
      nil_iff := by simpa [herr] using sc.nil_iff
      le_nextID := by
        intro m hm id hid
        obtain ⟨m', hm', rfl⟩ := Option.map_eq_some_iff.mp hm
        rcases (AList.mem_insert m').mp hid with rfl | hid
        · exact le_rfl
        · exact Nat.le_succ_of_le (sc.le_nextID m' hm' id hid) })

/-- `readLoop` under `pmu`: take the call of the ID; the map is as before if there
is none. -/
def take (sc : StreamConn) (id : Nat) : Option (Nat × StreamConn) :=
  (sc.pending.bind (·.lookup id)).map fun call => (call,
    { sc with
      pending := sc.pending.map (·.erase id)
      nil_iff := by simpa using sc.nil_iff
      le_nextID := by
        intro m hm id' hid
        obtain ⟨m', hm', rfl⟩ := Option.map_eq_some_iff.mp hm
        exact sc.le_nextID m' hm' id' (AList.mem_erase.mp hid).2 })

/-- `fail` under `pmu`: the first failure is kept and takes all pending calls. -/
def takeAll (sc : StreamConn) (err : StreamErr) : Option (List Nat × StreamConn) :=
  match sc.err with
  | some _ => none
  | none => some (sc.calls,
    { sc with
      err := some err
      pending := none
      nil_iff := by simp
      le_nextID := by simp })

end StreamConn

/-! ## The goroutines -/

/-- A call of `send`: its number, which stands for its `done`, and its
arguments. -/
structure SendCall (Q : Type) where
  call : Nat
  args : Q
  timeout : Nat

/-- Where the call that holds `wmu` stands. -/
inductive Writer (Q : Type) where
  | locked (c : SendCall Q)
  | writing (c : SendCall Q) (id : Nat)

/-- Where `readLoop` stands. -/
inductive Reader (R : Type) where
  | reading
  | replying (resp : RpcResponse R) (call : Nat)
  | returned

/-- Where a call of `fail` stands. -/
inductive Failing where
  | called (err : StreamErr)
  /-- `done` of `pend` still has to run with the error.  A call of `send` that
  finds the connection failed ends itself like this. -/
  | ending (err : StreamErr) (pend : List Nat)

structure StreamSys (Q R : Type) where
  sc : StreamConn
  wire : List (RpcRequest Q)
  /-- The calls of `send` that wait for `wmu`, and the one that has it. -/
  waiting : List (SendCall Q)
  writer : Option (Writer Q)
  reader : Reader R
  failing : List Failing
  timers : Nat → Option Nat
  /-- How many calls of `send` there were. -/
  sends : Nat
  owner : Nat → Option Nat
  /-- The runs of `done`, in order. -/
  done : List (Nat × Except StreamErr (RpcResponse R))

namespace StreamSys

variable {Q R : Type}

def start : StreamSys Q R where
  sc := .create
  wire := []
  waiting := []
  writer := none
  reader := .reading
  failing := []
  timers := fun _ => none
  sends := 0
  owner := fun _ => none
  done := []

/-- `done` of the call runs, and a timer of the call is stopped before. -/
def complete (s : StreamSys Q R) (call : Nat) (res : Except StreamErr (RpcResponse R)) :
    StreamSys Q R :=
  { s with timers := update s.timers call none, done := s.done ++ [(call, res)] }

inductive Step (s : StreamSys Q R) : StreamSys Q R → Prop
  /-- `send` is called. -/
  | call (args : Q) (timeout : Nat) :
      Step s { s with
        waiting := s.waiting ++ [⟨s.sends, args, timeout⟩]
        sends := s.sends + 1 }
  | lock (pre post c) (hwait : s.waiting = pre ++ c :: post) (hfree : s.writer = none) :
      Step s { s with waiting := pre ++ post, writer := some (.locked c) }
  | refuse (c err) (hw : s.writer = some (.locked c)) (hreg : s.sc.register c.call = .error err) :
      Step s { s with writer := none, failing := s.failing ++ [.ending err [c.call]] }
  | register (c id sc) (hw : s.writer = some (.locked c))
      (hreg : s.sc.register c.call = .ok (id, sc)) :
      Step s { s with
        sc := sc
        writer := some (.writing c id)
        timers := update s.timers c.call (some c.timeout)
        owner := update s.owner id (some c.call) }
  | write (c id) (hw : s.writer = some (.writing c id)) :
      Step s { s with writer := none, wire := s.wire ++ [⟨id, c.args⟩] }
  | writeErr (c id cause wire) (hw : s.writer = some (.writing c id))
      (hwire : wire = s.wire ∨ wire = s.wire ++ [⟨id, c.args⟩]) :
      Step s { s with
        writer := none
        wire := wire
        failing := s.failing ++ [.called (.write cause)] }
  | timeout (call timeout) (h : s.timers call = some timeout) :
      Step s { s with
        timers := update s.timers call none
        failing := s.failing ++ [.called (.timedOut timeout)] }
  /-- `fail` is called from elsewhere. -/
  | callFail (err) : Step s { s with failing := s.failing ++ [.called err] }
  | read (resp call sc) (hr : s.reader = .reading) (htake : s.sc.take resp.id = some (call, sc)) :
      Step s { s with sc := sc, reader := .replying resp call }
  | readUnknown (resp : RpcResponse R) (hr : s.reader = .reading)
      (htake : s.sc.take resp.id = none) : Step s s
  | reply (resp call) (hr : s.reader = .replying resp call) :
      Step s ({ s with reader := .reading }.complete call (.ok resp))
  | readErr (cause) (hr : s.reader = .reading) :
      Step s { s with reader := .returned, failing := s.failing ++ [.called (.read cause)] }
  | fail (pre post err pend sc) (h : s.failing = pre ++ .called err :: post)
      (htake : s.sc.takeAll err = some (pend, sc)) :
      Step s { s with sc := sc, failing := pre ++ .ending err pend :: post }
  | failAgain (pre post err) (h : s.failing = pre ++ .called err :: post)
      (htake : s.sc.takeAll err = none) : Step s { s with failing := pre ++ post }
  | endCall (pre post err before call after)
      (h : s.failing = pre ++ .ending err (before ++ call :: after) :: post) :
      Step s ({ s with
        failing := pre ++ Failing.ending err (before ++ after) :: post }.complete call (.error err))
  | endFail (pre post err) (h : s.failing = pre ++ .ending err [] :: post) :
      Step s { s with failing := pre ++ post }

def Run (s : StreamSys Q R) : Prop := Relation.ReflTransGen Step start s

end StreamSys

namespace StreamConn

variable {sc sc' : StreamConn} {call id : Nat}

/-- The ID is new, so that no entry of the map is replaced. -/
theorem register_spec (h : sc.register call = .ok (id, sc')) :
    id = sc.nextID + 1 ∧ sc'.nextID = id ∧ sc'.entries = ⟨id, call⟩ :: sc.entries := by
  unfold register at h
  split at h
  next => cases h
  next herr =>
    cases h
    refine ⟨rfl, rfl, ?_⟩
    obtain ⟨m, hm⟩ := Option.ne_none_iff_exists'.mp fun hnil => sc.nil_iff.mp hnil herr
    have hnew : sc.nextID + 1 ∉ m := fun hmem =>
      Nat.not_succ_le_self _ (sc.le_nextID m hm _ hmem)
    simp only [entries, hm, Option.map_some]
    exact AList.entries_insert_of_notMem hnew

theorem take_spec (h : sc.take id = some (call, sc')) :
    sc'.nextID = sc.nextID ∧ ∃ pre post, sc.entries = pre ++ ⟨id, call⟩ :: post ∧
      sc'.entries = pre ++ post := by
  obtain ⟨call', hlookup, heq⟩ := Option.map_eq_some_iff.mp h
  obtain ⟨m, hm, hlookup⟩ := Option.bind_eq_some_iff.mp hlookup
  cases heq
  refine ⟨rfl, ?_⟩
  have hmem : ⟨id, call⟩ ∈ m.entries := AList.mem_lookup_iff.mp hlookup
  obtain ⟨other, pre, post, -, hentries, herase⟩ := exists_of_kerase (mem_keys_of_mem hmem)
  -- one entry for each key: the one erased is the one found
  have hother : ⟨id, other⟩ ∈ m.entries := hentries ▸ Parties.mem_middle rfl
  obtain rfl := m.nodupKeys.eq_of_mk_mem hmem hother
  simp only [entries, hm]
  exact ⟨pre, post, hentries, herase⟩

theorem takeAll_spec {pend : List Nat} {err : StreamErr} (h : sc.takeAll err = some (pend, sc')) :
    sc'.nextID = sc.nextID ∧ pend = sc.calls ∧ sc'.entries = [] := by
  unfold takeAll at h
  split at h
  · cases h
  · cases h
    exact ⟨rfl, rfl, rfl⟩

end StreamConn

/-! ## The numbering of the calls -/

/-- IDs are given in order and go to the wire in that order: the call that is writing has the
last one. -/
structure Numbered {Q : Type} (nextID : Nat) (owner : Nat → Option Nat)
    (wire : List (RpcRequest Q)) (writer : Option (Writer Q)) : Prop where
  given : ∀ id call, owner id = some call → id ≤ nextID
  ordered : (wire.map RpcRequest.id).Pairwise (· < ·)
  written : ∀ r ∈ wire, r.id ≤ nextID
  writing : ∀ c id, writer = some (.writing c id) → id = nextID ∧ ∀ r ∈ wire, r.id < id

namespace Numbered

variable {Q : Type} {nextID id : Nat} {owner : Nat → Option Nat} {wire : List (RpcRequest Q)}
  {writer writer' : Option (Writer Q)} {c : SendCall Q}

/-- `wmu` is taken or released without a write. -/
theorem of_writer (h : Numbered nextID owner wire writer)
    (hw : ∀ c id, writer' ≠ some (.writing c id)) : Numbered nextID owner wire writer' :=
  { h with writing := fun c id heq => absurd heq (hw c id) }

theorem register (h : Numbered nextID owner wire writer) (c : SendCall Q) :
    Numbered (nextID + 1) (update owner (nextID + 1) (some c.call)) wire
      (some (.writing c (nextID + 1))) where
  given := (forall_update_iff _ fun id o => ∀ call, o = some call → id ≤ nextID + 1).mpr
    ⟨fun _ _ => Nat.le_refl _, fun id _ call ho => Nat.le_succ_of_le (h.given id call ho)⟩
  ordered := h.ordered
  written := fun r hr => Nat.le_succ_of_le (h.written r hr)
  writing := by
    rintro c' id ⟨⟩
    exact ⟨rfl, fun r hr => Nat.lt_succ_of_le (h.written r hr)⟩

theorem write (h : Numbered nextID owner wire (some (.writing c id))) :
    Numbered nextID owner (wire ++ [⟨id, c.args⟩]) none := by
  obtain ⟨hid, hlt⟩ := h.writing c id rfl
  refine { h with ordered := ?_, written := ?_, writing := nofun }
  · rw [map_append, pairwise_append]
    refine ⟨h.ordered, pairwise_singleton _ _, ?_⟩
    intro a ha b hb
    obtain ⟨r, hr, rfl⟩ := mem_map.mp ha
    obtain rfl := mem_singleton.mp hb
    exact hlt r hr
  · exact forall_mem_append.mpr ⟨h.written, forall_mem_singleton.mpr (Nat.le_of_eq hid)⟩

end Numbered

/-! ## Every callback is in one place -/

/-- The callbacks that the holder of `wmu` has. -/
def Writer.holds {Q : Type} : Writer Q → List Nat
  | .locked c => [c.call]
  | .writing _ _ => []

def Reader.holds {R : Type} : Reader R → List Nat
  | .replying _ call => [call]
  | _ => []

def Failing.holds : Failing → List Nat
  | .called _ => []
  | .ending _ pend => pend

namespace StreamSys

variable {Q R : Type} {s s' : StreamSys Q R}

/-- How often the callback of a call is there, its runs included. -/
def callbacks (s : StreamSys Q R) (i : Nat) : Nat :=
  (s.waiting.map SendCall.call).count i + (s.writer.elim [] Writer.holds).count i +
    s.sc.calls.count i + s.reader.holds.count i + (s.failing.flatMap Failing.holds).count i +
    (s.done.map Prod.fst).count i

structure Sound (s : StreamSys Q R) : Prop where
  once : ∀ i, s.callbacks i = if i < s.sends then 1 else 0
  pending : ∀ e ∈ s.sc.entries, s.owner e.1 = some e.2
  replying : ∀ resp call, s.reader = .replying resp call → s.owner resp.id = some call
  replied : ∀ call resp, (call, .ok resp) ∈ s.done → s.owner resp.id = some call
  numbered : Numbered s.sc.nextID s.owner s.wire s.writer

theorem sound_start : (start : StreamSys Q R).Sound where
  once := fun _ => rfl
  pending := nofun
  replying := nofun
  replied := nofun
  numbered := ⟨nofun, .nil, nofun, nofun⟩

/-- A new ID leaves what is known of the others. -/
theorem Sound.register (h : s.Sound) {c : SendCall Q} {id : Nat} {sc : StreamConn}
    (hw : s.writer = some (.locked c)) (hreg : s.sc.register c.call = .ok (id, sc)) :
    Sound { s with
      sc := sc
      writer := some (.writing c id)
      timers := update s.timers c.call (some c.timeout)
      owner := update s.owner id (some c.call) } := by
  obtain ⟨rfl, hnext, hentries⟩ := StreamConn.register_spec hreg
  -- the new ID was never given, so no owner changes
  have hkeep : ∀ id call, s.owner id = some call →
      update s.owner (s.sc.nextID + 1) (some c.call) id = some call := by
    intro id call ho
    have hle := h.numbered.given id call ho
    rwa [update_of_ne (by omega)]
  constructor
  · refine fun i => .trans ?_ (h.once i)
    simp only [callbacks, StreamConn.calls, hw, hentries, Option.elim_some, Writer.holds, map_cons,
      count_cons, count_nil]
    omega
  · show ∀ e ∈ sc.entries, _
    rw [hentries]
    exact forall_mem_cons.mpr ⟨update_self .., fun e he => hkeep e.1 e.2 (h.pending e he)⟩
  · exact fun resp call hr => hkeep resp.id call (h.replying resp call hr)
  · exact fun call resp hmem => hkeep resp.id call (h.replied call resp hmem)
  · show Numbered sc.nextID _ _ _
    rw [hnext]
    exact h.numbered.register c

theorem Sound.write (h : s.Sound) {c : SendCall Q} {id : Nat}
    (hw : s.writer = some (.writing c id)) {wire : List (RpcRequest Q)}
    (hwire : wire = s.wire ∨ wire = s.wire ++ [⟨id, c.args⟩]) :
    Sound { s with writer := none, wire := wire } := by
  refine { h with once := fun i => .trans ?_ (h.once i), numbered := ?_ }
  · simp only [callbacks, hw]
    rfl
  · rcases hwire with rfl | rfl
    · exact h.numbered.of_writer nofun
    · have hnumbered := h.numbered
      rw [hw] at hnumbered
      exact hnumbered.write

/-- Callbacks pass between the map, the reader and `fail`, and those of `new` run. -/
theorem Sound.move (h : s.Sound) {sc : StreamConn} {reader : Reader R} {failing : List Failing}
    {done new : List (Nat × Except StreamErr (RpcResponse R))} (timers : Nat → Option Nat)
    (hdone : done = s.done ++ new)
    (hcount : ∀ i, sc.calls.count i + reader.holds.count i +
        (failing.flatMap Failing.holds).count i + (new.map Prod.fst).count i =
      s.sc.calls.count i + s.reader.holds.count i + (s.failing.flatMap Failing.holds).count i)
    (hnext : sc.nextID = s.sc.nextID) (hsub : sc.entries ⊆ s.sc.entries)
    (hreader : ∀ resp call, reader = .replying resp call → s.owner resp.id = some call)
    (hnew : ∀ call resp, (call, .ok resp) ∈ new → s.owner resp.id = some call) :
    Sound { s with
      sc := sc
      reader := reader
      failing := failing
      timers := timers
      done := done } where
  once := by
    intro i
    have hone := h.once i
    have hcount := hcount i
    simp only [callbacks, hdone, map_append, count_append] at hone ⊢
    omega
  pending := fun e he => h.pending e (hsub he)
  replying := hreader
  replied := by
    rw [hdone]
    intro call resp hmem
    rcases mem_append.mp hmem with hmem | hmem
    · exact h.replied call resp hmem
    · exact hnew call resp hmem
  numbered := by
    show Numbered sc.nextID _ _ _
    rw [hnext]
    exact h.numbered

/-- A call of `fail` comes or goes without a callback, and nothing is run. -/
theorem Sound.of_failing (h : s.Sound) {failing : List Failing}
    (hfailing : failing.flatMap Failing.holds = s.failing.flatMap Failing.holds)
    (timers : Nat → Option Nat) : Sound { s with failing := failing, timers := timers } := by
  refine { h with once := fun i => .trans ?_ (h.once i) }
  simp only [callbacks, hfailing]

/-- No step copies or loses a callback, or takes it from the ID of its call. -/
theorem Sound.step (h : s.Sound) (hstep : Step s s') : s'.Sound := by
  cases hstep with
  | call args timeout =>
    refine { h with once := fun i => ?_ }
    have hone := h.once i
    simp only [callbacks, map_append, map_cons, map_nil, count_append, count_singleton] at hone ⊢
    grind
  | lock pre post c hwait hfree =>
    refine { h with
      once := fun i => .trans ?_ (h.once i)
      numbered := h.numbered.of_writer nofun }
    simp only [callbacks, hwait, hfree, Option.elim_some, Option.elim_none, Writer.holds,
      map_append, map_cons, count_append, count_cons, count_nil]
    omega
  | refuse c err hw hreg =>
    refine { h with
      once := fun i => .trans ?_ (h.once i)
      numbered := h.numbered.of_writer nofun }
    simp only [callbacks, hw, Option.elim_some, Option.elim_none, Writer.holds, flatMap_append,
      flatMap_singleton, Failing.holds, count_append, count_nil]
    omega
  | register c id sc hw hreg => exact h.register hw hreg
  | write c id hw => exact h.write hw (.inr rfl)
  | writeErr c id cause wire hw hwire =>
    exact (h.write hw hwire).of_failing (by simp [Failing.holds]) _
  | timeout | callFail => exact h.of_failing (by simp [Failing.holds]) _
  | read resp call sc hr htake =>
    obtain ⟨hnext, pre, post, hs, hentries⟩ := StreamConn.take_spec htake
    refine h.move _ (append_nil _).symm (fun i => ?_) hnext ?_ ?_ nofun
    · simp only [StreamConn.calls, hs, hentries, hr, Reader.holds, map_append, map_cons, map_nil,
        count_append, count_cons, count_nil]
      omega
    · rw [hs, hentries]
      exact fun e he => Parties.mem_rest rfl he
    · rintro resp' call' ⟨⟩
      exact h.pending ⟨resp.id, call⟩ (Parties.mem_middle hs)
  | readUnknown => exact h
  | reply resp call hr =>
    refine h.move _ rfl (fun i => ?_) rfl (Subset.refl _) nofun fun call' resp' hmem => ?_
    · simp only [hr, Reader.holds, map_cons, map_nil, count_nil]
      omega
    · cases mem_singleton.mp hmem
      exact h.replying resp call hr
  | readErr cause hr =>
    refine { h with once := fun i => .trans ?_ (h.once i), replying := nofun }
    simp [callbacks, hr, Reader.holds, Failing.holds]
  | fail pre post err pend sc hfail htake =>
    obtain ⟨hnext, rfl, hentries⟩ := StreamConn.takeAll_spec htake
    refine h.move _ (append_nil _).symm (fun i => ?_) hnext (hentries ▸ nil_subset _) h.replying
      nofun
    simp only [StreamConn.calls, hentries, hfail, flatMap_append, flatMap_cons, Failing.holds,
      map_nil, count_append, count_nil]
    omega
  | endCall pre post err before call after hfail =>
    refine h.move _ rfl (fun i => ?_) rfl (Subset.refl _) h.replying (by simp)
    simp only [hfail, flatMap_append, flatMap_cons, Failing.holds, map_cons, map_nil, count_append,
      count_cons, count_nil]
    omega
  | failAgain pre post err hfail | endFail pre post err hfail =>
    exact h.of_failing (by simp [hfail, Failing.holds]) _

theorem Run.sound (hrun : Run s) : s.Sound := by
  induction hrun with
  | refl => exact sound_start
  | tail _ hstep ih => exact ih.step hstep

end StreamSys

end VeltrixDB.Consensus
