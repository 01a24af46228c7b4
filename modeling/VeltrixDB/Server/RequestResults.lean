import VeltrixDB.Storage.Replay
import Mathlib.Logic.Function.Basic
import Mathlib.Logic.Relation

/-!
# Results of submitted commands

In raft mode a client's write becomes a log entry, and what applying it gave finds
its way back through a channel that is registered under a request id
(`cmd/server/coordinator.go`, `cmd/server/raft_fsm.go`,
`cmd/server/cluster_setup.go`).  The id is made of a hash of the node's name and
a counter that starts again with the process; plain writes carry no id.  The log is
taken as a set of entries of which each node may apply any at any time: nothing here
depends on their order.

Main results:

- Theorem `Cluster.Sound.step`: what one step keeps.
- Theorem `Cluster.Run.answer_honest`: in runs without foreign entries under a registered
  id and without failed plain writes, each answer is the outcome of its own command.
- Theorem `nextReqID_apart`: two nodes with different salts draw different ids as long
  as neither has drawn `2 ^ 20`.
-/

namespace VeltrixDB.Server

open Function List

open VeltrixDB.Storage
open Bytes (fnv64a)

/-! ## Commands and their results -/

inductive FsmOp where
  | put | delete | multiPut | cas | incr | decr | setNX | txn
  | nsPut | nsDelete | nsDrop | hSet | hDel | hExpire | vSet | idxCreate | idxDrop
  | lPush | rPush | lPop | rPop | sAdd | sRem | vDel
deriving DecidableEq, Repr

/-- The operations that the coordinator hands to `submitVoid`. -/
def FsmOp.isVoid : FsmOp → Bool
  | .put | .delete | .multiPut => true
  | _ => false

inductive CASResult where
  | success | mismatch | keyNotFound
deriving DecidableEq, Repr

inductive SetNXResult where
  | created | exists
deriving DecidableEq, Repr

/-- `fsmResult`; an error is its text. -/
structure FsmResult where
  casRes : CASResult
  setnxRes : SetNXResult
  intVal : Int
  bytesVal : List UInt8
  boolVal : Bool
  err : Option (List UInt8)
deriving DecidableEq, Repr

/-- `fsmCmd`; the operands are taken together. -/
structure FsmCmd where
  op : FsmOp
  reqID : UInt64
  operands : List UInt8
deriving DecidableEq, Repr

abbrev NodeID := List UInt8

def nodeSalt (id : NodeID) : UInt64 := fnv64a id <<< 20

/-- `nextReqID` when the counter has been raised to `seq`. -/
def nextReqID (id : NodeID) (seq : Nat) : UInt64 := nodeSalt id ^^^ UInt64.ofNat seq

/-! ## The cluster -/

inductive Stage where
  | drawn
  | registered
  | submitted
  /-- `Submit` returned nil. -/
  | acked
deriving DecidableEq, Repr

/-- A call of `submitForResult` or `submitVoid`. -/
structure Call where
  cmd : FsmCmd
  seq : Nat
  stage : Stage
  chan : Option FsmResult
deriving DecidableEq, Repr

/-- A process: one life of a node.  Calls are told apart by a number of their own. -/
structure Process where
  reqSeq : Nat
  pending : UInt64 → Option Nat
  calls : Nat → Option Call
  drew : Nat → Nat

def Process.start : Process := ⟨0, fun _ => none, fun _ => none, fun _ => 0⟩

structure Entry where
  node : NodeID
  life : Nat
  call : Nat
  seq : Nat
  cmd : FsmCmd
deriving DecidableEq, Repr

/-- An entry of a call that a node applied in one of its lives, and the outcome. -/
structure Application where
  node : NodeID
  life : Nat
  entry : Entry
  res : FsmResult
deriving DecidableEq, Repr

/-- An answer without transport or Raft error; `none` is the nil of
`submitVoid`. -/
structure Answer where
  node : NodeID
  life : Nat
  call : Nat
  res : Option FsmResult
deriving DecidableEq, Repr

/-- The cluster, and what has happened so far. -/
structure Cluster where
  procs : NodeID → Process
  lives : NodeID → Nat
  next : Nat
  log : List Entry
  applied : List Application
  answers : List Answer

def Cluster.init : Cluster := ⟨fun _ => .start, fun _ => 0, 0, [], [], []⟩

/-! ## Steps -/

variable (p : Process)

/-- `deliver`: into the channel that is registered under the id, if it is empty. -/
def Process.deliver (reqID : UInt64) (res : FsmResult) : Process :=
  if reqID = 0 then p
  else
    match p.pending reqID with
    | none => p
    | some t =>
      match p.calls t with
      | none => p
      | some c =>
        { p with
          calls := update p.calls t
            (some { c with chan := some (c.chan.getD res) }) }

def Process.draw (id : NodeID) (t : Nat) (op : FsmOp) (operands : List UInt8) : Process :=
  { p with
    reqSeq := p.reqSeq + 1
    calls := update p.calls t
      (some ⟨⟨op, nextReqID id (p.reqSeq + 1), operands⟩, p.reqSeq + 1, .drawn, none⟩)
    drew := update p.drew (p.reqSeq + 1) t }

def Process.void (t : Nat) (op : FsmOp) (operands : List UInt8) : Process :=
  { p with calls := update p.calls t (some ⟨⟨op, 0, operands⟩, 0, .registered, none⟩) }

def Process.register (t : Nat) (c : Call) : Process :=
  { p with
    pending := update p.pending c.cmd.reqID (some t)
    calls := update p.calls t (some { c with stage := .registered }) }

def Process.advance (t : Nat) (c : Call) (stage : Stage) : Process :=
  { p with calls := update p.calls t (some { c with stage := stage }) }

/-- The call returns; `submitForResult` runs `unregister`. -/
def Process.finish (t : Nat) (c : Call) : Process :=
  { p with
    pending := if c.cmd.op.isVoid then p.pending
      else update p.pending c.cmd.reqID none
    calls := update p.calls t none }

def Cluster.onNode (s : Cluster) (n : NodeID) (p : Process) : Cluster :=
  { s with procs := update s.procs n p }

structure Discipline where
  draw : Cluster → NodeID → Prop
  apply : Cluster → NodeID → Entry → FsmResult → Prop

inductive Cluster.Step (P : Discipline) : Cluster → Cluster → Prop where
  | restart (s : Cluster) (n : NodeID) :
      Step P s { s with
        procs := update s.procs n .start
        lives := update s.lives n (s.lives n + 1) }
  /-- `submitForResult` draws an id. -/
  | draw (s : Cluster) (n : NodeID) (op : FsmOp) (operands : List UInt8)
      (hop : op.isVoid = false) (hP : P.draw s n) :
      Step P s { s.onNode n ((s.procs n).draw n s.next op operands) with next := s.next + 1 }
  | register (s : Cluster) (n : NodeID) (t : Nat) (c : Call) (hc : (s.procs n).calls t = some c)
      (hop : c.cmd.op.isVoid = false) (hstage : c.stage = .drawn) :
      Step P s (s.onNode n ((s.procs n).register t c))
  /-- `submitVoid` builds its command. -/
  | void (s : Cluster) (n : NodeID) (op : FsmOp) (operands : List UInt8) (hop : op.isVoid = true) :
      Step P s { s.onNode n ((s.procs n).void s.next op operands) with next := s.next + 1 }
  /-- `Submit` appends the entry. -/
  | append (s : Cluster) (n : NodeID) (t : Nat) (c : Call) (hc : (s.procs n).calls t = some c)
      (hstage : c.stage = .registered) :
      Step P s { s.onNode n ((s.procs n).advance t c .submitted) with
        log := ⟨n, s.lives n, t, c.seq, c.cmd⟩ :: s.log }
  | apply (s : Cluster) (n : NodeID) (e : Entry) (res : FsmResult) (he : e ∈ s.log)
      (hP : P.apply s n e res) :
      Step P s { s.onNode n ((s.procs n).deliver e.cmd.reqID res) with
        applied := ⟨n, s.lives n, e, res⟩ :: s.applied }
  /-- `Submit` returns nil: the node has applied the entry. -/
  | ack (s : Cluster) (n : NodeID) (t : Nat) (c : Call) (hc : (s.procs n).calls t = some c)
      (hstage : c.stage = .submitted)
      (hdone : ∃ a ∈ s.applied, a.node = n ∧ a.life = s.lives n ∧
        a.entry = ⟨n, s.lives n, t, c.seq, c.cmd⟩) :
      Step P s (s.onNode n ((s.procs n).advance t c .acked))
  /-- `submitForResult` returns what its channel holds. -/
  | answer (s : Cluster) (n : NodeID) (t : Nat) (c : Call) (hc : (s.procs n).calls t = some c)
      (hop : c.cmd.op.isVoid = false) (hstage : c.stage = .acked) (res : FsmResult)
      (hchan : c.chan = some res) :
      Step P s { s.onNode n ((s.procs n).finish t c) with
        answers := ⟨n, s.lives n, t, some res⟩ :: s.answers }
  /-- `submitVoid` returns nil. -/
  | answerVoid (s : Cluster) (n : NodeID) (t : Nat) (c : Call)
      (hc : (s.procs n).calls t = some c) (hop : c.cmd.op.isVoid = true)
      (hstage : c.stage = .acked) :
      Step P s { s.onNode n ((s.procs n).finish t c) with
        answers := ⟨n, s.lives n, t, none⟩ :: s.answers }
  | fail (s : Cluster) (n : NodeID) (t : Nat) (c : Call) (hc : (s.procs n).calls t = some c) :
      Step P s (s.onNode n ((s.procs n).finish t c))

def Cluster.Run (P : Discipline) : Cluster → Cluster → Prop := Relation.ReflTransGen (Cluster.Step P)

structure Application.Of (x : Application) (n : NodeID) (life t : Nat) : Prop where
  node_eq : x.node = n
  life_eq : x.life = life
  entry_node : x.entry.node = n
  entry_life : x.entry.life = life
  entry_call : x.entry.call = t

/-- The answer is the outcome of applying the command of its own call, on its node and in
its life. -/
def Answer.Honest (applied : List Application) (a : Answer) : Prop :=
  ∃ x ∈ applied, x.Of a.node a.life a.call ∧
    match a.res with
    | some res => x.res = res
    | none => x.res.err = none

/-- An entry of another node or of an earlier life is not applied while its id is
registered, and plain writes do not fail; no life draws `2 ^ 64` ids. -/
def separate : Discipline where
  draw s n := (s.procs n).reqSeq + 1 < 2 ^ 64
  apply s n e res :=
    (e.cmd.op.isVoid = true → res.err = none) ∧
      (e.cmd.reqID ≠ 0 → ¬ (e.node = n ∧ e.life = s.lives n) →
        (s.procs n).pending e.cmd.reqID = none)

/-! ## Ids -/

/-- A life does not draw an id twice. -/
theorem nextReqID_injective (id : NodeID) {i j : Nat} (hi : i < 2 ^ 64) (hj : j < 2 ^ 64)
    (h : nextReqID id i = nextReqID id j) : i = j := by
  unfold nextReqID at h
  have hword : UInt64.ofNat i = UInt64.ofNat j := by
    have hxor := congrArg (nodeSalt id ^^^ ·) h
    simpa [← UInt64.xor_assoc] using hxor
  have hnat := congrArg UInt64.toNat hword
  rwa [UInt64.toNat_ofNat_of_lt' hi, UInt64.toNat_ofNat_of_lt' hj] at hnat

/-- The high bits of an id are the hash while the counter stays below them. -/
theorem nextReqID_div (id : NodeID) {i : Nat} (hi : i < 2 ^ 20) :
    (nextReqID id i).toNat / 2 ^ 20 = (fnv64a id).toNat % 2 ^ 44 := by
  have hlow : i >>> 20 = 0 := by
    rw [Nat.shiftRight_eq_div_pow]
    exact Nat.div_eq_of_lt hi
  have hsalt : (nodeSalt id).toNat >>> 20 = (fnv64a id).toNat % 2 ^ 44 := by
    unfold nodeSalt
    rw [UInt64.toNat_shiftLeft, Nat.shiftRight_eq_div_pow, Nat.shiftLeft_eq]
    show (fnv64a id).toNat * 2 ^ 20 % 2 ^ 64 / 2 ^ 20 = _
    omega
  unfold nextReqID
  rw [← Nat.shiftRight_eq_div_pow, UInt64.toNat_xor, Nat.shiftRight_xor_distrib, hsalt,
    UInt64.toNat_ofNat_of_lt' (Nat.lt_trans hi (by decide)), hlow, Nat.xor_zero]

theorem nextReqID_ne {id id' : NodeID}
    (hhash : (fnv64a id).toNat % 2 ^ 44 ≠ (fnv64a id').toNat % 2 ^ 44) {i j : Nat}
    (hi : i < 2 ^ 20) (hj : j < 2 ^ 20) : nextReqID id i ≠ nextReqID id' j := by
  intro heq
  apply hhash
  rw [← nextReqID_div id hi, heq, nextReqID_div id' hj]

/-- Two nodes with different salts draw different ids as long as neither has drawn
`2 ^ 20`; beyond that they meet. -/
theorem nextReqID_apart {id id' : NodeID} (hsalt : nodeSalt id ≠ nodeSalt id') :
    (∀ i j, i < 2 ^ 20 → j < 2 ^ 20 → nextReqID id i ≠ nextReqID id' j) ∧
      ∃ i < 2 ^ 64, nextReqID id i = nextReqID id' 1 := by
  refine ⟨fun i j => nextReqID_ne fun hhash => hsalt ?_, (nodeSalt id ^^^ nextReqID id' 1).toNat,
    UInt64.toNat_lt _, ?_⟩
  · refine UInt64.toNat_inj.mp ?_
    simp only [nodeSalt, UInt64.toNat_shiftLeft, Nat.shiftLeft_eq]
    show (fnv64a id).toNat * 2 ^ 20 % 2 ^ 64 = (fnv64a id').toNat * 2 ^ 20 % 2 ^ 64
    omega
  · rw [nextReqID, UInt64.ofNat_toNat, ← UInt64.xor_assoc, UInt64.xor_self, UInt64.zero_xor]

theorem nextReqID_apart_two : nextReqID [97] 7 ≠ nextReqID [98] 7 :=
  (nextReqID_apart (by decide)).1 7 7 (by decide) (by decide)

/-! ## What a process keeps -/

/-- The id of a command: none, or the one that its call drew. -/
def Known (n : NodeID) (p : Process) (seq t : Nat) (cmd : FsmCmd) : Prop :=
  (cmd.op.isVoid = true → cmd.reqID = 0) ∧
    (cmd.op.isVoid = false →
      seq ≤ p.reqSeq ∧ p.drew seq = t ∧ cmd.reqID = nextReqID n seq)

/-- What a channel holds is the outcome of its call, and a call is acknowledged after
it. -/
structure Call.Sound (n : NodeID) (life : Nat) (applied : List Application) (p : Process)
    (t : Nat) (c : Call) : Prop where
  known : Known n p c.seq t c.cmd
  chan : ∀ res, c.chan = some res → ∃ x ∈ applied, x.Of n life t ∧ x.res = res
  acked : c.stage = .acked → ∃ x ∈ applied, x.Of n life t ∧ x.entry.cmd = c.cmd

/-- Ids, channels and calls of a process go together. -/
structure Process.Sound (n : NodeID) (life next : Nat) (applied : List Application)
    (p : Process) : Prop where
  small : p.reqSeq < 2 ^ 64
  fresh : ∀ t, next ≤ t → p.calls t = none
  registered : ∀ id t, p.pending id = some t →
    ∃ c, p.calls t = some c ∧ c.cmd.reqID = id ∧ c.cmd.op.isVoid = false
  calls : ∀ t c, p.calls t = some c → c.Sound n life applied p t

section Process

variable {n : NodeID} {life next : Nat} {applied applied' : List Application} {p p' : Process}
  {t : Nat} {c : Call}

theorem Process.sound_start (n : NodeID) (life next : Nat) (applied : List Application) :
    Process.start.Sound n life next applied where
  small := by decide
  fresh := fun _ _ => rfl
  registered := fun _ _ h => by cases h
  calls := fun _ _ h => by cases h

/-- Nothing was drawn, or only more. -/
theorem Known.mono {seq : Nat} {cmd : FsmCmd} (h : Known n p seq t cmd)
    (hseq : p.reqSeq ≤ p'.reqSeq) (hdrew : ∀ i ≤ p.reqSeq, p'.drew i = p.drew i) :
    Known n p' seq t cmd := by
  refine ⟨h.1, fun hop => ?_⟩
  obtain ⟨hle, hd, hid⟩ := h.2 hop
  exact ⟨hle.trans hseq, (hdrew seq hle).trans hd, hid⟩

theorem Call.Sound.mono (h : c.Sound n life applied p t) (happ : applied ⊆ applied')
    (hseq : p.reqSeq ≤ p'.reqSeq) (hdrew : ∀ i ≤ p.reqSeq, p'.drew i = p.drew i) :
    c.Sound n life applied' p' t where
  known := h.known.mono hseq hdrew
  chan := fun res hres => by
    obtain ⟨x, hx, hrest⟩ := h.chan res hres
    exact ⟨x, happ hx, hrest⟩
  acked := fun hstage => by
    obtain ⟨x, hx, hrest⟩ := h.acked hstage
    exact ⟨x, happ hx, hrest⟩

theorem Call.Sound.among (h : c.Sound n life applied p t) {pending : UInt64 → Option Nat}
    {calls : Nat → Option Call} :
    c.Sound n life applied { p with pending := pending, calls := calls } t :=
  h.mono (List.Subset.refl _) le_rfl fun _ _ => rfl

theorem Process.Sound.mono (h : p.Sound n life next applied) {next' : Nat} (hnext : next ≤ next')
    (happ : applied ⊆ applied') : p.Sound n life next' applied' :=
  { h with
    fresh := fun t ht => h.fresh t (hnext.trans ht)
    calls := fun t c hc => (h.calls t c hc).mono happ le_rfl fun _ _ => rfl }

theorem update_eq_some {f : Nat → Option Call} {t t' : Nat} {c' : Option Call} {d : Call}
    (h : update f t c' t' = some d) : (t' = t ∧ c' = some d) ∨ (t' ≠ t ∧ f t' = some d) := by
  by_cases ht : t' = t
  · subst ht
    exact .inl ⟨rfl, by rw [← h, update_self]⟩
  · exact .inr ⟨ht, by rw [← h, update_of_ne ht]⟩

section

variable (h : p.Sound n life next applied)
include h

theorem Process.Sound.update (hc : p.calls t = some c) {c' : Call} (hcmd : c'.cmd = c.cmd)
    (hc' : c'.Sound n life applied p t) :
    { p with calls := update p.calls t (some c') }.Sound n life next applied where
  small := h.small
  fresh := by
    intro t' ht'
    have hne : t' ≠ t := by
      rintro rfl
      rw [h.fresh _ ht'] at hc
      cases hc
    exact (update_of_ne hne ..).trans (h.fresh t' ht')
  registered := by
    intro id t' hp
    obtain ⟨d, hd, hid, hop⟩ := h.registered id t' hp
    by_cases ht : t' = t
    · subst ht
      rw [hc] at hd
      cases hd
      exact ⟨c', update_self .., hcmd ▸ hid, hcmd ▸ hop⟩
    · exact ⟨d, (update_of_ne ht ..).trans hd, hid, hop⟩
  calls := by
    intro t' d hd
    rcases update_eq_some hd with ⟨rfl, heq⟩ | ⟨-, hd⟩
    · cases heq
      exact hc'.among
    · exact (h.calls t' d hd).among

theorem Process.Sound.advance (hc : p.calls t = some c) (stage : Stage)
    (hack : stage = .acked → ∃ x ∈ applied, x.Of n life t ∧ x.entry.cmd = c.cmd) :
    (p.advance t c stage).Sound n life next applied :=
  h.update hc rfl ⟨(h.calls t c hc).known, (h.calls t c hc).chan, hack⟩

theorem Process.Sound.insert {reqSeq : Nat} {drew : Nat → Nat} (hsmall : reqSeq < 2 ^ 64)
    (hseq : p.reqSeq ≤ reqSeq) (hdrew : ∀ i ≤ p.reqSeq, drew i = p.drew i)
    (hc : c.Sound n life applied ⟨reqSeq, p.pending, p.calls, drew⟩ next) :
    Process.Sound n life (next + 1) applied
      ⟨reqSeq, p.pending, Function.update p.calls next (some c), drew⟩ where
  small := hsmall
  fresh := by
    intro t ht
    exact (Function.update_of_ne (by omega) ..).trans (h.fresh t (by omega))
  registered := by
    intro id t hp
    obtain ⟨d, hd, hid, hop⟩ := h.registered id t hp
    have hne : t ≠ next := by
      rintro rfl
      rw [h.fresh _ le_rfl] at hd
      cases hd
    exact ⟨d, (Function.update_of_ne hne ..).trans hd, hid, hop⟩
  calls := by
    intro t d hd
    rcases update_eq_some hd with ⟨rfl, heq⟩ | ⟨-, hd⟩
    · cases heq
      exact hc.among
    · exact (h.calls t d hd).mono (List.Subset.refl _) hseq hdrew

theorem Process.Sound.draw (hsmall : p.reqSeq + 1 < 2 ^ 64) {op : FsmOp} (hop : op.isVoid = false)
    (operands : List UInt8) : (p.draw n next op operands).Sound n life (next + 1) applied := by
  refine h.insert hsmall (by omega) (fun i hi => Function.update_of_ne (by omega) ..) ?_
  refine ⟨⟨fun hv => ?_, fun _ => ⟨le_rfl, Function.update_self .., rfl⟩⟩, ?_, ?_⟩
  · rw [hop] at hv
    cases hv
  · exact nofun
  · exact nofun

theorem Process.Sound.beginVoid {op : FsmOp} (hop : op.isVoid = true) (operands : List UInt8) :
    (p.void next op operands).Sound n life (next + 1) applied := by
  refine h.insert h.small le_rfl (fun _ _ => rfl) ⟨⟨fun _ => rfl, fun hv => ?_⟩, ?_, ?_⟩
  · rw [hop] at hv
    cases hv
  · exact nofun
  · exact nofun

theorem Process.Sound.register (hc : p.calls t = some c) (hop : c.cmd.op.isVoid = false) :
    (p.register t c).Sound n life next applied := by
  have hupd := h.advance hc .registered fun hstage => by cases hstage
  refine ⟨hupd.small, hupd.fresh, fun id t' hp => ?_, fun t' d hd => ?_⟩
  · by_cases hid : id = c.cmd.reqID
    · subst hid
      unfold Process.register at hp
      simp only [update_self] at hp
      cases hp
      exact ⟨_, update_self .., rfl, hop⟩
    · exact hupd.registered id t' ((update_of_ne hid ..).symm.trans hp)
  · exact (hupd.calls t' d hd).among

theorem Process.Sound.call_eq (hc : p.calls t = some c) (hop : c.cmd.op.isVoid = false)
    {seq t' : Nat} {cmd : FsmCmd} (hk : Known n p seq t' cmd) (hop' : cmd.op.isVoid = false)
    (hid : cmd.reqID = c.cmd.reqID) : t' = t := by
  obtain ⟨hle, hdrew, hreq⟩ := (h.calls t c hc).known.2 hop
  obtain ⟨hle', hdrew', hreq'⟩ := hk.2 hop'
  rw [hreq, hreq'] at hid
  have hseq := nextReqID_injective n (hle'.trans_lt h.small) (hle.trans_lt h.small) hid
  rw [← hdrew', hseq, hdrew]

theorem Process.Sound.finish (hc : p.calls t = some c) :
    (p.finish t c).Sound n life next applied where
  small := h.small
  fresh := by
    intro t' ht'
    by_cases ht : t' = t
    · subst ht
      exact update_self ..
    · exact (update_of_ne ht ..).trans (h.fresh t' ht')
  registered := by
    intro id t' hp
    have hold : p.pending id = some t' ∧ t' ≠ t := by
      unfold Process.finish at hp
      simp only at hp
      split at hp
      next hop =>
        refine ⟨hp, fun ht => ?_⟩
        subst ht
        obtain ⟨d, hd, -, hv⟩ := h.registered id _ hp
        rw [hc] at hd
        cases hd
        rw [hop] at hv
        cases hv
      next hop =>
        by_cases hid : id = c.cmd.reqID
        · subst hid
          rw [update_self] at hp
          cases hp
        · rw [update_of_ne hid] at hp
          refine ⟨hp, fun ht => ?_⟩
          subst ht
          obtain ⟨d, hd, hreq, -⟩ := h.registered id _ hp
          rw [hc] at hd
          cases hd
          exact hid hreq.symm
    obtain ⟨d, hd, hrest⟩ := h.registered id t' hold.1
    exact ⟨d, (update_of_ne hold.2 ..).trans hd, hrest⟩
  calls := by
    intro t' d hd
    rcases update_eq_some hd with ⟨-, heq⟩ | ⟨-, hd⟩
    · cases heq
    · exact (h.calls t' d hd).among

end

theorem Process.deliver_drew (p : Process) (reqID : UInt64) (res : FsmResult) :
    (p.deliver reqID res).reqSeq = p.reqSeq ∧ (p.deliver reqID res).drew = p.drew := by
  unfold Process.deliver
  split
  · exact ⟨rfl, rfl⟩
  · split
    · exact ⟨rfl, rfl⟩
    · split <;> exact ⟨rfl, rfl⟩

theorem Process.Sound.deliver (h : p.Sound n life next applied) {e : Entry} {res : FsmResult}
    (hknown : e.node = n ∧ e.life = life → Known n p e.seq e.call e.cmd)
    (hforeign : e.cmd.reqID ≠ 0 → ¬ (e.node = n ∧ e.life = life) → p.pending e.cmd.reqID = none) :
    (p.deliver e.cmd.reqID res).Sound n life next (⟨n, life, e, res⟩ :: applied) := by
  have hgrow := h.mono (le_refl next) (subset_cons_self ⟨n, life, e, res⟩ applied)
  unfold Process.deliver
  split
  · exact hgrow
  next hzero =>
    split
    · exact hgrow
    next t hp =>
      split
      · exact hgrow
      next c hc =>
        have hcall := hgrow.calls t c hc
        refine hgrow.update hc rfl { hcall with chan := fun r hr => ?_ }
        cases hchan : c.chan with
        | some r' =>
          have hr' : r' = r := by
            rw [hchan] at hr
            exact Option.some.inj hr
          exact hcall.chan r (hchan.trans (congrArg some hr'))
        | none =>
          have hr' : res = r := by
            rw [hchan] at hr
            exact Option.some.inj hr
          have hown : e.node = n ∧ e.life = life := by
            by_contra hnot
            rw [hforeign hzero hnot] at hp
            cases hp
          obtain ⟨d, hd, hid, hop⟩ := h.registered _ _ hp
          rw [hc] at hd
          cases hd
          have hopE : e.cmd.op.isVoid = false := by
            by_contra hv
            exact hzero ((hknown hown).1 (by simpa using hv))
          have hcallE := h.call_eq hc hop (hknown hown) hopE hid.symm
          exact ⟨_, mem_cons_self, ⟨rfl, rfl, hown.1, hown.2, hcallE⟩, hr'⟩

end Process

/-! ## What the cluster keeps -/

/-- The processes are sound, the entries of running lives have the ids that their calls
drew, and all answers so far are honest. -/
structure Cluster.Sound (s : Cluster) : Prop where
  procs : ∀ n, (s.procs n).Sound n (s.lives n) s.next s.applied
  lives : ∀ e ∈ s.log, e.life ≤ s.lives e.node
  logged : ∀ e ∈ s.log, e.life = s.lives e.node →
    Known e.node (s.procs e.node) e.seq e.call e.cmd
  plain : ∀ x ∈ s.applied, x.entry.cmd.op.isVoid = true → x.res.err = none
  honest : ∀ a ∈ s.answers, a.Honest s.applied

theorem Cluster.sound_init : Cluster.init.Sound where
  procs := fun n => Process.sound_start n _ _ _
  lives := fun _ h => by cases h
  logged := fun _ h => by cases h
  plain := fun _ h => by cases h
  honest := fun _ h => by cases h

section Cluster

variable {s : Cluster} {n : NodeID} {p : Process}

theorem Answer.Honest.mono {a : Answer} {applied applied' : List Application}
    (h : a.Honest applied) (happ : applied ⊆ applied') : a.Honest applied' := by
  obtain ⟨x, hx, hrest⟩ := h
  exact ⟨x, happ hx, hrest⟩

theorem Cluster.Sound.onNode (h : s.Sound) {next : Nat} {applied : List Application}
    {answers : List Answer} (hnext : s.next ≤ next) (happ : s.applied ⊆ applied)
    (hp : p.Sound n (s.lives n) next applied) (hseq : (s.procs n).reqSeq ≤ p.reqSeq)
    (hdrew : ∀ i ≤ (s.procs n).reqSeq, p.drew i = (s.procs n).drew i)
    (hplain : ∀ x ∈ applied, x.entry.cmd.op.isVoid = true → x.res.err = none)
    (hanswers : ∀ a ∈ answers, a.Honest applied) :
    Cluster.Sound ⟨update s.procs n p, s.lives, next, s.log, applied, answers⟩ where
  procs := (forall_update_iff _ fun m (p : Process) => p.Sound m (s.lives m) next applied).mpr
    ⟨hp, fun m _ => (h.procs m).mono hnext happ⟩
  lives := h.lives
  logged := by
    intro e he hlife
    by_cases hm : e.node = n
    · subst hm
      simp only [update_self]
      exact (h.logged e he hlife).mono hseq hdrew
    · simp only [update_of_ne hm]
      exact h.logged e he hlife
  plain := hplain
  honest := hanswers

theorem Cluster.Sound.append (h : s.Sound) {e : Entry} (hlife : e.life = s.lives e.node)
    (hknown : Known e.node (s.procs e.node) e.seq e.call e.cmd) :
    Cluster.Sound { s with log := e :: s.log } :=
  { h with
    lives := forall_mem_cons.mpr ⟨hlife.le, h.lives⟩
    logged := forall_mem_cons.mpr ⟨fun _ => hknown, h.logged⟩ }

theorem Cluster.Sound.restart (h : s.Sound) (n : NodeID) :
    Cluster.Sound { s with
      procs := update s.procs n .start
      lives := update s.lives n (s.lives n + 1) } where
  procs := by
    intro m
    by_cases hm : m = n
    · subst hm
      simp only [update_self]
      exact Process.sound_start m _ _ _
    · simp only [update_of_ne hm]
      exact h.procs m
  lives := by
    intro e he
    have hle := h.lives e he
    by_cases hm : e.node = n
    · subst hm
      simp only [update_self]
      omega
    · simp only [update_of_ne hm]
      exact hle
  logged := by
    intro e he hlife
    have hle := h.lives e he
    by_cases hm : e.node = n
    · subst hm
      -- entries of the life that ended are not those of the new one
      simp only [update_self] at hlife
      omega
    · simp only [update_of_ne hm] at hlife ⊢
      exact h.logged e he hlife
  plain := h.plain
  honest := h.honest

end Cluster

theorem Cluster.Sound.step {s s' : Cluster} (h : s.Sound) (hstep : Cluster.Step separate s s') :
    s'.Sound := by
  cases hstep with
  | restart n => exact h.restart n
  | draw n op operands hop hP =>
    have hp := (h.procs n).draw hP hop operands
    exact h.onNode (Nat.le_succ _) (List.Subset.refl _) hp (Nat.le_succ _)
      (fun i hi => update_of_ne (by omega) ..) h.plain h.honest
  | register n t c hc hop =>
    have hp := (h.procs n).register hc hop
    exact h.onNode le_rfl (List.Subset.refl _) hp le_rfl (fun _ _ => rfl) h.plain h.honest
  | void n op operands hop =>
    have hp := (h.procs n).beginVoid hop operands
    exact h.onNode (Nat.le_succ _) (List.Subset.refl _) hp le_rfl (fun _ _ => rfl) h.plain h.honest
  | append n t c hc =>
    have hcall := (h.procs n).calls t c hc
    have hp := (h.procs n).advance hc .submitted fun hs => by cases hs
    have hnode := h.onNode le_rfl (List.Subset.refl _) hp le_rfl (fun _ _ => rfl) h.plain h.honest
    refine hnode.append rfl ?_
    simp only [update_self]
    exact hcall.known.mono le_rfl fun _ _ => rfl
  | apply n e res he hP =>
    have hp : ((s.procs n).deliver e.cmd.reqID res).Sound n (s.lives n) s.next
        (⟨n, s.lives n, e, res⟩ :: s.applied) := by
      refine (h.procs n).deliver (fun hown => ?_) hP.2
      rw [← hown.1]
      exact h.logged e he (hown.2.trans (congrArg s.lives hown.1.symm))
    have hsame := (s.procs n).deliver_drew e.cmd.reqID res
    refine h.onNode le_rfl (subset_cons_self _ _) hp hsame.1.ge
      (fun i _ => congrFun hsame.2 i) ?_ fun a ha =>
        (h.honest a ha).mono (subset_cons_self _ _)
    exact forall_mem_cons.mpr ⟨hP.1, h.plain⟩
  | ack n t c hc hstage hdone =>
    obtain ⟨x, hx, hnode, hlife, hentry⟩ := hdone
    have hp := (h.procs n).advance hc .acked fun _ => by
      refine ⟨x, hx, ⟨hnode, hlife, ?_, ?_, ?_⟩, ?_⟩ <;> rw [hentry]
    exact h.onNode le_rfl (List.Subset.refl _) hp le_rfl (fun _ _ => rfl) h.plain h.honest
  | answer n t c hc hop hstage res hchan =>
    have hp := (h.procs n).finish hc
    exact h.onNode le_rfl (List.Subset.refl _) hp le_rfl (fun _ _ => rfl) h.plain
      (forall_mem_cons.mpr ⟨((h.procs n).calls t c hc).chan res hchan, h.honest⟩)
  | answerVoid n t c hc hop hstage =>
    have hp := (h.procs n).finish hc
    refine h.onNode le_rfl (List.Subset.refl _) hp le_rfl (fun _ _ => rfl) h.plain ?_
    intro a ha
    rcases mem_cons.mp ha with rfl | ha
    · obtain ⟨x, hx, hof, hcmd⟩ := ((h.procs n).calls t c hc).acked hstage
      exact ⟨x, hx, hof, h.plain x hx (hcmd ▸ hop)⟩
    · exact h.honest a ha
  | fail n t c hc =>
    have hp := (h.procs n).finish hc
    exact h.onNode le_rfl (List.Subset.refl _) hp le_rfl (fun _ _ => rfl) h.plain h.honest

theorem Cluster.Run.sound {s : Cluster} (h : Cluster.Run separate .init s) : s.Sound := by
  induction h with
  | refl => exact Cluster.sound_init
  | tail _ hstep ih => exact ih.step hstep

/-- Clients get the outcome of their own command: in every run in which no entry of another
node or an earlier life is applied while its id is registered, and in which no plain write
fails, every answer is what applying the command of its call gave on this node. -/
theorem Cluster.Run.answer_honest {s : Cluster} (h : Cluster.Run separate .init s) :
    ∀ a ∈ s.answers, a.Honest s.applied :=
  h.sound.honest

/-! ## Runs -/

def FsmResult.int (n : Int) : FsmResult := ⟨.success, .created, n, [], false, none⟩

/-- Two calls of a node are in flight together, and each is answered with its own
result. -/
theorem honest_of_two_incrs :
    ∃ s, Cluster.Run separate .init s ∧
      s.answers = [⟨[97], 0, 0, some (.int 1)⟩, ⟨[97], 0, 1, some (.int 2)⟩] ∧
      ∀ a ∈ s.answers, a.Honest s.applied := by
  let i := nextReqID [97] 1
  let j := nextReqID [97] 2
  have h : Cluster.Run separate .init .init := .refl
  have h := h.tail (.draw _ [97] .incr [] rfl (by decide : 0 + 1 < 2 ^ 64))
  have h := h.tail (.draw _ [97] .incr [] rfl (by decide : 1 + 1 < 2 ^ 64))
  have h := h.tail (.register _ [97] 0 ⟨⟨.incr, i, []⟩, 1, .drawn, none⟩ rfl rfl rfl)
  have h := h.tail (.register _ [97] 1 ⟨⟨.incr, j, []⟩, 2, .drawn, none⟩ rfl rfl rfl)
  have h := h.tail (.append _ [97] 0 ⟨⟨.incr, i, []⟩, 1, .registered, none⟩ rfl rfl)
  have h := h.tail (.append _ [97] 1 ⟨⟨.incr, j, []⟩, 2, .registered, none⟩ rfl rfl)
  have h := h.tail (.apply _ [97] ⟨[97], 0, 0, 1, ⟨.incr, i, []⟩⟩ (.int 1)
    (mem_cons_of_mem _ (mem_cons_self ..)) ⟨(fun h => by cases h), fun _ h => absurd ⟨rfl, rfl⟩ h⟩)
  have h := h.tail (.apply _ [97] ⟨[97], 0, 1, 2, ⟨.incr, j, []⟩⟩ (.int 2) (mem_cons_self ..)
    ⟨(fun h => by cases h), fun _ h => absurd ⟨rfl, rfl⟩ h⟩)
  have h := h.tail (.ack _ [97] 1 ⟨⟨.incr, j, []⟩, 2, .submitted, some (.int 2)⟩ rfl rfl
    ⟨_, mem_cons_self .., rfl, rfl, rfl⟩)
  have h := h.tail (.answer _ [97] 1 ⟨⟨.incr, j, []⟩, 2, .acked, some (.int 2)⟩ rfl rfl rfl
    (.int 2) rfl)
  have h := h.tail (.ack _ [97] 0 ⟨⟨.incr, i, []⟩, 1, .submitted, some (.int 1)⟩ rfl rfl
    ⟨_, mem_cons_of_mem _ (mem_cons_self ..), rfl, rfl, rfl⟩)
  have h := h.tail (.answer _ [97] 0 ⟨⟨.incr, i, []⟩, 1, .acked, some (.int 1)⟩ rfl rfl rfl
    (.int 1) rfl)
  exact ⟨_, h, rfl, Cluster.Run.answer_honest h⟩

def unrestricted : Discipline := ⟨fun _ _ => True, fun _ _ _ _ => True⟩

/-- An increment of an earlier life, which is applied again, answers the first call of the
new one; and a plain write that the engine refuses is answered with nil. -/
theorem answers_not_honest :
    (∃ s, Cluster.Run unrestricted .init s ∧ s.answers = [⟨[97], 1, 1, some (.int 1)⟩] ∧
      ∃ a ∈ s.answers, ¬ a.Honest s.applied) ∧
    ∃ s, Cluster.Run unrestricted .init s ∧ s.answers = [⟨[97], 0, 0, none⟩] ∧
      ∃ a ∈ s.answers, ¬ a.Honest s.applied := by
  let id := nextReqID [97] 1
  have h₀ : Cluster.Run unrestricted .init .init := .refl
  constructor
  · have h₁ := h₀.tail (.draw _ [97] .incr [] rfl trivial)
    have h₂ := h₁.tail (.register _ [97] 0 ⟨⟨.incr, id, []⟩, 1, .drawn, none⟩ rfl rfl rfl)
    have h₃ := h₂.tail (.append _ [97] 0 ⟨⟨.incr, id, []⟩, 1, .registered, none⟩ rfl rfl)
    have h₄ := h₃.tail (.restart _ [97])
    have h₅ := h₄.tail (.draw _ [97] .incr [] rfl trivial)
    have h₆ := h₅.tail (.register _ [97] 1 ⟨⟨.incr, id, []⟩, 1, .drawn, none⟩ rfl rfl rfl)
    have h₇ := h₆.tail (.append _ [97] 1 ⟨⟨.incr, id, []⟩, 1, .registered, none⟩ rfl rfl)
    have h₈ := h₇.tail (.apply _ [97] ⟨[97], 0, 0, 1, ⟨.incr, id, []⟩⟩ (.int 1)
      (mem_cons_of_mem _ (mem_cons_self ..)) trivial)
    have h₉ := h₈.tail (.apply _ [97] ⟨[97], 1, 1, 1, ⟨.incr, id, []⟩⟩ (.int 2)
      (mem_cons_self ..) trivial)
    have h₁₀ := h₉.tail (.ack _ [97] 1 ⟨⟨.incr, id, []⟩, 1, .submitted, some (.int 1)⟩ rfl rfl
      ⟨_, mem_cons_self .., rfl, rfl, rfl⟩)
    have h₁₁ := h₁₀.tail (.answer _ [97] 1 ⟨⟨.incr, id, []⟩, 1, .acked, some (.int 1)⟩ rfl rfl rfl
      (.int 1) rfl)
    refine ⟨_, h₁₁, rfl, _, mem_cons_self .., ?_⟩
    rintro ⟨x, hx, hof, hres⟩
    rcases mem_pair.mp hx with rfl | rfl
    · exact absurd (congrArg FsmResult.intVal hres) (by decide)
    · exact absurd hof.entry_life (by decide)
  · have h₁ := h₀.tail (.void _ [97] .put [] rfl)
    have h₂ := h₁.tail (.append _ [97] 0 ⟨⟨.put, 0, []⟩, 0, .registered, none⟩ rfl rfl)
    have h₃ := h₂.tail (.apply _ [97] ⟨[97], 0, 0, 0, ⟨.put, 0, []⟩⟩
      ⟨.success, .created, 0, [], false, some []⟩ (mem_cons_self ..) trivial)
    have h₄ := h₃.tail (.ack _ [97] 0 ⟨⟨.put, 0, []⟩, 0, .submitted, none⟩ rfl rfl
      ⟨_, mem_cons_self .., rfl, rfl, rfl⟩)
    have h₅ := h₄.tail (.answerVoid _ [97] 0 ⟨⟨.put, 0, []⟩, 0, .acked, none⟩ rfl rfl rfl)
    refine ⟨_, h₅, rfl, _, mem_cons_self .., ?_⟩
    rintro ⟨x, hx, hof, hres⟩
    rw [mem_singleton.mp hx] at hres
    cases hres

end VeltrixDB.Server
