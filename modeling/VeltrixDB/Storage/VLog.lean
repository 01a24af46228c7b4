import Mathlib.Logic.Function.Basic
import Mathlib.Data.List.Nodup
import VeltrixDB.Storage.WalFormat

/-!
# The value log

One disk's append-only value log, following `storage/vlog.go`.  A record
is a header and a value at an offset; extents are reserved by moving the end of
the log and written afterwards.  A single append owns whole blocks; the batcher
packs several records into one block.  Punching frees the bytes below an
offset, and reading a record there finds no header.

Main results:

- Theorem `VLog.readValue_of_blobs`: a value that is stored is read back.
- Theorem `VLog.commit_blobs_of_staged`: every value staged in a batch is stored
  at its own offset.
-/

namespace VeltrixDB.Storage

open Function List

def vlogHeaderBytes : Nat := 24

/-- Reservations are whole blocks. -/
def vlogBlockSize : Nat := 4096

def alignUp (n : Nat) : Nat :=
  (n + vlogBlockSize - 1) / vlogBlockSize * vlogBlockSize

def alignDown (n : Nat) : Nat :=
  n / vlogBlockSize * vlogBlockSize

theorem le_alignUp (n : Nat) : n ≤ alignUp n := by
  simp only [alignUp, vlogBlockSize]
  omega

/-! ## The log -/

structure VLog where
  tail : Nat
  blobs : Nat → Option (List UInt8)
  punchWatermark : Nat
  savedWatermark : Nat
  blobs_lt : ∀ o v, blobs o = some v → o < tail

/-- The log of a fresh disk: offset 0 is never a record. -/
def VLog.create : VLog where
  tail := vlogBlockSize
  blobs := fun _ => none
  punchWatermark := 0
  savedWatermark := 0
  blobs_lt := by intro o v h; cases h

/-- Reserve an extent of `n` bytes at the end. -/
def VLog.reserve (vl : VLog) (n : Nat) : VLog :=
  { vl with
    tail := vl.tail + n
    blobs_lt := fun o v h => Nat.lt_add_right n (vl.blobs_lt o v h) }

/-- Write the record of `value` at an offset of a reserved extent. -/
def VLog.writeAt (vl : VLog) (o : Nat) (value : List UInt8) : VLog :=
  if h : o < vl.tail then
    { vl with
      blobs := update vl.blobs o (some value)
      blobs_lt := by
        intro p v hp
        by_cases hpo : p = o
        · exact hpo ▸ h
        · rw [update_of_ne hpo] at hp
          exact vl.blobs_lt p v hp }
  else vl

def VLog.beginAppend (vl : VLog) (value : List UInt8) : VLog × Nat :=
  ((vl.reserve (alignUp (vlogHeaderBytes + value.length))).writeAt vl.tail value, vl.tail)

/-- Read the `valueLen` bytes stored at an offset.  An empty value is not
read at all; where bytes were freed there is no header; a length that is not
the record's own fails the checksum. -/
def VLog.readValue (vl : VLog) (offset valueLen : Nat) : Option (List UInt8) :=
  if valueLen = 0 then some []
  else
    match vl.blobs offset with
    | none => none
    | some v => if v.length = valueLen then some v else none

/-! ## Packed batches -/

/-- Values staged for one extent, with offsets relative to its start. -/
structure VLogBatcher where
  used : Nat
  openBlock : Option Nat
  blockUsed : Nat
  staged : List (Nat × List UInt8)

def VLogBatcher.new : VLogBatcher :=
  { used := 0, openBlock := none, blockUsed := 0, staged := [] }

/-- Stage a value larger than a block: it takes blocks of its own. -/
def VLogBatcher.stageOversized (b : VLogBatcher) (value : List UInt8) : VLogBatcher × Nat :=
  ({ used := b.used + alignUp (vlogHeaderBytes + value.length)
     openBlock := none
     blockUsed := 0
     staged := b.staged ++ [(b.used, value)] }, b.used)

def VLogBatcher.openFresh (b : VLogBatcher) : VLogBatcher :=
  { b with used := b.used + vlogBlockSize, openBlock := some b.used, blockUsed := 0 }

/-- The batch with a block open that has room for `rawLen` more bytes, and
the start of that block. -/
def VLogBatcher.withRoom (b : VLogBatcher) (rawLen : Nat) : VLogBatcher × Nat :=
  match b.openBlock with
  | some o => if b.blockUsed + rawLen ≤ vlogBlockSize then (b, o) else (b.openFresh, b.used)
  | none => (b.openFresh, b.used)

/-- Stage a value and return its relative offset and whether it is packed. -/
def VLogBatcher.stage (b : VLogBatcher) (value : List UInt8) : VLogBatcher × Nat × Bool :=
  let rawLen := vlogHeaderBytes + value.length
  if vlogBlockSize < rawLen then
    ((b.stageOversized value).1, (b.stageOversized value).2, false)
  else
    let r := b.withRoom rawLen
    let pos := r.2 + r.1.blockUsed
    ({ r.1 with
        blockUsed := r.1.blockUsed + rawLen
        staged := r.1.staged ++ [(pos, value)] }, pos, true)

/-- Reserve the extent of a batch, write every staged value in it, and return
the start of the extent. -/
def VLog.commit (vl : VLog) (b : VLogBatcher) : VLog × Nat :=
  (b.staged.foldl (fun l p => l.writeAt (vl.tail + p.1) p.2) (vl.reserve b.used), vl.tail)

/-- The first byte of the extent that no staged record covers. -/
def VLogBatcher.fill (b : VLogBatcher) : Nat :=
  match b.openBlock with
  | some o => o + b.blockUsed
  | none => b.used

/-- Staged records lie one after the other within the extent. -/
structure VLogBatcher.Packed (b : VLogBatcher) : Prop where
  fill_le : b.fill ≤ b.used
  staged_lt : ∀ p ∈ b.staged, p.1 < b.fill
  nodup : (b.staged.map Prod.fst).Nodup
  block : ∀ o, b.openBlock = some o → o + vlogBlockSize = b.used

variable {b : VLogBatcher} {o : Nat}

theorem VLogBatcher.packed_new : VLogBatcher.new.Packed where
  fill_le := Nat.le_refl _
  staged_lt := by intro p hp; cases hp
  nodup := nodup_nil
  block := by intro o h; cases h

/-- A record staged at or after the fill keeps the records one after the
other. -/
theorem VLogBatcher.Packed.push {b' : VLogBatcher} (h : b.Packed) {value : List UInt8}
    (hstaged : b'.staged = b.staged ++ [(o, value)]) (ho : b.fill ≤ o) (hfill : o < b'.fill)
    (hused : b'.fill ≤ b'.used)
    (hblock : ∀ p, b'.openBlock = some p → p + vlogBlockSize = b'.used) : b'.Packed where
  fill_le := hused
  staged_lt := by
    rw [hstaged]
    refine forall_mem_append.mpr ⟨fun p hp => ?_, forall_mem_singleton.mpr hfill⟩
    have := h.staged_lt p hp
    omega
  nodup := by
    rw [hstaged, map_append, nodup_append]
    refine ⟨h.nodup, nodup_singleton _, ?_⟩
    intro a ha c hc
    obtain ⟨p, hp, rfl⟩ := mem_map.mp ha
    have hlt := h.staged_lt p hp
    simp only [map_cons, map_nil, mem_singleton] at hc
    omega
  block := hblock

theorem VLogBatcher.Packed.openFresh (h : b.Packed) : b.openFresh.Packed where
  fill_le := by simp [VLogBatcher.fill, VLogBatcher.openFresh]
  staged_lt := fun p hp => Nat.lt_of_lt_of_le (h.staged_lt p hp) h.fill_le
  nodup := h.nodup
  block := by
    intro o ho
    cases ho
    rfl

theorem VLogBatcher.Packed.withRoom (h : b.Packed) {n : Nat} (hn : n ≤ vlogBlockSize) :
    (b.withRoom n).1.Packed ∧ (b.withRoom n).1.openBlock = some (b.withRoom n).2 ∧
      (b.withRoom n).1.blockUsed + n ≤ vlogBlockSize := by
  have hfresh : b.openFresh.blockUsed + n ≤ vlogBlockSize := by
    simp only [VLogBatcher.openFresh]
    omega
  rw [VLogBatcher.withRoom]
  cases hb : b.openBlock with
  | none => exact ⟨h.openFresh, rfl, hfresh⟩
  | some =>
    simp only
    split
    next hroom => exact ⟨h, hb, hroom⟩
    · exact ⟨h.openFresh, rfl, hfresh⟩

theorem VLogBatcher.staged_withRoom (b : VLogBatcher) (n : Nat) :
    (b.withRoom n).1.staged = b.staged := by
  rw [VLogBatcher.withRoom]
  cases b.openBlock with
  | none => rfl
  | some =>
    simp only
    split <;> rfl

theorem VLogBatcher.staged_stage (b : VLogBatcher) (value : List UInt8) :
    (b.stage value).1.staged = b.staged ++ [((b.stage value).2.1, value)] := by
  simp only [VLogBatcher.stage]
  split
  · rfl
  · rw [b.staged_withRoom]

theorem VLogBatcher.Packed.stage (h : b.Packed) (value : List UInt8) :
    (b.stage value).1.Packed := by
  have hpos : 0 < vlogHeaderBytes + value.length := by simp only [vlogHeaderBytes]; omega
  simp only [VLogBatcher.stage]
  split
  · have hup := le_alignUp (vlogHeaderBytes + value.length)
    refine h.push rfl h.fill_le ?_ (Nat.le_refl _) ?_
    · simp only [VLogBatcher.stageOversized, VLogBatcher.fill]
      omega
    · intro p hp; cases hp
  next hsmall =>
    obtain ⟨hpk, hopen, hroom⟩ := h.withRoom (Nat.le_of_not_lt hsmall)
    have hfill : (b.withRoom (vlogHeaderBytes + value.length)).1.fill =
        (b.withRoom (vlogHeaderBytes + value.length)).2 +
          (b.withRoom (vlogHeaderBytes + value.length)).1.blockUsed := by
      simp only [VLogBatcher.fill, hopen]
    have hblk := hpk.block _ hopen
    refine hpk.push rfl (Nat.le_of_eq hfill) ?_ ?_ hpk.block
    · simp only [VLogBatcher.fill, hopen]
      omega
    · simp only [VLogBatcher.fill, hopen]
      omega

/-! ## Reading back -/

variable {vl : VLog}

namespace VLog

theorem writeAt_blobs_self (h : o < vl.tail) (v : List UInt8) :
    (vl.writeAt o v).blobs o = some v := by
  rw [writeAt, dif_pos h]
  exact update_self ..

theorem writeAt_blobs_of_ne {p : Nat} (h : p ≠ o) (v : List UInt8) :
    (vl.writeAt o v).blobs p = vl.blobs p := by
  rw [writeAt]
  split
  · exact update_of_ne h ..
  · rfl

@[simp] theorem writeAt_tail (vl : VLog) (o : Nat) (v : List UInt8) :
    (vl.writeAt o v).tail = vl.tail := by
  rw [writeAt]
  split <;> rfl

/-- What is written is not touched by a later append. -/
theorem beginAppend_blobs_of_some {w : List UInt8} (h : vl.blobs o = some w) (v : List UInt8) :
    (vl.beginAppend v).1.blobs o = some w := by
  have hlt := vl.blobs_lt o w h
  exact (writeAt_blobs_of_ne (Nat.ne_of_lt hlt) v).trans h

theorem beginAppend_blobs_self (vl : VLog) (v : List UInt8) :
    (vl.beginAppend v).1.blobs (vl.beginAppend v).2 = some v := by
  have hup := le_alignUp (vlogHeaderBytes + v.length)
  apply writeAt_blobs_self
  simp only [reserve, vlogHeaderBytes] at hup ⊢
  omega

theorem le_beginAppend_tail (vl : VLog) (v : List UInt8) : vl.tail ≤ (vl.beginAppend v).1.tail := by
  simp [beginAppend, reserve]

theorem readValue_of_blobs {v : List UInt8} (h : vl.blobs o = some v) :
    vl.readValue o v.length = some v := by
  rw [readValue]
  split
  next h0 => rw [length_eq_zero_iff.mp h0]
  · rw [h]
    simp

theorem foldl_writeAt_blobs_of_lt {base : Nat} (h : o < base) (ps : List (Nat × List UInt8))
    (l : VLog) : (ps.foldl (fun l p => l.writeAt (base + p.1) p.2) l).blobs o = l.blobs o := by
  induction ps generalizing l with
  | nil => rfl
  | cons p ps ih =>
    rw [foldl_cons, ih]
    exact writeAt_blobs_of_ne (by omega) p.2

theorem foldl_writeAt_blobs_of_mem {base : Nat} {ps : List (Nat × List UInt8)} {l : VLog}
    (hnd : (ps.map Prod.fst).Nodup) (hlt : ∀ p ∈ ps, base + p.1 < l.tail) :
    ∀ p ∈ ps, (ps.foldl (fun l p => l.writeAt (base + p.1) p.2) l).blobs (base + p.1) =
      some p.2 := by
  induction ps generalizing l with
  | nil => intro p hp; cases hp
  | cons q ps ih =>
    rw [map_cons, nodup_cons] at hnd
    have htail : ∀ p ∈ ps, base + p.1 < (l.writeAt (base + q.1) q.2).tail := by
      intro p hp
      rw [writeAt_tail]
      exact hlt p (mem_cons_of_mem _ hp)
    -- later writes of the batch go to other offsets
    have hkeep : ∀ (rs : List (Nat × List UInt8)) (l : VLog), q.1 ∉ rs.map Prod.fst →
        (rs.foldl (fun l p => l.writeAt (base + p.1) p.2) l).blobs (base + q.1) =
          l.blobs (base + q.1) := by
      intro rs
      induction rs with
      | nil => intro l _; rfl
      | cons r rs ihr =>
        intro l hr
        rw [map_cons, mem_cons, not_or] at hr
        rw [foldl_cons, ihr _ hr.2]
        exact writeAt_blobs_of_ne (by omega) r.2
    intro p hp
    rcases mem_cons.mp hp with rfl | hp
    · rw [foldl_cons, hkeep ps _ hnd.1]
      exact writeAt_blobs_self (hlt p (mem_cons_self ..)) p.2
    · exact ih hnd.2 htail p hp

theorem commit_blobs_of_some {w : List UInt8} (h : vl.blobs o = some w) (b : VLogBatcher) :
    (vl.commit b).1.blobs o = some w := by
  rw [commit, foldl_writeAt_blobs_of_lt (vl.blobs_lt o w h)]
  exact h

/-- Every value of a batch is stored at its offset. -/
theorem commit_blobs_of_staged (vl : VLog) (hb : b.Packed) {p : Nat × List UInt8}
    (hp : p ∈ b.staged) : (vl.commit b).1.blobs (vl.tail + p.1) = some p.2 := by
  refine foldl_writeAt_blobs_of_mem hb.nodup ?_ p hp
  intro q hq
  have hlt := hb.staged_lt q hq
  have hle := hb.fill_le
  simp only [reserve]
  omega

theorem commit_tail (vl : VLog) (b : VLogBatcher) : (vl.commit b).1.tail = vl.tail + b.used := by
  have key : ∀ (ps : List (Nat × List UInt8)) (l : VLog),
      (ps.foldl (fun l p => l.writeAt (vl.tail + p.1) p.2) l).tail = l.tail := by
    intro ps
    induction ps with
    | nil => intro l; rfl
    | cons p ps ih =>
      intro l
      exact (ih _).trans (writeAt_tail ..)
  exact key b.staged (vl.reserve b.used)

end VLog

end VeltrixDB.Storage
