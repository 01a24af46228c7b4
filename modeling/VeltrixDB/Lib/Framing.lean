import Mathlib.Data.List.Basic

/-!
# Framed append-only files

An append-only file is a concatenation of frames.  A reader takes one frame
after another from the front and stops at the first byte position where no
whole frame can be read.  This module relates the reader to the writer for an
arbitrary frame codec, in particular for a file that was cut in the middle of
a frame.

Main results:

- Theorem `scan_flatten_take`: scanning a file cut at any byte returns
  exactly the frames that lie completely before the cut and stops at the end
  of the last of them.
- Theorem `Local.frames_take`: the same for a reader that looks no further than the
  frame it reads, given only that it reads back each frame.
- Theorem `Local.frames_append`: when the reader looks no further than the
  frame it reads, symbols after a file only add frames after its own.
-/

namespace Framing

open List Prod

variable {α β : Type*}

/-- Read frames from the front with `decode` until none can be read,
returning the frames and the number of symbols consumed. -/
def scan (decode : List β → Option (α × Nat)) : Nat → List β → List α × Nat
  | 0, _ => ([], 0)
  | fuel + 1, bs =>
    match decode bs with
    | none => ([], 0)
    | some (a, n) =>
      let rest := scan decode fuel (bs.drop n)
      (a :: rest.1, n + rest.2)

def flatten (encode : α → List β) (as : List α) : List β :=
  as.flatMap encode

/-- The number of leading frames that lie completely within the first
`k` symbols. -/
def framesWithin (encode : α → List β) : List α → Nat → Nat
  | [], _ => 0
  | a :: as, k =>
    if (encode a).length ≤ k then framesWithin encode as (k - (encode a).length) + 1 else 0

/-- A frame codec: a whole frame in front is read back with its length, and a
proper prefix of a frame is not a frame. -/
structure Codec (encode : α → List β) (decode : List β → Option (α × Nat)) (a : α) : Prop where
  decode_encode : ∀ rest, decode (encode a ++ rest) = some (a, (encode a).length)
  decode_torn : ∀ k, k < (encode a).length → decode ((encode a).take k) = none
  encode_pos : 0 < (encode a).length

variable {encode : α → List β} {decode : List β → Option (α × Nat)} {bs : List β}

@[simp] theorem flatten_nil : flatten encode ([] : List α) = [] := rfl

@[simp] theorem flatten_cons (a : α) (as : List α) :
    flatten encode (a :: as) = encode a ++ flatten encode as := by
  simp [flatten]

@[simp] theorem flatten_append (as bs : List α) :
    flatten encode (as ++ bs) = flatten encode as ++ flatten encode bs := by
  simp [flatten]

theorem framesWithin_le (as : List α) (k : Nat) : framesWithin encode as k ≤ as.length := by
  induction as generalizing k with
  | nil => simp [framesWithin]
  | cons a as ih =>
    have h := ih (k - (encode a).length)
    rw [framesWithin, length_cons]
    split <;> omega

/-- The frames within the first `k` symbols end at or before `k`. -/
theorem length_flatten_framesWithin_le (as : List α) (k : Nat) :
    (flatten encode (as.take (framesWithin encode as k))).length ≤ k := by
  induction as generalizing k with
  | nil => simp [framesWithin]
  | cons a as ih =>
    rw [framesWithin]
    split
    next h =>
      have hrest := ih (k - (encode a).length)
      rw [take_succ_cons, flatten_cons, length_append]
      omega
    next h => simp

theorem le_framesWithin (as : List α) (k j : Nat) (hj : j ≤ as.length)
    (h : (flatten encode (as.take j)).length ≤ k) : j ≤ framesWithin encode as k := by
  induction as generalizing k j with
  | nil => simpa [framesWithin] using hj
  | cons a as ih =>
    cases j with
    | zero => exact Nat.zero_le _
    | succ j =>
      rw [take_succ_cons, flatten_cons, length_append] at h
      rw [framesWithin, if_pos (by omega)]
      exact Nat.succ_le_succ (ih _ j (by simpa using hj) (by omega))

theorem framesWithin_of_le (as : List α) (k : Nat) (h : (flatten encode as).length ≤ k) :
    framesWithin encode as k = as.length := by
  induction as generalizing k with
  | nil => simp [framesWithin]
  | cons a as ih =>
    rw [flatten_cons, length_append] at h
    rw [framesWithin, if_pos (by omega), ih _ (by omega), length_cons]

/-- Scanning the first `k` symbols of a file returns the frames that lie
completely within them and stops where the last of them ends. -/
theorem scan_flatten_take (as : List α) (hcodec : ∀ a ∈ as, Codec encode decode a)
    (hnil : decode [] = none) (k fuel : Nat) (hfuel : k < fuel) :
    scan decode fuel ((flatten encode as).take k) =
      (as.take (framesWithin encode as k),
        (flatten encode (as.take (framesWithin encode as k))).length) := by
  induction as generalizing k fuel with
  | nil =>
    cases fuel with
    | zero => omega
    | succ => simp [scan, hnil]
  | cons a as ih =>
    have ha := hcodec a (mem_cons_self ..)
    cases fuel with
    | zero => omega
    | succ fuel =>
      rw [framesWithin, flatten_cons]
      split
      next h =>
        have hpos := ha.encode_pos
        have hrec := ih (fun b hb => hcodec b (mem_cons_of_mem _ hb))
          (k - (encode a).length) fuel (by omega)
        rw [take_append, take_of_length_le h, scan, ha.decode_encode]
        simp [hrec]
      next h =>
        have hk : k < (encode a).length := by omega
        rw [take_append_of_le_length (by omega), scan, ha.decode_torn k hk]
        simp

/-! ## Readers that look no further than the frame -/

/-- What is read from the front does not depend on the symbols after it. -/
structure Local (decode : List β → Option (α × Nat)) : Prop where
  bounds : ∀ {bs a n}, decode bs = some (a, n) → 0 < n ∧ n ≤ bs.length
  append : ∀ {bs a n}, decode bs = some (a, n) → ∀ rest, decode (bs ++ rest) = some (a, n)

def frames (decode : List β → Option (α × Nat)) (bs : List β) : List α :=
  (scan decode (bs.length + 1) bs).1

def framesEnd (decode : List β → Option (α × Nat)) (bs : List β) : Nat :=
  (scan decode (bs.length + 1) bs).2

namespace Local

/-- Fuel beyond the length of the input is not used. -/
theorem scan_fuel (hl : Local decode) {fuel fuel' : Nat} (h : bs.length < fuel)
    (h' : bs.length < fuel') : scan decode fuel bs = scan decode fuel' bs := by
  induction fuel generalizing bs fuel' with
  | zero => omega
  | succ fuel ih =>
    cases fuel' with
    | zero => omega
    | succ fuel' =>
      rw [scan, scan]
      cases hd : decode bs with
      | none => rfl
      | some r =>
        obtain ⟨a, n⟩ := r
        have hb := hl.bounds hd
        have hlen : (bs.drop n).length < bs.length := by rw [length_drop]; omega
        have hrest : scan decode fuel (bs.drop n) = scan decode fuel' (bs.drop n) :=
          ih (by omega) (by omega)
        simp only [hrest]

theorem frames_of_none (hd : decode bs = none) : frames decode bs = [] := by
  simp [frames, scan, hd]

theorem framesEnd_of_none (hd : decode bs = none) : framesEnd decode bs = 0 := by
  simp [framesEnd, scan, hd]

theorem frames_of_some (hl : Local decode) {a : α} {n : Nat} (hd : decode bs = some (a, n)) :
    frames decode bs = a :: frames decode (bs.drop n) := by
  have hb := hl.bounds hd
  have hlen : (bs.drop n).length < bs.length := by rw [length_drop]; omega
  rw [frames, scan, hd, frames]
  simp only [hl.scan_fuel hlen (Nat.lt_succ_self _)]

theorem framesEnd_of_some (hl : Local decode) {a : α} {n : Nat} (hd : decode bs = some (a, n)) :
    framesEnd decode bs = n + framesEnd decode (bs.drop n) := by
  have hb := hl.bounds hd
  have hlen : (bs.drop n).length < bs.length := by rw [length_drop]; omega
  rw [framesEnd, scan, hd, framesEnd]
  simp only [hl.scan_fuel hlen (Nat.lt_succ_self _)]

/-- Symbols after a file add frames only after its own, and the reader
reaches them at the point where the file's own frames end. -/
theorem frames_append (hl : Local decode) (bs rest : List β) :
    frames decode (bs ++ rest) =
      frames decode bs ++ frames decode (bs.drop (framesEnd decode bs) ++ rest) := by
  induction h : bs.length using Nat.strongRecOn generalizing bs with
  | ind len ih =>
    cases hd : decode bs with
    | none => simp [frames_of_none hd, framesEnd_of_none hd]
    | some r =>
      obtain ⟨a, n⟩ := r
      have hb := hl.bounds hd
      have hrest := ih (bs.drop n).length (by rw [length_drop]; omega) _ rfl
      rw [hl.frames_of_some (hl.append hd rest), hl.frames_of_some hd,
        hl.framesEnd_of_some hd, drop_append_of_le_length hb.2, hrest,
        drop_drop, cons_append]

/-- A file of frames that are read back, cut at any symbol: the reader returns the frames
that lie before the cut and stops where the last of them ends. -/
theorem frames_take (hl : Local decode) (fs : List (List β × α))
    (h : ∀ f ∈ fs, decode f.1 = some (f.2, f.1.length)) (k : Nat) :
    frames decode ((flatten fst fs).take k) =
        (fs.take (framesWithin fst fs k)).map snd ∧
      framesEnd decode ((flatten fst fs).take k) =
        (flatten fst (fs.take (framesWithin fst fs k))).length := by
  induction fs generalizing k with
  | nil =>
    have hnone : decode [] = none := by
      cases hd : decode [] with
      | none => rfl
      | some r =>
        have hb := hl.bounds (show decode [] = some (r.1, r.2) from hd)
        rw [length_nil] at hb
        omega
    rw [flatten_nil, take_nil]
    exact ⟨frames_of_none hnone, framesEnd_of_none hnone⟩
  | cons f fs ih =>
    have hf := h f mem_cons_self
    rw [framesWithin, flatten_cons]
    split
    next hk =>
      obtain ⟨hframes, hend⟩ := ih (fun g hg => h g (mem_cons_of_mem _ hg)) (k - f.1.length)
      have hread := hl.append hf ((flatten fst fs).take (k - f.1.length))
      rw [take_append, take_of_length_le hk, take_succ_cons]
      constructor
      · rw [hl.frames_of_some hread, drop_left, hframes, map_cons]
      · rw [hl.framesEnd_of_some hread, drop_left, hend, flatten_cons, length_append]
    next hk =>
      -- a frame that was read from a cut one would be read from the whole one
      have hnone : decode (f.1.take k) = none := by
        cases hd : decode (f.1.take k) with
        | none => rfl
        | some r =>
          have hb := hl.bounds (show decode (f.1.take k) = some (r.1, r.2) from hd)
          have hwhole := hl.append (show decode (f.1.take k) = some (r.1, r.2) from hd) (f.1.drop k)
          rw [take_append_drop, hf] at hwhole
          have hlen := congrArg snd (Option.some.inj hwhole)
          rw [length_take] at hb
          omega
      rw [take_append_of_le_length (by omega), take_zero]
      exact ⟨frames_of_none hnone, framesEnd_of_none hnone⟩

theorem mem_frames_of_mem_take (hl : Local decode) {k : Nat} {a : α}
    (h : a ∈ frames decode (bs.take k)) : a ∈ frames decode bs := by
  rw [← take_append_drop k bs, hl.frames_append]
  exact mem_append_left _ h

end Local

end Framing
