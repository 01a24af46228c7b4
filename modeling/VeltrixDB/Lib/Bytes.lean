import Mathlib.Data.Nat.Log
import Mathlib.Tactic.Ring

/-!
# Byte strings: words and CRC-32

Fixed-width words as byte lists, least significant byte first, words of
variable length, and the reflected CRC-32 of a byte list for an arbitrary
polynomial.

Main results:

- Theorem `getUint_putUint`: reading back `w` bytes gives the word
  modulo `256 ^ w`.
- Theorem `getUint_putUint_of_lt`: a word that fits is read back exactly.
- Theorem `wordAt_append`: a word at an offset does not depend on the bytes
  after it.
- Theorem `getUvarint_putUvarint`: a 64-bit word of variable length is read
  back, whatever follows it.
-/

namespace Bytes

open List

/-- The 64-bit FNV-1a hash. -/
def fnv64a (s : List UInt8) : UInt64 :=
  s.foldl (fun h b => (h ^^^ b.toUInt64) * 0x100000001b3) 0xcbf29ce484222325

/-! ## Little-endian words -/

/-- The `w` low bytes of `n`, least significant first. -/
def putUint : Nat → Nat → List UInt8
  | 0, _ => []
  | w + 1, n => UInt8.ofNat n :: putUint w (n / 256)

/-- The number whose little-endian bytes are given. -/
def getUint : List UInt8 → Nat
  | [] => 0
  | b :: bs => b.toNat + 256 * getUint bs

@[simp] theorem length_putUint (w n : Nat) : (putUint w n).length = w := by
  induction w generalizing n with
  | zero => rfl
  | succ w ih => simp [putUint, ih]

/-- Reading a `w`-byte word back truncates it to `w` bytes. -/
theorem getUint_putUint (w n : Nat) : getUint (putUint w n) = n % 256 ^ w := by
  induction w generalizing n with
  | zero => simp [putUint, getUint, Nat.mod_one]
  | succ w ih =>
    rw [putUint, getUint, ih, pow_succ', Nat.mod_mul]
    simp

theorem getUint_putUint_of_lt {w n : Nat} (h : n < 256 ^ w) : getUint (putUint w n) = n := by
  rw [getUint_putUint, Nat.mod_eq_of_lt h]

/-! ## Words at an offset -/

/-- The `w`-byte word at offset `i`. -/
def wordAt (i w : Nat) (bs : List UInt8) : Nat :=
  getUint ((bs.drop i).take w)

/-- A word is read where it was written. -/
@[simp] theorem wordAt_zero_putUint (w n : Nat) (rest : List UInt8) :
    wordAt 0 w (putUint w n ++ rest) = n % 256 ^ w := by
  rw [wordAt, drop_zero, take_left' (length_putUint w n), getUint_putUint]

theorem wordAt_putUint_append {i w v n : Nat} (h : v ≤ i) (rest : List UInt8) :
    wordAt i w (putUint v n ++ rest) = wordAt (i - v) w rest := by
  rw [wordAt, wordAt, drop_append, length_putUint,
    drop_eq_nil_of_le (by rw [length_putUint]; exact h), nil_append]

theorem wordAt_append {i w : Nat} {bs : List UInt8} (h : i + w ≤ bs.length) (rest : List UInt8) :
    wordAt i w (bs ++ rest) = wordAt i w bs := by
  rw [wordAt, wordAt, drop_append_of_le_length (by omega),
    take_append_of_le_length (by rw [length_drop]; omega)]

/-! ## Signed words -/

/-- A signed number as an unsigned 64-bit word, in two's complement. -/
def ofInt64 (x : Int) : Nat := (x % 2 ^ 64).toNat

/-- The signed number of an unsigned 64-bit word. -/
def toInt64 (n : Nat) : Int := if n < 2 ^ 63 then n else n - 2 ^ 64

theorem ofInt64_lt (x : Int) : ofInt64 x < 256 ^ 8 := by
  rw [ofInt64]
  omega

/-- A number within the range of a signed word survives the round trip. -/
theorem toInt64_ofInt64 {x : Int} (hlo : -2 ^ 63 ≤ x) (hhi : x < 2 ^ 63) :
    toInt64 (ofInt64 x) = x := by
  rw [toInt64, ofInt64]
  omega

/-! ## Words of variable length -/

/-- Seven bits a byte, least significant first, in at most `n` bytes; every
byte but the last has its high bit set. -/
def putUvarintIn : Nat → Nat → List UInt8
  | 0, _ => []
  | n + 1, x =>
    if x < 128 then [UInt8.ofNat x]
    else UInt8.ofNat (x % 128 + 128) :: putUvarintIn n (x / 128)

/-- Read such a word and say how many bytes it took.  The last of the bytes
that are allowed may hold one bit only. -/
def getUvarintIn : Nat → List UInt8 → Option (Nat × Nat)
  | 0, _ => none
  | _ + 1, [] => none
  | n + 1, b :: bs =>
    if b.toNat < 128 then if n = 0 ∧ 1 < b.toNat then none else some (b.toNat, 1)
    else (getUvarintIn n bs).map fun r => (b.toNat - 128 + 128 * r.1, r.2 + 1)

/-- A 64-bit word in at most ten bytes. -/
def putUvarint (x : Nat) : List UInt8 := putUvarintIn 10 x

/-- Read a 64-bit word of variable length. -/
def getUvarint (bs : List UInt8) : Option (Nat × Nat) := getUvarintIn 10 bs

theorem getUvarintIn_putUvarintIn (n : Nat) {x : Nat} (h : x < 2 ^ (7 * n + 1))
    (rest : List UInt8) :
    getUvarintIn (n + 1) (putUvarintIn (n + 1) x ++ rest) =
      some (x, (putUvarintIn (n + 1) x).length) := by
  induction n generalizing x with
  | zero =>
    have hbyte : (UInt8.ofNat x).toNat = x := by
      rw [UInt8.toNat_ofNat']
      omega
    rw [putUvarintIn, if_pos (by omega)]
    simp only [singleton_append, getUvarintIn, hbyte]
    rw [if_pos (by omega), if_neg (by omega)]
    rfl
  | succ n ih =>
    rw [putUvarintIn]
    split
    next hx =>
      have hbyte : (UInt8.ofNat x).toNat = x := by
        rw [UInt8.toNat_ofNat']
        omega
      simp only [singleton_append, getUvarintIn, hbyte]
      rw [if_pos hx]
      rfl
    next hx =>
      have hbyte : (UInt8.ofNat (x % 128 + 128)).toNat = x % 128 + 128 := by
        rw [UInt8.toNat_ofNat']
        omega
      have hdiv : x / 128 < 2 ^ (7 * n + 1) := by
        rw [Nat.div_lt_iff_lt_mul (by decide)]
        calc x < 2 ^ (7 * (n + 1) + 1) := h
          _ = 2 ^ (7 * n + 1) * 128 := by ring
      rw [cons_append, getUvarintIn, if_neg (by omega), ih hdiv, Option.map_some]
      congr 2
      omega

/-- A 64-bit word is read back, whatever follows it. -/
theorem getUvarint_putUvarint {x : Nat} (h : x < 2 ^ 64) (rest : List UInt8) :
    getUvarint (putUvarint x ++ rest) = some (x, (putUvarint x).length) :=
  getUvarintIn_putUvarintIn 9 h rest

theorem putUvarint_ne_nil (x : Nat) : putUvarint x ≠ [] := by
  rw [putUvarint, putUvarintIn]
  split
  · exact cons_ne_nil _ _
  · exact cons_ne_nil _ _

/-! ## CRC-32 -/

/-- Shift one bit out of a reflected CRC register. -/
def crcBit (poly c : UInt32) : UInt32 :=
  if c &&& 1 == 1 then (c >>> 1) ^^^ poly else c >>> 1

/-- Feed one byte, low bit first, into a reflected CRC register. -/
def crcByte (poly c : UInt32) (b : UInt8) : UInt32 :=
  (crcBit poly)^[8] (c ^^^ b.toUInt32)

/-- The CRC-32 checksum of a byte list: register preset to ones, inverted at
the end. -/
def crc32 (poly : UInt32) (bs : List UInt8) : UInt32 :=
  bs.foldl (crcByte poly) 0xFFFFFFFF ^^^ 0xFFFFFFFF

end Bytes
