import Mathlib.Data.List.GetD
import VeltrixDB.Lib.ByteOrder
import VeltrixDB.Lib.Bytes
import VeltrixDB.Storage.WalFormat

/-!
# Lists of byte strings

The list type of `storage/list_set_ops.go`.  A list is spread over one key per
element and a record with two exclusive bounds; a push allocates the next number
outward, a pop consumes inward.  Every read may fail.  An operation returns its result
together with the reads and the writes that it made, in their order.

Main results:

- Theorem `Holds.run`: without a failed read an operation does to the stored list
  what it does to a sequence.
- Theorem `runList_eq_iff`: the results of a sequence of operations are those of a
  double-ended queue exactly when no read failed and the list stayed below the largest
  length.
- Theorem `crash_atomic_iff`: after a crash the list is the one before or after the
  operation, except after the first write of a pop.
-/

namespace VeltrixDB.Storage

open Function List

open scoped Bytes
open Bytes

/-! ## Keys and bounds -/

/-- A 64-bit word, most significant byte first. -/
def bigEndian64 (n : ℕ) : List UInt8 := (putUint 8 n).reverse

/-- The result of signed 64-bit arithmetic. -/
def i64 (x : Int) : Int := toInt64 (ofInt64 x)

/-- The separator of list keys and the mark of the bounds. -/
def listMetaKey : List UInt8 := [2, 33]

/-- The key of an element; the number is biased so that negative ones sort first. -/
def listElemKey (key : Key) (seq : Int) : Key := key ++ [2] ++ bigEndian64 (ofInt64 seq + 2 ^ 63)

def metaValue (head tail : Int) : List UInt8 :=
  bigEndian64 (ofInt64 head) ++ bigEndian64 (ofInt64 tail)

inductive ReadError where
  | notFound
  | io
deriving DecidableEq, Repr

/-- The live values of an engine. -/
abbrev KVStore := Key → Option (List UInt8)

def KVStore.get (st : KVStore) (fails : Bool) (key : Key) : Except ReadError (List UInt8) :=
  if fails then .error .io
  else
    match st key with
    | some v => .ok v
    | none => .error .notFound

/-- The exclusive bounds that a read of the record gives; without a record of 16 bytes
the list is empty. -/
def listMeta : Except ReadError (List UInt8) → Int × Int
  | .ok v =>
    if v.length = 16 then
      (toInt64 (getUint (v.take 8).reverse), toInt64 (getUint (v.drop 8).reverse))
    else (0, 1)
  | .error _ => (0, 1)

/-! ## Operations -/

structure ListMutation where
  key : Key
  value : List UInt8
  tombstone : Bool
deriving DecidableEq, Repr

def KVStore.write (st : KVStore) (m : ListMutation) : KVStore :=
  update st m.key (if m.tombstone then none else some m.value)

def KVStore.writeAll (st : KVStore) (ms : List ListMutation) : KVStore := ms.foldl KVStore.write st

inductive ListResult where
  | pushed (n : Int)
  | popped (v : Option (List UInt8))
  | len (n : Int)
  | range (vs : List (List UInt8))
  | error
deriving DecidableEq, Repr

/-- The result of an operation, with the reads and the writes that it made. -/
structure ListOutcome where
  result : ListResult
  reads : List (Except ReadError (List UInt8))
  writes : List ListMutation

def ListOutcome.hits (o : ListOutcome) : Bool :=
  o.reads.any fun r =>
    match r with
    | .error .io => true
    | _ => false

section Operations

variable (st : KVStore) (fails : ℕ → Bool) (key : Key)

/-- Push a value at the left or the right end: the element is written before the
bounds. -/
def listPush (val : List UInt8) (left : Bool) : ListOutcome :=
  let r := st.get (fails 0) (key ++ listMetaKey)
  let head := (listMeta r).1
  let tail := (listMeta r).2
  let seq := if left then head else tail
  let head' := if left then i64 (head - 1) else head
  let tail' := if left then tail else i64 (tail + 1)
  { result := .pushed (i64 (tail' - head' - 1))
    reads := [r]
    writes := [⟨listElemKey key seq, val, false⟩,
      ⟨key ++ listMetaKey, metaValue head' tail', false⟩] }

/-- Pop the value at an end.  An element that cannot be read is popped as well, and
nothing is returned for it. -/
def listPop (left : Bool) : ListOutcome :=
  let r := st.get (fails 0) (key ++ listMetaKey)
  let head := (listMeta r).1
  let tail := (listMeta r).2
  if i64 (tail - head) ≤ 1 then { result := .popped none, reads := [r], writes := [] }
  else
    let seq := if left then i64 (head + 1) else i64 (tail - 1)
    let head' := if left then i64 (head + 1) else head
    let tail' := if left then tail else i64 (tail - 1)
    let v := st.get (fails 1) (listElemKey key seq)
    { result := .popped v.toOption
      reads := [r, v]
      writes := [⟨listElemKey key seq, [], true⟩,
        ⟨key ++ listMetaKey, metaValue head' tail', false⟩] }

def lLen : ListOutcome :=
  let r := st.get (fails 0) (key ++ listMetaKey)
  { result := .len (i64 ((listMeta r).2 - (listMeta r).1 - 1)), reads := [r], writes := [] }

/-- The positions of a range in a list of `n` elements: negative positions count
from the end, and what is out of range is clamped. -/
def clampRange (n start stop : Int) : Int × Int :=
  let start := if start < 0 then start + n else start
  let stop := if stop < 0 then stop + n else stop
  (if start < 0 then 0 else start, if n ≤ stop then n - 1 else stop)

/-- The elements between two positions.  An element that cannot be read is skipped. -/
def lRange (start stop : Int) : ListOutcome :=
  let r := st.get (fails 0) (key ++ listMetaKey)
  let head := (listMeta r).1
  let n := i64 ((listMeta r).2 - head - 1)
  if n ≤ 0 then { result := .range [], reads := [r], writes := [] }
  else
    let first := (clampRange n start stop).1
    let last := (clampRange n start stop).2
    if last < first then { result := .range [], reads := [r], writes := [] }
    else
      let vs := (List.range (last - first + 1).toNat).map fun j =>
        st.get (fails (j + 1)) (listElemKey key (head + 1 + (first + j)))
      { result := .range (vs.filterMap Except.toOption), reads := r :: vs, writes := [] }

end Operations

inductive ListOp where
  | lPush (val : List UInt8)
  | rPush (val : List UInt8)
  | lPop
  | rPop
  | lLen
  | lRange (start stop : Int)
deriving DecidableEq, Repr

def ListOp.run (st : KVStore) (fails : ℕ → Bool) (key : Key) : ListOp → ListOutcome
  | .lPush val => listPush st fails key val true
  | .rPush val => listPush st fails key val false
  | .lPop => listPop st fails key true
  | .rPop => listPop st fails key false
  | .lLen => Storage.lLen st fails key
  | .lRange start stop => Storage.lRange st fails key start stop

/-! ## The double-ended queue -/

/-- The elements of a sequence between two positions, ends included; a negative
position counts from the end. -/
def sliceOf (l : List (List UInt8)) (start stop : Int) : List (List UInt8) :=
  let first := max 0 (if start < 0 then start + l.length else start)
  let last := min (l.length - 1 : Int) (if stop < 0 then stop + l.length else stop)
  (l.drop first.toNat).take (last - first + 1).toNat

def ListOp.deque (l : List (List UInt8)) : ListOp → ListResult × List (List UInt8)
  | .lPush val => (.pushed (l.length + 1), val :: l)
  | .rPush val => (.pushed (l.length + 1), l ++ [val])
  | .lPop => (.popped l.head?, l.tail)
  | .rPop => (.popped l.getLast?, l.dropLast)
  | .lLen => (.len l.length, l)
  | .lRange start stop => (.range (sliceOf l start stop), l)

/-! ## Arithmetic of the bounds -/

/-- Signed arithmetic is arithmetic modulo 2 to the 64th, in a window around zero. -/
theorem i64_spec (x : Int) : (i64 x - x) % 2 ^ 64 = 0 ∧ -2 ^ 63 ≤ i64 x ∧ i64 x < 2 ^ 63 := by
  unfold i64 toInt64 ofInt64
  split <;> omega

theorem ofInt64_i64 (x : Int) : ofInt64 (i64 x) = ofInt64 x := by
  have := i64_spec x
  unfold ofInt64
  omega

/-- The window has one number of every class. -/
theorem i64_congr {x y : Int} (h : (x - y) % 2 ^ 64 = 0) : i64 x = i64 y := by
  have hx := i64_spec x
  have hy := i64_spec y
  omega

theorem i64_length {head n : Int} (hn : 0 ≤ n) (hsmall : n < 2 ^ 63) :
    i64 (i64 (head + n + 1) - head - 1) = n := by
  have h := i64_spec (head + n + 1)
  have h' := i64_spec (i64 (head + n + 1) - head - 1)
  omega

theorem i64_span {head n : Int} (hn : 0 ≤ n) (hsmall : n + 1 < 2 ^ 63) :
    i64 (i64 (head + n + 1) - head) = n + 1 := by
  have h := i64_spec (head + n + 1)
  have h' := i64_spec (i64 (head + n + 1) - head)
  omega

theorem getUint_bigEndian64 (n : ℕ) : getUint (bigEndian64 n).reverse = n % 2 ^ 64 := by
  rw [bigEndian64, reverse_reverse, getUint_putUint]
  norm_num

@[simp] theorem length_bigEndian64 (n : ℕ) : (bigEndian64 n).length = 8 := by
  rw [bigEndian64, length_reverse, length_putUint]

theorem ofInt64_mod (x : Int) : ofInt64 x % 2 ^ 64 = ofInt64 x := by
  have := ofInt64_lt x
  omega

theorem listMeta_metaValue (head tail : Int) :
    listMeta (.ok (metaValue head tail)) = (i64 head, i64 tail) := by
  have hlen : (metaValue head tail).length = 16 := by
    rw [metaValue, length_append, length_bigEndian64, length_bigEndian64]
  rw [listMeta, metaValue, take_left' (length_bigEndian64 _),
    drop_left' (length_bigEndian64 _), getUint_bigEndian64, getUint_bigEndian64, ofInt64_mod,
    ofInt64_mod]
  rfl

theorem listElemKey_i64 (key : Key) (seq : Int) :
    listElemKey key (i64 seq) = listElemKey key seq := by
  rw [listElemKey, listElemKey, ofInt64_i64]

/-- Two elements of a list have one key only if their numbers agree modulo 2 to the
64th. -/
theorem listElemKey_ne (key : Key) {a b : Int} (h : (a - b) % 2 ^ 64 ≠ 0) :
    listElemKey key a ≠ listElemKey key b := by
  intro heq
  have hbytes := append_cancel_left heq
  have hword := congrArg (fun bs : List UInt8 => getUint bs.reverse) hbytes
  simp only [getUint_bigEndian64, ofInt64] at hword
  omega

theorem listElemKey_ne_meta (key : Key) (seq : Int) : listElemKey key seq ≠ key ++ listMetaKey := by
  intro heq
  have hlen := congrArg List.length heq
  simp [listElemKey, listMetaKey] at hlen

theorem listElemKey_congr (key : Key) {a b : Int} (h : (a - b) % 2 ^ 64 = 0) :
    listElemKey key a = listElemKey key b := by
  rw [← listElemKey_i64, i64_congr h, listElemKey_i64]

/-! ## Stored lists -/

variable {op : ListOp} {st : KVStore} {key : Key}

/-- A store holds a list after its left bound. -/
structure HoldsAt (st : KVStore) (key : Key) (head : Int) (l : List (List UInt8)) : Prop where
  bounds : listMeta (st.get false (key ++ listMetaKey)) = (head, i64 (head + l.length + 1))
  small : l.length < 2 ^ 63
  elems : ∀ (i : ℕ) (v : List UInt8), l[i]? = some v → st (listElemKey key (head + 1 + i)) = some v

def Holds (st : KVStore) (key : Key) (l : List (List UInt8)) : Prop :=
  ∃ head, HoldsAt st key head l

/-- Without a record there is the empty list. -/
theorem holds_nil (h : st (key ++ listMetaKey) = none) : Holds st key [] := by
  refine ⟨0, ?_, by decide, fun i v hv => by simp at hv⟩
  rw [KVStore.get, h]
  rfl

theorem holds_of_meta {l : List (List UInt8)} {head tail : Int}
    (hmeta : st (key ++ listMetaKey) = some (metaValue head tail))
    (htail : (tail - (head + l.length + 1)) % 2 ^ 64 = 0) (hsmall : l.length < 2 ^ 63)
    (helems : ∀ (i : ℕ) (v : List UInt8), l[i]? = some v →
      st (listElemKey key (head + 1 + i)) = some v) : Holds st key l := by
  have hhead := i64_spec head
  refine ⟨i64 head, ?_, hsmall, fun i v hv => ?_⟩
  · rw [KVStore.get, hmeta]
    show listMeta (.ok (metaValue head tail)) = _
    rw [listMeta_metaValue, Prod.mk.injEq]
    exact ⟨rfl, i64_congr (by omega)⟩
  · rw [listElemKey_congr key (b := head + 1 + i) (by omega)]
    exact helems i v hv

theorem writeAll_pair (st : KVStore) (m m' : ListMutation) (k : Key) :
    st.writeAll [m, m'] k =
      if k = m'.key then (if m'.tombstone then none else some m'.value)
      else if k = m.key then (if m.tombstone then none else some m.value)
      else st k := by
  simp only [KVStore.writeAll, foldl_cons, foldl_nil, KVStore.write, update_apply]

theorem writeAll_elem {m m' : ListMutation} {seq seq' : Int} (hm : m.key = listElemKey key seq)
    (hm' : m'.key = key ++ listMetaKey) (hne : (seq' - seq) % 2 ^ 64 ≠ 0) :
    st.writeAll [m, m'] (listElemKey key seq') = st (listElemKey key seq') := by
  rw [writeAll_pair, hm, hm', if_neg (listElemKey_ne_meta key seq'),
    if_neg (listElemKey_ne key hne)]

section Run

variable {st : KVStore} {key : Key} {head : Int} {l : List (List UInt8)} {fails : ℕ → Bool}

theorem get_of_not_io {b : Bool} {k : Key} (h : st.get b k ≠ .error .io) : b = false := by
  cases b with
  | false => rfl
  | true => exact absurd rfl h

theorem not_io_of_not_hits {o : ListOutcome} (h : o.hits = false) :
    ∀ r ∈ o.reads, r ≠ .error .io := by
  rintro r hr rfl
  have : o.hits = true := any_eq_true.mpr ⟨_, hr, rfl⟩
  rw [h] at this
  cases this

/-- The longest list on which pushes and pops work is one short of the largest
length. -/
def ListOp.Fits (l : List (List UInt8)) : ListOp → Prop
  | .lPush _ | .rPush _ | .lPop | .rPop => l.length + 1 < 2 ^ 63
  | .lLen | .lRange _ _ => True

theorem HoldsAt.push_left (h : HoldsAt st key head l) (val : List UInt8)
    (hfits : l.length + 1 < 2 ^ 63) (h₀ : fails 0 = false) :
    (listPush st fails key val true).result = .pushed (l.length + 1) ∧
      Holds (st.writeAll (listPush st fails key val true).writes) key (val :: l) := by
  have hpred := i64_spec (head - 1)
  have htail := i64_spec (head + l.length + 1)
  simp only [listPush, h₀, h.bounds, if_true]
  constructor
  · rw [ListResult.pushed.injEq]
    have := i64_spec (i64 (head + l.length + 1) - i64 (head - 1) - 1)
    omega
  · refine holds_of_meta (by rw [writeAll_pair, if_pos rfl]; rfl) ?_ (by simpa using hfits)
      fun i v hv => ?_
    · rw [length_cons]
      omega
    · cases i with
      | zero =>
        obtain rfl := Option.some.inj hv
        have hkey : listElemKey key (i64 (head - 1) + 1 + (0 : ℕ)) = listElemKey key head :=
          listElemKey_congr key (by push_cast; omega)
        rw [hkey, writeAll_pair, if_neg (listElemKey_ne_meta key head), if_pos rfl]
        rfl
      | succ i =>
        have hv' : l[i]? = some v := hv
        have hlt := (List.getElem?_eq_some_iff.mp hv').1
        have hkey : listElemKey key (i64 (head - 1) + 1 + (i + 1 : ℕ)) =
            listElemKey key (head + 1 + i) := listElemKey_congr key (by push_cast; omega)
        rw [hkey, writeAll_elem rfl rfl (by omega)]
        exact h.elems i v hv'

theorem HoldsAt.push_right (h : HoldsAt st key head l) (val : List UInt8)
    (hfits : l.length + 1 < 2 ^ 63) (h₀ : fails 0 = false) :
    (listPush st fails key val false).result = .pushed (l.length + 1) ∧
      Holds (st.writeAll (listPush st fails key val false).writes) key (l ++ [val]) := by
  have htail := i64_spec (head + l.length + 1)
  have hsucc := i64_spec (i64 (head + l.length + 1) + 1)
  simp only [listPush, h₀, h.bounds, Bool.false_eq_true, if_false]
  constructor
  · rw [ListResult.pushed.injEq]
    have := i64_spec (i64 (i64 (head + l.length + 1) + 1) - head - 1)
    omega
  · refine holds_of_meta (by rw [writeAll_pair, if_pos rfl]; rfl) ?_ (by simpa using hfits)
      fun i v hv => ?_
    · rw [length_append, length_singleton]
      omega
    · rcases Nat.lt_or_ge i l.length with hlt | hge
      · rw [List.getElem?_append_left hlt] at hv
        rw [writeAll_elem rfl rfl (by omega)]
        exact h.elems i v hv
      · rw [List.getElem?_append_right hge] at hv
        obtain ⟨hi, rfl⟩ := List.getElem?_eq_some_iff.mp hv
        rw [length_singleton] at hi
        have hkey : listElemKey key (head + 1 + i) =
            listElemKey key (i64 (head + l.length + 1)) := listElemKey_congr key (by omega)
        rw [hkey, writeAll_pair, if_neg (listElemKey_ne_meta key _)]
        simp

theorem HoldsAt.pop_nil (h : HoldsAt st key head []) (left : Bool) (h₀ : fails 0 = false) :
    listPop st fails key left =
      { result := .popped none, reads := [st.get false (key ++ listMetaKey)], writes := [] } := by
  have hspan : i64 (i64 (head + (0 : Int) + 1) - head) = 0 + 1 := i64_span le_rfl (by norm_num)
  have hle : i64 (i64 (head + ([] : List (List UInt8)).length + 1) - head) ≤ 1 := by
    rw [length_nil, Nat.cast_zero, hspan]
    norm_num
  simp only [listPop, h₀, h.bounds, if_pos hle]

section

variable (h : HoldsAt st key head l)
include h

theorem HoldsAt.pop_ne_nil (hne : l ≠ []) (hfits : l.length + 1 < 2 ^ 63) (left : Bool)
    (h₀ : fails 0 = false) :
    ∃ seq head' tail' : Int, listPop st fails key left =
        { result := .popped (st.get (fails 1) (listElemKey key seq)).toOption
          reads := [st.get false (key ++ listMetaKey), st.get (fails 1) (listElemKey key seq)]
          writes := [⟨listElemKey key seq, [], true⟩,
            ⟨key ++ listMetaKey, metaValue head' tail', false⟩] } ∧
      (seq - if left then head + 1 else head + l.length) % 2 ^ 64 = 0 ∧
      (head' - if left then head + 1 else head) % 2 ^ 64 = 0 ∧
      (tail' - if left then head + l.length + 1 else head + l.length) % 2 ^ 64 = 0 := by
  have hpos : 0 < l.length := length_pos_iff.mpr hne
  have hspan : i64 (i64 (head + l.length + 1) - head) = l.length + 1 :=
    i64_span (Int.natCast_nonneg _) (by exact_mod_cast hfits)
  have hgt : ¬i64 (i64 (head + l.length + 1) - head) ≤ 1 := by omega
  have hhead := i64_spec (head + 1)
  have htail := i64_spec (head + l.length + 1)
  have hpred := i64_spec (i64 (head + l.length + 1) - 1)
  simp only [listPop, h₀, h.bounds, if_neg hgt]
  refine ⟨_, _, _, rfl, ?_, ?_, ?_⟩
  · cases left <;> simp only [if_true, Bool.false_eq_true, if_false] <;> omega
  · cases left <;> simp only [if_true, Bool.false_eq_true, if_false] <;> omega
  · cases left <;> simp only [if_true, Bool.false_eq_true, if_false] <;> omega

theorem HoldsAt.pop_left (hfits : l.length + 1 < 2 ^ 63) (h₀ : fails 0 = false)
    (h₁ : l ≠ [] → fails 1 = false) :
    (listPop st fails key true).result = .popped l.head? ∧
      Holds (st.writeAll (listPop st fails key true).writes) key l.tail := by
  cases l with
  | nil =>
    rw [h.pop_nil true h₀]
    exact ⟨rfl, head, h⟩
  | cons v rest =>
    obtain ⟨seq, head', tail', heq, hseq, hhead, htail⟩ :=
      h.pop_ne_nil (cons_ne_nil v rest) hfits true h₀
    simp only [if_true, length_cons] at hseq hhead htail hfits
    have hkey : listElemKey key (head + 1 + (0 : ℕ)) = listElemKey key seq :=
      listElemKey_congr key (by push_cast; omega)
    have hget : st.get (fails 1) (listElemKey key seq) = .ok v := by
      rw [h₁ (cons_ne_nil v rest), ← hkey, KVStore.get, h.elems 0 v rfl]
      rfl
    rw [heq, hget]
    refine ⟨rfl, holds_of_meta (by rw [writeAll_pair, if_pos rfl]; rfl) ?_ ?_ fun i w hw => ?_⟩
    · rw [tail_cons]
      omega
    · rw [tail_cons]
      omega
    · rw [tail_cons] at hw
      have hlt := (List.getElem?_eq_some_iff.mp hw).1
      have hkey' : listElemKey key (head' + 1 + i) = listElemKey key (head + 1 + (i + 1 : ℕ)) :=
        listElemKey_congr key (by push_cast; omega)
      rw [hkey', writeAll_elem rfl rfl (by push_cast; omega)]
      exact h.elems (i + 1) w hw

theorem HoldsAt.pop_right (hfits : l.length + 1 < 2 ^ 63) (h₀ : fails 0 = false)
    (h₁ : l ≠ [] → fails 1 = false) :
    (listPop st fails key false).result = .popped l.getLast? ∧
      Holds (st.writeAll (listPop st fails key false).writes) key l.dropLast := by
  rcases eq_nil_or_concat l with rfl | ⟨init, v, rfl⟩
  · rw [h.pop_nil false h₀]
    exact ⟨rfl, head, h⟩
  · rw [concat_eq_append] at h hfits h₁ ⊢
    have hne : init ++ [v] ≠ [] := append_ne_nil_of_right_ne_nil _ (cons_ne_nil v [])
    obtain ⟨seq, head', tail', heq, hseq, hhead, htail⟩ := h.pop_ne_nil hne hfits false h₀
    simp only [Bool.false_eq_true, if_false, length_append, length_singleton]
      at hseq hhead htail hfits
    push_cast at hseq htail
    have hkey : listElemKey key (head + 1 + init.length) = listElemKey key seq :=
      listElemKey_congr key (by omega)
    have hget : st.get (fails 1) (listElemKey key seq) = .ok v := by
      rw [h₁ hne, ← hkey, KVStore.get, h.elems init.length v (by simp)]
      rfl
    rw [heq, hget, List.getLast?_concat, dropLast_concat]
    refine ⟨rfl, holds_of_meta (by rw [writeAll_pair, if_pos rfl]; rfl) ?_ ?_ fun i w hw => ?_⟩
    · omega
    · omega
    · have hlt := (List.getElem?_eq_some_iff.mp hw).1
      have hkey' : listElemKey key (head' + 1 + i) = listElemKey key (head + 1 + i) :=
        listElemKey_congr key (by omega)
      rw [hkey', writeAll_elem rfl rfl (by omega)]
      exact h.elems i w (by rw [List.getElem?_append_left hlt]; exact hw)

theorem HoldsAt.len (h₀ : fails 0 = false) : (lLen st fails key).result = .len l.length := by
  simp only [lLen, h₀, h.bounds]
  rw [i64_length (Int.natCast_nonneg _) (by exact_mod_cast h.small)]

end

/-- The elements from a position on, read one by one. -/
theorem map_getD_eq_take_drop (l : List (List UInt8)) {first count : ℕ}
    (h : first + count ≤ l.length) :
    (List.range count).map (fun j => l.getD (first + j) []) = (l.drop first).take count := by
  apply ext_getElem
  · simp only [length_map, length_range, length_take, length_drop]
    omega
  · intro j h₁ h₂
    rw [length_map, length_range] at h₁
    rw [getElem_map, getElem_range, getElem_take, getElem_drop, getD_eq_getElem _ _ (by omega)]

theorem clampRange_eq (n start stop : Int) : clampRange n start stop =
    (max 0 (if start < 0 then start + n else start),
      min (n - 1) (if stop < 0 then stop + n else stop)) := by
  unfold clampRange
  rw [Prod.mk.injEq]
  constructor
  · split <;> omega
  · generalize (if stop < 0 then stop + n else stop) = x
    split <;> omega

theorem HoldsAt.range (h : HoldsAt st key head l) (start stop : Int)
    (hhits : (lRange st fails key start stop).hits = false) (h₀ : fails 0 = false) :
    (lRange st fails key start stop).result = .range (sliceOf l start stop) := by
  have hreads := not_io_of_not_hits hhits
  have hlen : i64 (i64 (head + l.length + 1) - head - 1) = l.length :=
    i64_length (Int.natCast_nonneg _) (by exact_mod_cast h.small)
  revert hreads
  simp only [lRange, h₀, h.bounds, hlen]
  split
  next hempty =>
    have : l = [] := length_eq_zero_iff.mp (by omega)
    simp [sliceOf, this]
  next hne =>
    have hslice : sliceOf l start stop =
        (l.drop (clampRange l.length start stop).1.toNat).take
          ((clampRange l.length start stop).2 - (clampRange l.length start stop).1 + 1).toNat := by
      rw [sliceOf, clampRange_eq]
    have hfirst : 0 ≤ (clampRange l.length start stop).1 := by
      rw [clampRange_eq]
      exact le_max_left _ _
    have hlast : (clampRange l.length start stop).2 < l.length := by
      rw [clampRange_eq]
      exact (min_le_left _ _).trans_lt (by omega)
    rw [hslice]
    generalize (clampRange l.length start stop).1 = first at *
    generalize (clampRange l.length start stop).2 = last at *
    split
    next hlt =>
      intro _
      rw [show (last - first + 1).toNat = 0 by omega, take_zero]
    next hge =>
      intro hreads
      obtain ⟨f, rfl⟩ := Int.eq_ofNat_of_zero_le (a := first) (by omega)
      have hvs : (List.range (last - f + 1).toNat).map (fun j : ℕ =>
          st.get (fails (j + 1)) (listElemKey key (head + 1 + ((f : Int) + j)))) =
          (List.range (last - f + 1).toNat).map fun j => .ok (l.getD (f + j) []) := by
        apply map_congr_left
        intro j hj
        have hj' := mem_range.mp hj
        have hlt : f + j < l.length := by omega
        have hmem := hreads _ (mem_cons_of_mem _ (mem_map_of_mem hj))
        have helem := h.elems (f + j) _ (List.getElem?_eq_getElem hlt)
        rw [get_of_not_io hmem, KVStore.get, show head + 1 + ((f : Int) + j) =
          head + 1 + ((f + j : ℕ) : Int) by push_cast; ring, helem,
          getD_eq_getElem _ _ hlt]
        rfl
      simp only [hvs]
      rw [← map_getD_eq_take_drop l (by omega)]
      simp [comp_def, Except.toOption]

/-- Every operation starts with the bounds, and none ever returns an error for a read. -/
theorem run_spec (op : ListOp) :
    st.get (fails 0) (key ++ listMetaKey) ∈ (op.run st fails key).reads ∧
      (op.run st fails key).result ≠ .error := by
  cases op with
  | lPush | rPush | lLen => exact ⟨mem_cons_self, nofun⟩
  | lPop | rPop =>
    simp only [ListOp.run, listPop]
    split <;> exact ⟨mem_cons_self, nofun⟩
  | lRange =>
    simp only [ListOp.run, lRange]
    split
    · exact ⟨mem_cons_self, nofun⟩
    · split <;> exact ⟨mem_cons_self, nofun⟩

theorem fails_zero (h : (op.run st fails key).hits = false) : fails 0 = false :=
  get_of_not_io (not_io_of_not_hits h _ (run_spec op).1)

/-- A pop of a list that is not empty reads an element. -/
theorem HoldsAt.fails_one (h : HoldsAt st key head l) (hfits : l.length + 1 < 2 ^ 63) {left : Bool}
    (hhits : (listPop st fails key left).hits = false) (h₀ : fails 0 = false) (hne : l ≠ []) :
    fails 1 = false := by
  obtain ⟨seq, head', tail', heq, -⟩ := h.pop_ne_nil hne hfits left h₀
  rw [heq] at hhits
  exact get_of_not_io (not_io_of_not_hits hhits _ (mem_cons_of_mem _ mem_cons_self))

/-- Without a failed read an operation does to the stored list what it does to a
sequence. -/
theorem Holds.run (h : Holds st key l) (op : ListOp)
    (hhits : (op.run st fails key).hits = false) (hfits : op.Fits l) :
    (op.run st fails key).result = (op.deque l).1 ∧
      Holds (st.writeAll (op.run st fails key).writes) key (op.deque l).2 := by
  have h₀ := fails_zero hhits
  obtain ⟨head, h⟩ := h
  cases op with
  | lPush val => exact h.push_left val hfits h₀
  | rPush val => exact h.push_right val hfits h₀
  | lPop => exact h.pop_left hfits h₀ (h.fails_one hfits hhits h₀)
  | rPop => exact h.pop_right hfits h₀ (h.fails_one hfits hhits h₀)
  | lLen => exact ⟨h.len h₀, head, h⟩
  | lRange start stop =>
    refine ⟨h.range start stop hhits h₀, head, ?_⟩
    simp only [ListOp.run, lRange]
    split
    · exact h
    · split <;> exact h

/-- At the largest length a push returns a negative length, and a pop finds nothing. -/
theorem Holds.run_ne (h : Holds st key l) (op : ListOp)
    (hhits : (op.run st fails key).hits = false) (hfits : ¬op.Fits l) :
    (op.run st fails key).result ≠ (op.deque l).1 := by
  have h₀ := fails_zero hhits
  obtain ⟨head, h⟩ := h
  have hsmall := h.small
  have htail := i64_spec (head + l.length + 1)
  have hspan := i64_spec (i64 (head + l.length + 1) - head)
  have hpop : ∀ left, ¬l.length + 1 < 2 ^ 63 →
      (listPop st fails key left).result = .popped none := by
    intro left hbig
    simp only [listPop, h₀, h.bounds]
    rw [if_pos (by omega)]
  have hne : ¬l.length + 1 < 2 ^ 63 → l ≠ [] := by
    rintro hbig rfl
    simp at hbig
  cases op with
  | lPush =>
    have hbig : ¬l.length + 1 < 2 ^ 63 := hfits
    have hpred := i64_spec (head - 1)
    have := i64_spec (i64 (head + l.length + 1) - i64 (head - 1) - 1)
    simp only [ListOp.run, ListOp.deque, listPush, h₀, h.bounds, if_true, ne_eq,
      ListResult.pushed.injEq]
    omega
  | rPush =>
    have hbig : ¬l.length + 1 < 2 ^ 63 := hfits
    have hsucc := i64_spec (i64 (head + l.length + 1) + 1)
    have := i64_spec (i64 (i64 (head + l.length + 1) + 1) - head - 1)
    simp only [ListOp.run, ListOp.deque, listPush, h₀, h.bounds, Bool.false_eq_true, if_false,
      ne_eq, ListResult.pushed.injEq]
    omega
  | lPop =>
    obtain ⟨v, rest, rfl⟩ := exists_cons_of_ne_nil (hne hfits)
    simp only [ListOp.run, hpop true hfits, ListOp.deque, List.head?_cons, ne_eq,
      ListResult.popped.injEq, reduceCtorEq, not_false_eq_true]
  | rPop =>
    rw [ListOp.run, hpop false hfits, ListOp.deque, List.getLast?_eq_some_getLast (hne hfits)]
    exact nofun
  | lLen | lRange => exact absurd trivial hfits

end Run

/-! ## Sequences of operations -/

/-- Run operations one after the other, each with the reads that fail in it. -/
def runList (key : Key) : KVStore → List (ListOp × (ℕ → Bool)) → List (ListOp × ListOutcome)
  | _, [] => []
  | st, (op, fails) :: rest =>
    let o := op.run st fails key
    (op, o) :: runList key (st.writeAll o.writes) rest

/-- What the results have to be: those of the sequence, where an operation that ran
into a read error returns an error and changes nothing. -/
def expected : List (List UInt8) → List (ListOp × ListOutcome) → List ListResult
  | _, [] => []
  | l, (op, o) :: rest =>
    if o.hits then .error :: expected l rest
    else (op.deque l).1 :: expected (op.deque l).2 rest

/-- No operation ran into a read error, and the list stayed below the largest length. -/
def Undisturbed : List (List UInt8) → List (ListOp × ListOutcome) → Prop
  | _, [] => True
  | l, (op, o) :: rest => o.hits = false ∧ op.Fits l ∧ Undisturbed (op.deque l).2 rest

theorem Holds.results_eq_iff (ops : List (ListOp × (ℕ → Bool))) {l : List (List UInt8)}
    (h : Holds st key l) :
    (runList key st ops).map (fun r => r.2.result) = expected l (runList key st ops) ↔
      Undisturbed l (runList key st ops) := by
  induction ops generalizing st l with
  | nil => simp [runList, expected, Undisturbed]
  | cons op ops ih =>
    obtain ⟨op, fails⟩ := op
    simp only [runList, map_cons, expected, Undisturbed]
    by_cases hhits : (op.run st fails key).hits = true
    · simp only [hhits, if_true, List.cons.injEq, (run_spec _).2, false_and, reduceCtorEq]
    · rw [Bool.not_eq_true] at hhits
      by_cases hfits : op.Fits l
      · obtain ⟨hresult, hholds⟩ := h.run op hhits hfits
        simp only [hhits, hfits, Bool.false_eq_true, if_false, List.cons.injEq, hresult, true_and,
          ih hholds]
      · simp only [hhits, hfits, Bool.false_eq_true, if_false, List.cons.injEq,
          h.run_ne op hhits hfits, false_and, and_false]

/-- The results of a sequence of operations on a new list are those of a double-ended
queue exactly when no operation ran into a read error and the list stayed below the
largest length. -/
theorem runList_eq_iff (key : Key) (st : KVStore) (hnew : st (key ++ listMetaKey) = none)
    (ops : List (ListOp × (ℕ → Bool))) :
    (runList key st ops).map (fun r => r.2.result) = expected [] (runList key st ops) ↔
      Undisturbed [] (runList key st ops) :=
  (holds_nil hnew).results_eq_iff ops

def never : ℕ → Bool := fun _ => false

/-- A push and a pop on a new list. -/
theorem runList_eq_two :
    (runList [107] (fun _ => none) [(.rPush [1], never), (.lPop, never)]).map
        (fun r => r.2.result) = [.pushed 1, .popped (some [1])] := by
  refine ((runList_eq_iff [107] (fun _ => none) rfl _).mpr ?_).trans (by decide)
  have hfits : ([[1]] : List (List UInt8)).length + 1 < 2 ^ 63 := by decide
  exact ⟨by decide, Nat.lt_of_succ_lt hfits, by decide, hfits, trivial⟩

/-- The bounds cannot be read during a push: the list is replaced by the new element,
and no error is returned. -/
theorem push_loses_list : (runList [107] (fun _ => none)
        [(.rPush [1], never), (.lPush [2], fun _ => true), (.lRange 0 (-1), never)]).map
        (fun r => r.2.result) = [.pushed 1, .pushed 1, .range [[2]]] ∧
      expected [] (runList [107] (fun _ => none)
        [(.rPush [1], never), (.lPush [2], fun _ => true), (.lRange 0 (-1), never)]) =
        [.pushed 1, .error, .range [[1]]] := by
  decide

/-! ## Crashes -/

inductive ReachableList (key : Key) : KVStore → List (List UInt8) → Prop where
  | new (st : KVStore) (h : st (key ++ listMetaKey) = none) : ReachableList key st []
  | step {st : KVStore} {l : List (List UInt8)} (op : ListOp) (h : ReachableList key st l)
      (hfits : op.Fits l) :
      ReachableList key (st.writeAll (op.run st never key).writes) (op.deque l).2

/-- All observers agree that the stored list is `l`. -/
structure Sees (st : KVStore) (key : Key) (l : List (List UInt8)) : Prop where
  len : (lLen st never key).result = .len l.length
  range : ∀ start stop, (lRange st never key start stop).result = .range (sliceOf l start stop)
  lPop : (listPop st never key true).result = .popped l.head?
  rPop : (listPop st never key false).result = .popped l.getLast?

/-- The observers agree with each other: the length is the number of elements, and a
list that is not empty has an element at either end. -/
def Coherent (st : KVStore) (key : Key) : Prop :=
  ∃ vs, (lRange st never key 0 (-1)).result = .range vs ∧
    (lLen st never key).result = .len vs.length ∧
    (vs ≠ [] → ∀ left, ∃ v, (listPop st never key left).result = .popped (some v))

/-- The store after a crash that leaves the first `k` writes of an operation. -/
def crashStore (st : KVStore) (key : Key) (op : ListOp) (k : ℕ) : KVStore :=
  st.writeAll ((op.run st never key).writes.take k)

/-- After the crash the list is the one before or the one after the operation. -/
def CrashAtomic (st : KVStore) (key : Key) (l : List (List UInt8)) (op : ListOp) (k : ℕ) : Prop :=
  (Sees (crashStore st key op k) key l ∨ Sees (crashStore st key op k) key (op.deque l).2) ∧
    Coherent (crashStore st key op k) key

section Crash

variable {st : KVStore} {key : Key} {l : List (List UInt8)}

theorem get_never_ne_io (k : Key) : st.get false k ≠ .error .io := by
  rw [KVStore.get]
  simp only [Bool.false_eq_true, if_false]
  split <;> exact nofun

theorem hits_of_not_io {o : ListOutcome} (h : ∀ r ∈ o.reads, r ≠ .error .io) : o.hits = false := by
  rw [ListOutcome.hits, any_eq_false]
  intro r hr
  split
  · exact absurd rfl (h _ hr)
  · exact Bool.false_ne_true

theorem hits_never (op : ListOp) : (op.run st never key).hits = false := by
  have hget : ∀ b k, st.get (never b) k ≠ .error .io := fun _ k => get_never_ne_io k
  apply hits_of_not_io
  intro r hr
  have hpop : ∀ left, r ∈ (listPop st never key left).reads → r ≠ .error .io := by
    intro left hr
    simp only [listPop] at hr
    split at hr
    · rw [mem_singleton.mp hr]
      exact hget _ _
    · rcases mem_cons.mp hr with rfl | hr
      · exact hget _ _
      · rw [mem_singleton.mp hr]
        exact hget _ _
  cases op with
  | lPush | rPush | lLen => exact mem_singleton.mp hr ▸ hget _ _
  | lPop => exact hpop true hr
  | rPop => exact hpop false hr
  | lRange =>
    simp only [ListOp.run, lRange] at hr
    split at hr
    · exact mem_singleton.mp hr ▸ hget _ _
    · split at hr
      · exact mem_singleton.mp hr ▸ hget _ _
      · rcases mem_cons.mp hr with rfl | hr
        · exact hget _ _
        · obtain ⟨j, -, rfl⟩ := mem_map.mp hr
          exact hget _ _

theorem ReachableList.holds (h : ReachableList key st l) : Holds st key l := by
  induction h with
  | new st h => exact holds_nil h
  | step op _ hfits ih => exact (ih.run op (hits_never op) hfits).2

/-- A stored list with room for the bounds is seen by all observers. -/
theorem Holds.sees (h : Holds st key l) (hroom : l.length + 1 < 2 ^ 63) : Sees st key l where
  len := (h.run .lLen (hits_never _) trivial).1
  range := fun start stop => (h.run (.lRange start stop) (hits_never _) trivial).1
  lPop := (h.run .lPop (hits_never _) hroom).1
  rPop := (h.run .rPop (hits_never _) hroom).1

theorem sliceOf_all (l : List (List UInt8)) : sliceOf l 0 (-1) = l := by
  have hlast : (min ((l.length : Int) - 1) (-1 + l.length) - 0 + 1).toNat = l.length := by
    omega
  simp only [sliceOf, lt_irrefl, if_false, show (-1 : Int) < 0 by norm_num, if_true, hlast,
    max_self, Int.toNat_zero, drop_zero, take_length]

theorem Sees.coherent_list (h : Sees st key l) : Coherent st key := by
  refine ⟨l, ?_, h.len, fun hne left => ?_⟩
  · rw [h.range, sliceOf_all]
  · cases left with
    | true => exact ⟨l.head hne, by rw [h.lPop, List.head?_eq_some_head hne]⟩
    | false => exact ⟨l.getLast hne, by rw [h.rPop, List.getLast?_eq_some_getLast hne]⟩

theorem HoldsAt.write {head : Int} (h : HoldsAt st key head l) {m : ListMutation} {seq : Int}
    (hm : m.key = listElemKey key seq)
    (hseq : ∀ i : ℕ, i < l.length → (head + 1 + i - seq) % 2 ^ 64 ≠ 0) :
    HoldsAt (st.write m) key head l where
  bounds := by
    rw [KVStore.get, KVStore.write, update_of_ne (hm ▸ (listElemKey_ne_meta key seq).symm)]
    exact h.bounds
  small := h.small
  elems := by
    intro i v hv
    rw [KVStore.write, hm, update_of_ne
      (listElemKey_ne key (hseq i (List.getElem?_eq_some_iff.mp hv).1))]
    exact h.elems i v hv

theorem Holds.push_one (h : Holds st key l) (val : List UInt8) (left : Bool)
    (hroom : l.length + 1 < 2 ^ 63) :
    Holds (st.writeAll ((listPush st never key val left).writes.take 1)) key l := by
  obtain ⟨head, h⟩ := h
  have htail := i64_spec (head + l.length + 1)
  refine ⟨head, ?_⟩
  simp only [listPush, never, h.bounds]
  refine h.write rfl fun i hi => ?_
  cases left <;> simp only [if_true, Bool.false_eq_true, if_false] <;> omega

/-- A pop that only deleted the element leaves a list that is not empty and has no
element at this end. -/
theorem Holds.pop_one (h : Holds st key l) (hne : l ≠ []) (left : Bool)
    (hroom : l.length + 1 < 2 ^ 63) :
    (lLen (st.writeAll ((listPop st never key left).writes.take 1)) never key).result =
        .len l.length ∧
      (listPop (st.writeAll ((listPop st never key left).writes.take 1)) never key left).result =
        .popped none := by
  obtain ⟨head, h⟩ := h
  obtain ⟨seq, head', tail', heq, hseq, -⟩ := h.pop_ne_nil hne hroom left (rfl : never 0 = false)
  have hspan : i64 (i64 (head + l.length + 1) - head) = l.length + 1 :=
    i64_span (Int.natCast_nonneg _) (by exact_mod_cast hroom)
  have hpos : 0 < l.length := length_pos_iff.mpr hne
  rw [heq, take_succ_cons, take_zero]
  set st' := st.writeAll [⟨listElemKey key seq, [], true⟩] with hst'
  have hbounds : listMeta (st'.get false (key ++ listMetaKey)) =
      (head, i64 (head + l.length + 1)) := by
    rw [← h.bounds, hst', KVStore.get, KVStore.get]
    simp only [KVStore.writeAll, foldl_cons, foldl_nil, KVStore.write]
    rw [update_of_ne (listElemKey_ne_meta key seq).symm]
  have hgone : ∀ seq', (seq' - seq) % 2 ^ 64 = 0 → st' (listElemKey key seq') = none := by
    intro seq' hsame
    rw [listElemKey_congr key hsame, hst']
    simp [KVStore.writeAll, KVStore.write]
  have hhead := i64_spec (head + 1)
  have htail := i64_spec (head + l.length + 1)
  have hpred := i64_spec (i64 (head + l.length + 1) - 1)
  constructor
  · simp only [lLen, never, hbounds]
    rw [i64_length (Int.natCast_nonneg _) (by exact_mod_cast h.small)]
  · simp only [listPop, never, hbounds]
    rw [if_neg (by omega)]
    rw [KVStore.get, hgone]
    · rfl
    · cases left <;> simp only [if_true, Bool.false_eq_true, if_false] at hseq ⊢ <;> omega

def ListOp.isPop : ListOp → Bool
  | .lPop | .rPop => true
  | _ => false

theorem length_deque_le (op : ListOp) : (op.deque l).2.length ≤ l.length + 1 := by
  cases op <;> simp [ListOp.deque] <;> omega

/-- A crash that leaves nothing or everything of an operation. -/
theorem Holds.atomic (h : Holds st key l) {k : ℕ} {l' : List (List UInt8)}
    (hl' : l' = l ∨ l' = (op.deque l).2) (hroom : l.length + 2 < 2 ^ 63)
    (hst : Holds (crashStore st key op k) key l') : CrashAtomic st key l op k := by
  have hlen : l'.length + 1 < 2 ^ 63 := by
    have := length_deque_le (l := l) op
    rcases hl' with rfl | rfl <;> omega
  have hsees := hst.sees hlen
  refine ⟨?_, hsees.coherent_list⟩
  rcases hl' with rfl | rfl
  · exact .inl hsees
  · exact .inr hsees

theorem crashStore_of_take_nil {k : ℕ} (h : (op.run st never key).writes.take k = []) :
    crashStore st key op k = st := by
  rw [crashStore, h]
  rfl

theorem Holds.crash_all (h : Holds st key l) {k : ℕ} (hfits : op.Fits l)
    (hk : (op.run st never key).writes.length ≤ k) :
    Holds (crashStore st key op k) key (op.deque l).2 := by
  rw [crashStore, take_of_length_le hk]
  exact (h.run op (hits_never op) hfits).2

theorem length_writes_le (op : ListOp) : (op.run st never key).writes.length ≤ 2 := by
  have hpop : ∀ left, (listPop st never key left).writes.length ≤ 2 := by
    intro left
    simp only [listPop]
    split
    · exact Nat.zero_le 2
    · exact le_rfl
  cases op with
  | lPush | rPush => exact le_rfl
  | lPop => exact hpop true
  | rPop => exact hpop false
  | lLen => exact Nat.zero_le 2
  | lRange =>
    simp only [ListOp.run, lRange]
    split
    · exact Nat.zero_le 2
    · split <;> exact Nat.zero_le 2

theorem Holds.pop_nil_writes (h : Holds st key []) (hop : op.isPop = true) :
    (op.run st never key).writes = [] := by
  obtain ⟨head, h⟩ := h
  cases op with
  | lPop =>
    rw [ListOp.run, h.pop_nil true (rfl : never 0 = false)]
  | rPop =>
    rw [ListOp.run, h.pop_nil false (rfl : never 0 = false)]
  | lPush | rPush | lLen | lRange => cases hop

end Crash

/-- From every list that operations reach, and for a crash after any number of the
writes of an operation, the list is seen as the one before or the one after the
operation, and coherently so, exactly when it was not a pop of a list with elements of
which only the first write was left. -/
theorem crash_atomic_iff {key : Key} {st : KVStore} {l : List (List UInt8)}
    (hreach : ReachableList key st l) (hroom : l.length + 2 < 2 ^ 63) (op : ListOp) (k : ℕ) :
    CrashAtomic st key l op k ↔ ¬(op.isPop = true ∧ l ≠ [] ∧ k = 1) := by
  have h := hreach.holds
  have hfits : op.Fits l := by
    cases op <;> first | trivial | exact (show l.length + 1 < 2 ^ 63 by omega)
  constructor
  · rintro ⟨-, vs, -, hlen, hends⟩ ⟨hop, hne, rfl⟩
    have hpos : 0 < l.length := length_pos_iff.mpr hne
    -- The list seems to have its old length, but there is nothing at its end.
    have hgap : ∃ left, (lLen (crashStore st key op 1) never key).result = .len l.length ∧
        (listPop (crashStore st key op 1) never key left).result = .popped none := by
      cases op with
      | lPop => exact ⟨true, h.pop_one hne true (by omega)⟩
      | rPop => exact ⟨false, h.pop_one hne false (by omega)⟩
      | lPush | rPush | lLen | lRange => cases hop
    obtain ⟨left, hlen', hpop⟩ := hgap
    rw [hlen, ListResult.len.injEq] at hlen'
    have hvs : vs ≠ [] := by
      rintro rfl
      rw [length_nil] at hlen'
      omega
    obtain ⟨v, hv⟩ := hends hvs left
    rw [hpop] at hv
    cases hv
  · intro hnot
    rcases Nat.lt_or_ge k 2 with hk | hk
    · by_cases hk0 : k = 0
      · subst hk0
        exact h.atomic (.inl rfl) hroom (by rw [crashStore_of_take_nil (take_zero)]; exact h)
      · obtain rfl : k = 1 := by omega
        by_cases hop : op.isPop = true
        · have hnil : l = [] := by
            by_contra hne
            exact hnot ⟨hop, hne, rfl⟩
          subst hnil
          refine h.atomic (.inl rfl) hroom ?_
          rw [crashStore_of_take_nil (by rw [h.pop_nil_writes hop, take_nil])]
          exact h
        · refine h.atomic (.inl rfl) hroom ?_
          cases op with
          | lPush val => exact h.push_one val true (by omega)
          | rPush val => exact h.push_one val false (by omega)
          | lPop | rPop => exact absurd rfl hop
          | lLen => exact h
          | lRange =>
            rw [crashStore_of_take_nil]
            · exact h
            · simp only [ListOp.run, lRange]
              split
              · rfl
              · split <;> rfl
    · exact h.atomic (.inr rfl) hroom (h.crash_all hfits ((length_writes_le op).trans hk))

/-- A crash after the first write of a push to a list with an element. -/
theorem crash_atomic_push :
    ∃ st, ReachableList [107] st [[1]] ∧ CrashAtomic st [107] [[1]] (.rPush [2]) 1 := by
  have hreach : ReachableList [107] _ [[1]] :=
    .step (.rPush [1]) (.new (fun _ => none) rfl) (by decide : 0 + 1 < 2 ^ 63)
  exact ⟨_, hreach, (crash_atomic_iff hreach (by decide) (.rPush [2]) 1).mpr fun h => by cases h.1⟩

/-- A crash after the first write of a pop: the length is still one, but no element is
found, neither by a range nor by a pop. -/
theorem crash_pop_gap :
    ∃ st, ReachableList [107] st [[1]] ∧ ¬CrashAtomic st [107] [[1]] .lPop 1 ∧
      (lLen (crashStore st [107] .lPop 1) never [107]).result = .len 1 ∧
      (lRange (crashStore st [107] .lPop 1) never [107] 0 (-1)).result = .range [] ∧
      (listPop (crashStore st [107] .lPop 1) never [107] true).result = .popped none := by
  have hfits : ListOp.Fits [] (.rPush [1]) := by
    show 0 + 1 < 2 ^ 63
    decide
  refine ⟨_, .step (.rPush [1]) (.new (fun _ => none) rfl) hfits, ?_, by decide, by decide,
    by decide⟩
  rintro ⟨hsees, -⟩
  rcases hsees with hsees | hsees
  · exact absurd hsees.lPop (by decide)
  · exact absurd hsees.len (by decide)

end VeltrixDB.Storage
