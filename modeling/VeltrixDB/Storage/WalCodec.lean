import VeltrixDB.Storage.WalFormat

/-!
# Records of either format are read back

Text records are numbers and the key, separated by bars, and a value after the line
(`appendWALRecordText` and `nextText` of `storage/wal.go` and
`storage/wal_format.go`).  This module reads them back and puts records of both
formats into one file, which may be cut anywhere.

Main results:

- Theorem `WALEntry.Built.readsBack_text`: a text record is read back, unless it
  carries a value beyond the decoder's bound.
- Theorem `decode_take_iff`: a file of records is read back up to any cut just when
  the records are within the bounds.
-/

namespace VeltrixDB.Storage

open List Framing

open Bytes

/-! ## Numbers -/

variable {b : UInt8}

theorem digitVal_digitChar {d : Nat} (h : d < 16) :
    digitVal (ascii (Nat.digitChar d)) = some d := by
  have hall : ∀ i : Fin 16, digitVal (ascii (Nat.digitChar i)) = some i.val := by decide
  exact hall ⟨d, h⟩

theorem parseDigits_append (base acc : Nat) (xs ys : List UInt8) :
    parseDigits base acc (xs ++ ys) =
      (parseDigits base acc xs).bind fun acc' => parseDigits base acc' ys := by
  induction xs generalizing acc with
  | nil => rfl
  | cons b xs ih =>
    rw [cons_append, parseDigits, parseDigits]
    cases digitVal b with
    | none => rfl
    | some d =>
      by_cases hd : base ≤ d
      · simp only [if_pos hd]
        rfl
      · simp only [if_neg hd]
        exact ih _

theorem parseDigits_digitChar {base d : Nat} (hbase : base ≤ 16) (hd : d < base) (acc : Nat) :
    parseDigits base acc [ascii (Nat.digitChar d)] = some (acc * base + d) := by
  simp only [parseDigits, digitVal_digitChar (Nat.lt_of_lt_of_le hd hbase)]
  rw [if_neg (Nat.not_le.mpr hd)]

theorem parseDigits_formatUint {base : Nat} (hbase : 1 < base) (hle : base ≤ 16) (n : Nat) :
    parseDigits base 0 (formatUint base n) = some n := by
  induction n using Nat.strongRecOn with
  | ind n ih =>
    unfold formatUint at ih ⊢
    by_cases hn : n < base
    · rw [Nat.toDigits_of_lt_base hn]
      have hone := parseDigits_digitChar hle hn 0
      rw [Nat.zero_mul, Nat.zero_add] at hone
      exact hone
    · have hlt : n / base < n := Nat.div_lt_self (by omega) hbase
      rw [Nat.toDigits_of_base_le hbase (Nat.not_lt.mp hn), map_append, parseDigits_append,
        ih _ hlt]
      show parseDigits base (n / base) [ascii (Nat.digitChar (n % base))] = some n
      rw [parseDigits_digitChar hle (Nat.mod_lt _ (by omega)), Nat.div_add_mod']

theorem formatUint_ne_nil (base n : Nat) : formatUint base n ≠ [] := by
  intro h
  exact Nat.toDigits_ne_nil (map_eq_nil_iff.mp h)

theorem parseUint_formatUint {base bits n : Nat} (hbase : 1 < base) (hle : base ≤ 16)
    (h : n < 2 ^ bits) : parseUint base bits (formatUint base n) = some n := by
  unfold parseUint
  rw [if_neg (formatUint_ne_nil base n), parseDigits_formatUint hbase hle]
  exact if_pos h

theorem digitVal_of_mem_formatUint {base n : Nat} (hbase : 1 < base) (hle : base ≤ 16)
    (hb : b ∈ formatUint base n) : (digitVal b).isSome = true := by
  induction n using Nat.strongRecOn with
  | ind n ih =>
    have hdigit : ∀ d, d < base → b ∈ [Nat.digitChar d].map ascii → (digitVal b).isSome = true := by
      intro d hd hmem
      rw [map_singleton, mem_singleton] at hmem
      rw [hmem, digitVal_digitChar (Nat.lt_of_lt_of_le hd hle)]
      rfl
    unfold formatUint at ih hb
    by_cases hn : n < base
    · rw [Nat.toDigits_of_lt_base hn] at hb
      exact hdigit n hn hb
    · rw [Nat.toDigits_of_base_le hbase (Nat.not_lt.mp hn), map_append] at hb
      rcases mem_append.mp hb with hb | hb
      · exact ih _ (Nat.div_lt_self (by omega) hbase) hb
      · exact hdigit _ (Nat.mod_lt _ (by omega)) hb

/-- A byte of a field: neither a separator nor the end of a line. -/
def isFieldByte (b : UInt8) : Bool := b != ascii '|' && !isBlank b && b != walBinMagic

theorem isFieldByte_of_digit (h : (digitVal b).isSome = true) : isFieldByte b = true := by
  by_contra hn
  have hcases : b = ascii '|' ∨ b = ascii '\n' ∨ b = ascii '\r' ∨ b = walBinMagic := by
    simp only [isFieldByte, isBlank, Bool.and_eq_true, bne_iff_ne, Bool.not_eq_true',
      Bool.or_eq_false_iff, decide_eq_false_iff_not, not_and_or, not_not] at hn
    tauto
  rcases hcases with rfl | rfl | rfl | rfl <;> exact absurd h (by decide)

theorem isFieldByte_formatUint {base n : Nat} (hbase : 1 < base) (hle : base ≤ 16) :
    ∀ b ∈ formatUint base n, isFieldByte b = true :=
  fun _ hb => isFieldByte_of_digit (digitVal_of_mem_formatUint hbase hle hb)

theorem isFieldByte_formatInt (n : Int) : ∀ b ∈ formatInt n, isFieldByte b = true := by
  unfold formatInt
  split
  · exact forall_mem_cons.mpr ⟨by decide, isFieldByte_formatUint (by omega) (by omega)⟩
  · exact isFieldByte_formatUint (by omega) (by omega)

theorem formatInt_ne_nil (n : Int) : formatInt n ≠ [] := by
  unfold formatInt
  split
  · exact cons_ne_nil _ _
  · exact formatUint_ne_nil _ _

/-- A number without sign does not begin with one. -/
theorem head_formatUint_ne {base n : Nat} (hbase : 1 < base) (hle : base ≤ 16)
    (hb : digitVal b = none) : (formatUint base n).head? ≠ some b := by
  intro h
  have hdigit := digitVal_of_mem_formatUint hbase hle (mem_of_head? h)
  rw [hb] at hdigit
  cases hdigit

theorem parseInt_formatInt {n : Int} (hlo : -2 ^ 63 ≤ n) (hhi : n < 2 ^ 63) :
    parseInt (formatInt n) = some n := by
  have hparse : parseUint 10 64 (formatUint 10 n.natAbs) = some n.natAbs :=
    parseUint_formatUint (by omega) (by omega) (by omega)
  unfold parseInt formatInt
  by_cases hneg : n < 0
  · simp only [if_pos hneg, List.head?_cons, decide_true, true_or, if_true, tail_cons, hparse]
    rw [if_pos (by omega)]
    congr 1
    omega
  · have hminus : (formatUint 10 n.natAbs).head? ≠ some (ascii '-') :=
      head_formatUint_ne (by omega) (by omega) (by decide)
    have hplus : (formatUint 10 n.natAbs).head? ≠ some (ascii '+') :=
      head_formatUint_ne (by omega) (by omega) (by decide)
    simp only [if_neg hneg, decide_eq_false hminus, hplus, Bool.false_eq_true, or_self, if_false,
      hparse]
    rw [if_pos (by omega)]
    congr 1
    omega

/-! ## Lines -/

def joinBars : List (List UInt8) → List UInt8
  | [] => []
  | [f] => f
  | f :: g :: fs => f ++ ascii '|' :: joinBars (g :: fs)

theorem splitN_of_not_mem {sep : UInt8} {s : List UInt8} (h : sep ∉ s) (n : Nat) :
    splitN sep n s = [s] := by
  cases n with
  | zero => rfl
  | succ =>
    have hdrop : s.dropWhile (· ≠ sep) = [] := by
      apply dropWhile_eq_nil_iff.mpr
      intro b hb
      exact decide_eq_true fun heq => h (heq ▸ hb)
    rw [splitN, hdrop]

theorem splitN_append {sep : UInt8} {f : List UInt8} (h : sep ∉ f) (n : Nat) (rest : List UInt8) :
    splitN sep (n + 1) (f ++ sep :: rest) = f :: splitN sep n rest := by
  have hall : ∀ b ∈ f, decide (b ≠ sep) = true := fun b hb =>
    decide_eq_true fun heq => h (heq ▸ hb)
  have hdrop : (f ++ sep :: rest).dropWhile (· ≠ sep) = sep :: rest := by
    rw [dropWhile_append_of_pos hall, dropWhile_cons_of_neg (by simp)]
  have htake : (f ++ sep :: rest).takeWhile (· ≠ sep) = f := by
    rw [takeWhile_append_of_pos hall, takeWhile_cons_of_neg (by simp), append_nil]
  rw [splitN, hdrop, htake]

/-- Joined fields are split again. -/
theorem splitN_joinBars {fs : List (List UInt8)} (hne : fs ≠ [])
    (h : ∀ f ∈ fs, ascii '|' ∉ f) {n : Nat} (hn : fs.length ≤ n + 1) :
    splitN (ascii '|') n (joinBars fs) = fs := by
  induction fs generalizing n with
  | nil => exact absurd rfl hne
  | cons f fs ih =>
    cases fs with
    | nil => exact splitN_of_not_mem (h f mem_cons_self) n
    | cons =>
      obtain ⟨m, rfl⟩ : ∃ m, n = m + 1 := ⟨n - 1, by simp only [length_cons] at hn; omega⟩
      rw [joinBars, splitN_append (h f mem_cons_self),
        ih (cons_ne_nil _ _) (fun f' hf' => h f' (mem_cons_of_mem _ hf'))
          (by simp only [length_cons] at hn ⊢; omega)]

theorem mem_joinBars {fs : List (List UInt8)} (hb : b ∈ joinBars fs) :
    b = ascii '|' ∨ ∃ f ∈ fs, b ∈ f := by
  induction fs with
  | nil => cases hb
  | cons f fs ih =>
    cases fs with
    | nil => exact .inr ⟨f, mem_cons_self, hb⟩
    | cons =>
      rcases mem_append.mp hb with hb | hb
      · exact .inr ⟨f, mem_cons_self, hb⟩
      · rcases mem_cons.mp hb with hb | hb
        · exact .inl hb
        · rcases ih hb with hb | ⟨f', hf', hb⟩
          · exact .inl hb
          · exact .inr ⟨f', mem_cons_of_mem _ hf', hb⟩

theorem exists_joinBars_concat (fs : List (List UInt8)) (f : List UInt8) :
    ∃ line, joinBars (fs ++ [f]) = line ++ f := by
  induction fs with
  | nil => exact ⟨[], rfl⟩
  | cons g fs ih =>
    obtain ⟨line, hline⟩ := ih
    refine ⟨g ++ ascii '|' :: line, ?_⟩
    have hstep : joinBars (g :: (fs ++ [f])) = g ++ ascii '|' :: joinBars (fs ++ [f]) := by
      cases fs <;> rfl
    rw [cons_append, hstep, hline, append_assoc, cons_append]

theorem trimRight_concat {line : List UInt8} (hb : isBlank b = false) :
    trimRight (line ++ [b]) = line ++ [b] := by
  unfold trimRight
  rw [reverse_append, reverse_singleton, singleton_append,
    dropWhile_cons_of_neg (by rw [hb]; exact Bool.false_ne_true), reverse_cons,
    reverse_reverse]

/-! ## Text records -/

def textBit (b : Bool) : List UInt8 := [if b then ascii '1' else ascii '0']

def textFields (e : WALEntry) : List (List UInt8) :=
  [formatInt e.timestamp, textBit e.isTombstone, e.key, formatUint 10 e.valueLen,
    formatUint 16 e.checksum.toNat, formatUint 10 e.version, formatInt e.vlogOffset] ++
  textBit e.packed ::
    ((if 0 < e.ttlExpiryUs ∨ e.xformFlags ≠ 0 ∨ e.diskLen ≠ e.valueLen then
      [formatUint 10 e.diskLen, formatUint 16 e.xformFlags.toNat] else []) ++
    if 0 < e.ttlExpiryUs then [formatInt e.ttlExpiryUs] else [])

theorem appendWALRecordText_eq (e : WALEntry) :
    appendWALRecordText [] e = joinBars (textFields e) ++
      ascii '\n' :: if e.inline then e.value ++ [ascii '\n'] else [] := by
  unfold appendWALRecordText textFields textBit
  by_cases httl : 0 < e.ttlExpiryUs
  · simp [httl, joinBars]
  · by_cases hx : e.xformFlags ≠ 0 ∨ e.diskLen ≠ e.valueLen
    · simp [httl, hx, joinBars]
    · simp [httl, hx, joinBars]

/-- The numbers of a record fit their machine words. -/
structure WALEntry.Words (e : WALEntry) : Prop where
  valueLen_lt : e.valueLen < 2 ^ 32
  diskValueLen_lt : e.diskValueLen < 2 ^ 32
  version_lt : e.version < 2 ^ 64
  timestamp_ge : -2 ^ 63 ≤ e.timestamp
  timestamp_lt : e.timestamp < 2 ^ 63
  vlogOffset_ge : -2 ^ 63 ≤ e.vlogOffset
  vlogOffset_lt : e.vlogOffset < 2 ^ 63
  ttlExpiryUs_lt : e.ttlExpiryUs < 2 ^ 63

section TextRoundTrip

variable {e : WALEntry}

theorem WALEntry.Words.diskLen_lt (h : e.Words) : e.diskLen < 2 ^ 32 := by
  unfold WALEntry.diskLen
  split
  · exact h.valueLen_lt
  · exact h.diskValueLen_lt

theorem textBit_eq (b : Bool) : decide (textBit b = [ascii '1']) = b := by
  cases b <;> decide

/-- What the fields after the version say. -/
theorem WALEntry.Words.textOptional_eq (h : e.Words) (r : WalReplayEntry)
    (hdisk : r.diskLen = e.valueLen) (hx : r.xflags = 0) (httl : r.ttlExpiryUs = 0) :
    textOptional r (formatInt e.vlogOffset :: textBit e.packed ::
      ((if 0 < e.ttlExpiryUs ∨ e.xformFlags ≠ 0 ∨ e.diskLen ≠ e.valueLen then
        [formatUint 10 e.diskLen, formatUint 16 e.xformFlags.toNat] else []) ++
      if 0 < e.ttlExpiryUs then [formatInt e.ttlExpiryUs] else [])) =
      some { r with
        vlogOffset := e.vlogOffset
        packed := e.packed
        diskLen := e.diskLen
        xflags := e.xformFlags
        ttlExpiryUs := if 0 < e.ttlExpiryUs then e.ttlExpiryUs else 0 } := by
  have hoff := parseInt_formatInt h.vlogOffset_ge h.vlogOffset_lt
  have hlen : parseUint 10 32 (formatUint 10 e.diskLen) = some e.diskLen :=
    parseUint_formatUint (by omega) (by omega) h.diskLen_lt
  have hflags : parseUint 16 8 (formatUint 16 e.xformFlags.toNat) = some e.xformFlags.toNat :=
    parseUint_formatUint (by omega) (by omega) e.xformFlags.toNat_lt
  have hzero : (if 0 < e.diskLen then e.diskLen else r.diskLen) = e.diskLen := by
    split
    · rfl
    next hz =>
      rw [hdisk]
      unfold WALEntry.diskLen at hz ⊢
      by_cases hd : e.diskValueLen = 0
      · rw [if_pos hd]
      · rw [if_neg hd] at hz
        omega
  unfold textOptional
  simp only [hoff, textBit_eq]
  by_cases ht : 0 < e.ttlExpiryUs
  · have hexp := parseInt_formatInt (n := e.ttlExpiryUs) (by omega) h.ttlExpiryUs_lt
    simp only [ht, true_or, if_true, cons_append, nil_append, hlen, hflags, hzero, hexp,
      Option.map_some, UInt8.ofNat_toNat]
  · by_cases hopt : e.xformFlags ≠ 0 ∨ e.diskLen ≠ e.valueLen
    · simp only [ht, hopt, or_true, if_true, if_false, cons_append, nil_append, hlen,
        hflags, hzero, httl, UInt8.ofNat_toNat]
    · have hsame : e.xformFlags = 0 ∧ e.diskLen = e.valueLen := by
        constructor
        · by_contra hne
          exact hopt (.inl hne)
        · by_contra hne
          exact hopt (.inr hne)
      simp only [ht, hopt, or_self, if_false, append_nil]
      rw [hsame.1, hsame.2, ← hdisk, ← hx, httl]

theorem WALEntry.Words.textHeader_fields (h : e.Words)
    (hsplit : splitN (ascii '|') 10 (trimRight (joinBars (textFields e))) = textFields e) :
    textHeader (joinBars (textFields e)) = some { e.replayed with value := [] } := by
  have hts := parseInt_formatInt h.timestamp_ge h.timestamp_lt
  have hvl : parseUint 10 32 (formatUint 10 e.valueLen) = some e.valueLen :=
    parseUint_formatUint (by omega) (by omega) h.valueLen_lt
  have hcrc : parseUint 16 32 (formatUint 16 e.checksum.toNat) = some e.checksum.toNat :=
    parseUint_formatUint (by omega) (by omega) e.checksum.toNat_lt
  have hver : parseUint 10 64 (formatUint 10 e.version) = some e.version :=
    parseUint_formatUint (by omega) (by omega) h.version_lt
  unfold textHeader
  rw [hsplit]
  unfold textFields
  simp only [cons_append, nil_append, hts, hvl, hcrc, hver, textBit_eq, UInt32.ofNat_toNat]
  rw [h.textOptional_eq _ rfl rfl rfl]
  rfl

theorem isFieldByte_textBit (b : Bool) : ∀ c ∈ textBit b, isFieldByte c = true := by
  intro c hc
  cases b <;> (rw [mem_singleton.mp hc]; rfl)

theorem eq_key_or_isFieldByte {f : List UInt8} (hf : f ∈ textFields e) :
    f = e.key ∨ ∀ b ∈ f, isFieldByte b = true := by
  have hten : ∀ n, ∀ b ∈ formatUint 10 n, isFieldByte b = true := fun n =>
    isFieldByte_formatUint (by omega) (by omega)
  have hhex : ∀ n, ∀ b ∈ formatUint 16 n, isFieldByte b = true := fun n =>
    isFieldByte_formatUint (by omega) (by omega)
  unfold textFields at hf
  rcases mem_append.mp hf with hf | hf
  · simp only [mem_cons, not_mem_nil, or_false] at hf
    rcases hf with rfl | rfl | rfl | rfl | rfl | rfl | rfl
    · exact .inr (isFieldByte_formatInt _)
    · exact .inr (isFieldByte_textBit _)
    · exact .inl rfl
    · exact .inr (hten _)
    · exact .inr (hhex _)
    · exact .inr (hten _)
    · exact .inr (isFieldByte_formatInt _)
  · right
    rcases mem_cons.mp hf with rfl | hf
    · exact isFieldByte_textBit _
    · rcases mem_append.mp hf with hf | hf
      · split at hf
        · rcases mem_pair.mp hf with rfl | rfl
          · exact hten _
          · exact hhex _
        · cases hf
      · split at hf
        · rw [mem_singleton.mp hf]
          exact isFieldByte_formatInt _
        · cases hf

theorem exists_textFields_concat (e : WALEntry) :
    ∃ fs f, textFields e = fs ++ [f] ∧ f ≠ [] ∧ ∀ b ∈ f, isFieldByte b = true := by
  unfold textFields
  by_cases httl : 0 < e.ttlExpiryUs
  · rw [if_pos httl, ← cons_append, ← append_assoc]
    exact ⟨_, _, rfl, formatInt_ne_nil e.ttlExpiryUs, isFieldByte_formatInt _⟩
  · rw [if_neg httl, append_nil]
    split
    · rw [show [formatUint 10 e.diskLen, formatUint 16 e.xformFlags.toNat] =
        [formatUint 10 e.diskLen] ++ [formatUint 16 e.xformFlags.toNat] from rfl,
        ← cons_append, ← append_assoc]
      exact ⟨_, _, rfl, formatUint_ne_nil 16 e.xformFlags.toNat,
        isFieldByte_formatUint (by omega) (by omega)⟩
    · exact ⟨_, _, rfl, cons_ne_nil _ _, isFieldByte_textBit e.packed⟩

theorem ne_of_isFieldByte (h : isFieldByte b = true) :
    b ≠ ascii '|' ∧ isBlank b = false ∧ b ≠ walBinMagic := by
  simpa [isFieldByte, and_assoc] using h

theorem splitN_trimRight_textFields (hbar : ascii '|' ∉ e.key) :
    splitN (ascii '|') 10 (trimRight (joinBars (textFields e))) = textFields e := by
  have htrim : trimRight (joinBars (textFields e)) = joinBars (textFields e) := by
    obtain ⟨fs, f, hfs, hne, hf⟩ := exists_textFields_concat e
    obtain ⟨line, hline⟩ := exists_joinBars_concat fs f
    rw [hfs, hline, ← dropLast_append_getLast hne, ← append_assoc]
    exact trimRight_concat (ne_of_isFieldByte (hf _ (getLast_mem hne))).2.1
  rw [htrim]
  apply splitN_joinBars
  · exact cons_ne_nil _ _
  · intro f hf hmem
    rcases eq_key_or_isFieldByte hf with rfl | hbytes
    · exact hbar hmem
    · exact (ne_of_isFieldByte (hbytes _ hmem)).1 rfl
  · unfold textFields
    split <;> split <;> simp

theorem takeWhile_textFields (hnl : ascii '\n' ∉ e.key) (rest : List UInt8) :
    (joinBars (textFields e) ++ ascii '\n' :: rest).takeWhile inLine = joinBars (textFields e) := by
  have hall : ∀ b ∈ joinBars (textFields e), inLine b = true := by
    intro b hb
    have hne : b ≠ ascii '\n' := by
      rintro rfl
      rcases mem_joinBars hb with hbar | ⟨f, hf, hmem⟩
      · exact absurd hbar (by decide)
      · rcases eq_key_or_isFieldByte hf with rfl | hbytes
        · exact hnl hmem
        · exact absurd (ne_of_isFieldByte (hbytes _ hmem)).2.1 (by decide)
    exact bne_iff_ne.mpr hne
  rw [takeWhile_append_of_pos hall, takeWhile_cons_of_neg (by decide), append_nil]

theorem exists_textFields_head (e : WALEntry) :
    ∃ b rest, joinBars (textFields e) = b :: rest ∧ isFieldByte b = true := by
  obtain ⟨b, digits, hts⟩ := exists_cons_of_ne_nil (formatInt_ne_nil e.timestamp)
  have hjoin : joinBars (textFields e) =
      b :: (digits ++ ascii '|' :: joinBars (textFields e).tail) := by
    unfold textFields
    rw [hts]
    rfl
  exact ⟨b, _, hjoin, isFieldByte_formatInt e.timestamp b (hts ▸ mem_cons_self)⟩

theorem WALEntry.Words.next_text (h : e.Words) (hbar : ascii '|' ∉ e.key)
    (hnl : ascii '\n' ∉ e.key) (rest : List UInt8) :
    next (joinBars (textFields e) ++ ascii '\n' :: rest) =
      if !e.isTombstone ∧ 0 < e.valueLen ∧ e.vlogOffset = 0 then
        (textValue { e.replayed with value := [] } rest).map fun p =>
          (p.1, (joinBars (textFields e)).length + 1 + p.2)
      else some ({ e.replayed with value := [] }, (joinBars (textFields e)).length + 1) := by
  have htext : nextText (joinBars (textFields e) ++ ascii '\n' :: rest) =
      if !e.isTombstone ∧ 0 < e.valueLen ∧ e.vlogOffset = 0 then
        (textValue { e.replayed with value := [] } rest).map fun p =>
          (p.1, (joinBars (textFields e)).length + 1 + p.2)
      else some ({ e.replayed with value := [] }, (joinBars (textFields e)).length + 1) := by
    have hdrop : (joinBars (textFields e) ++ ascii '\n' :: rest).drop
        ((joinBars (textFields e)).length + 1) = rest := by
      rw [← drop_drop, drop_left]
      rfl
    unfold nextText
    simp only [takeWhile_textFields hnl, hdrop,
      h.textHeader_fields (splitN_trimRight_textFields hbar)]
    rw [if_neg (by rw [length_append, length_cons]; omega)]
    rfl
  obtain ⟨b, tl, hhead, hb⟩ := exists_textFields_head e
  obtain ⟨-, hblank, hmagic⟩ := ne_of_isFieldByte hb
  rw [← htext, hhead, cons_append]
  unfold next
  rw [takeWhile_cons_of_neg (by rw [hblank]; exact Bool.false_ne_true),
    dropWhile_cons_of_neg (by rw [hblank]; exact Bool.false_ne_true)]
  simp only [if_neg hmagic, length_nil, Nat.zero_add]
  cases nextText (b :: (tl ++ ascii '\n' :: rest)) with
  | none | some => rfl

end TextRoundTrip

/-! ## Records as the engine builds them -/

/-- A record as the callers build it: it carries its value unless the value is in the
value log, and a tombstone has none. -/
structure WALEntry.Built (e : WALEntry) : Prop extends e.Words where
  valueLen_eq : e.vlogOffset = 0 → e.valueLen = e.value.length
  value_nil : e.vlogOffset ≠ 0 → e.value = []
  tombstone_nil : e.isTombstone = true → e.value = []
  checksum_eq : e.inline = true → e.checksum = computeCRC32C e.value

/-- Whether the decoder accepts the lengths of a record. -/
def WALEntry.InBounds (e : WALEntry) (legacyText : Bool) : Prop :=
  (legacyText = false → e.key.length ≤ walMaxRecordField) ∧
    (e.inline = true → e.value.length ≤ walMaxRecordField)

def WALEntry.TextKey (e : WALEntry) : Prop := ascii '|' ∉ e.key ∧ ascii '\n' ∉ e.key

section Built

variable {e : WALEntry}

namespace WALEntry

theorem Built.fits (h : e.Built) (hb : e.InBounds false) : e.Fits :=
  { h with
    key_le := hb.1 rfl
    value_le := hb.2
    valueLen_eq hi := h.valueLen_eq (by
      unfold inline at hi
      simp only [Bool.and_eq_true, decide_eq_true_eq] at hi
      exact hi.2)
    diskLen_lt := h.toWords.diskLen_lt }

/-- The decoder looks for a value just when there is one. -/
theorem Built.inline_iff (h : e.Built) :
    (!e.isTombstone ∧ 0 < e.valueLen ∧ e.vlogOffset = 0) ↔ e.inline = true := by
  unfold inline
  simp only [Bool.and_eq_true, decide_eq_true_eq, and_assoc]
  constructor
  · rintro ⟨htomb, hlen, hoff⟩
    exact ⟨htomb, h.valueLen_eq hoff ▸ hlen, hoff⟩
  · rintro ⟨htomb, hlen, hoff⟩
    exact ⟨htomb, (h.valueLen_eq hoff).symm ▸ hlen, hoff⟩

theorem Built.valueLen_of_inline (h : e.Built) (hi : e.inline = true) :
    e.valueLen = e.value.length := by
  unfold inline at hi
  simp only [Bool.and_eq_true, decide_eq_true_eq] at hi
  exact h.valueLen_eq hi.2

theorem Built.readsBack_text (h : e.Built) (hkey : e.TextKey) (hb : e.InBounds true) :
    ReadsBack (appendWALRecordText [] e) e.replayed := by
  unfold ReadsBack
  rw [appendWALRecordText_eq, h.toWords.next_text hkey.1 hkey.2]
  simp only [h.inline_iff]
  by_cases hi : e.inline = true
  · have hlen := h.valueLen_of_inline hi
    have hvalue : textValue { e.replayed with value := [] } (e.value ++ [ascii '\n']) =
        some (e.replayed, e.value.length + 1) := by
      have hmax := hb.2 hi
      unfold textValue
      simp only [replayed, hlen, hi, if_true]
      rw [if_neg (Nat.not_lt.mpr hmax), if_neg (by rw [length_append]; simp),
        if_neg (by simp), take_left, if_neg (by simp [h.checksum_eq hi])]
    simp only [hi, if_true, hvalue, Option.map_some, length_append, length_cons, length_nil]
    congr 2
    omega
  · simp [replayed, hi]

theorem Built.next_text_none (h : e.Built) (hkey : e.TextKey) (hi : e.inline = true)
    (hlong : walMaxRecordField < e.value.length) (rest : List UInt8) :
    next (appendWALRecordText [] e ++ rest) = none := by
  rw [appendWALRecordText_eq, append_assoc, cons_append, h.toWords.next_text hkey.1 hkey.2]
  simp only [h.inline_iff, hi, if_true]
  unfold textValue
  rw [if_pos (by rw [← h.valueLen_of_inline hi] at hlong; exact hlong)]
  rfl

end WALEntry

theorem next_binary (e : WALEntry) (rest : List UInt8) :
    next (appendWALRecordBinary [] e ++ rest) =
      nextBinary (appendWALRecordBinary [] e ++ rest) := by
  have hhead : ∃ tl, appendWALRecordBinary [] e ++ rest = walBinMagic :: tl := by
    unfold appendWALRecordBinary binBody binHeader
    exact ⟨_, rfl⟩
  obtain ⟨tl, htl⟩ := hhead
  have hblank : isBlank walBinMagic = false := by decide
  rw [htl]
  unfold next
  rw [takeWhile_cons_of_neg (by rw [hblank]; exact Bool.false_ne_true),
    dropWhile_cons_of_neg (by rw [hblank]; exact Bool.false_ne_true)]
  simp only [length_nil, Nat.zero_add]
  cases nextBinary (walBinMagic :: tl) with
  | none | some => rfl

theorem WALEntry.Built.next_binary_none (h : e.Built) (hi : e.inline = true)
    (hlong : walMaxRecordField < e.value.length) (rest : List UInt8) :
    next (appendWALRecordBinary [] e ++ rest) = none := by
  rw [next_binary]
  have hassoc : ∃ tl, appendWALRecordBinary [] e ++ rest = binHeader e ++ tl := by
    unfold appendWALRecordBinary binBody
    simp only [nil_append, append_assoc]
    exact ⟨_, rfl⟩
  obtain ⟨tl, htl⟩ := hassoc
  have hbound : walMaxRecordField < wordAt 4 4 (binHeader e ++ tl) ∨
      (binInline (binHeader e ++ tl) = true ∧
        walMaxRecordField < wordAt 8 4 (binHeader e ++ tl)) := by
    right
    rw [binInline_binHeader, (words_binHeader e tl).2.2.2.1, Nat.mod_eq_of_lt h.valueLen_lt,
      h.valueLen_of_inline hi]
    exact ⟨hi, hlong⟩
  rw [htl]
  unfold nextBinary
  rw [binHeaderLen_binHeader]
  simp only [hbound, if_true]

theorem key_le_of_binFields {hdrLen : Nat} {record : List UInt8} {f : WalReplayEntry}
    (h : binFields hdrLen record = some f) : f.key.length ≤ wordAt 4 4 record := by
  obtain ⟨-, hf⟩ := Option.ite_none_left_eq_some.mp h
  rw [← Option.some.inj hf, length_take]
  exact Nat.min_le_left _ _

/-- No key that was read is beyond the bound. -/
theorem key_le_of_nextBinary {r : List UInt8} {e' : WalReplayEntry} {n : Nat}
    (h : nextBinary r = some (e', n)) : e'.key.length ≤ walMaxRecordField := by
  unfold nextBinary at h
  cases hh : binHeaderLen r with
  | none => simp [hh] at h
  | some hdrLen =>
    simp only [hh] at h
    split at h
    · cases h
    next hbound =>
      split at h
      · cases h
      next hsize =>
        split at h
        · cases h
        · simp only [Option.map_eq_some_iff] at h
          obtain ⟨f, hf, rfl, -⟩ := h
          have hlen := (binHeaderLen_le hh).1
          have hword : wordAt 4 4 (r.take (hdrLen + binBodyLen r + walBinTrailer)) =
              wordAt 4 4 r := by
            have hfront : 4 + 4 ≤ (r.take (hdrLen + binBodyLen r + walBinTrailer)).length := by
              rw [length_take]
              simp only [walBinHeaderSize] at hlen
              omega
            have happ := wordAt_append hfront (r.drop (hdrLen + binBodyLen r + walBinTrailer))
            rw [take_append_drop] at happ
            exact happ.symm
          have hkey := key_le_of_binFields hf
          omega

end Built

/-! ## Files of records -/

/-- How a log writes its records. -/
structure WalEncoding where
  legacyText : Bool
  dropTTL : Bool
deriving DecidableEq, Repr

def WalEncoding.bytes (enc : WalEncoding) (e : WALEntry) : List UInt8 :=
  appendWALRecordEnc [] e enc.legacyText enc.dropTTL

/-- What an encoding keeps of an entry: the text format without the expiry field loses
the expiry. -/
def WalEncoding.entry (enc : WalEncoding) (e : WALEntry) : WALEntry :=
  if enc.legacyText ∧ enc.dropTTL then { e with ttlExpiryUs := 0 } else e

/-- What replay is meant to return for an entry. -/
def WalEncoding.record (enc : WalEncoding) (e : WALEntry) : WalReplayEntry :=
  (enc.entry e).replayed

def walBytes (rs : List (WalEncoding × WALEntry)) : List UInt8 :=
  rs.flatMap fun r => r.1.bytes r.2

/-- The records that end within the first `k` bytes. -/
def wholeRecords (rs : List (WalEncoding × WALEntry)) (k : Nat) : List (WalEncoding × WALEntry) :=
  rs.take (framesWithin (fun r => r.1.bytes r.2) rs k)

/-- The offset of the reader when it stops: it counts blank bytes one by one. -/
def walReaderOff (file : List UInt8) : Nat :=
  framesEnd next file +
    ((file.drop (framesEnd next file)).takeWhile isBlank).length

section Files

variable {r : WalEncoding × WALEntry} {rs : List (WalEncoding × WALEntry)}

/-- A record that a caller built and its format can hold. -/
def Recordable (r : WalEncoding × WALEntry) : Prop :=
  r.2.Built ∧ (r.1.legacyText = true → r.2.TextKey)

theorem Recordable.entry (h : Recordable r) :
    (r.1.entry r.2).Built ∧ (r.1.legacyText = true → (r.1.entry r.2).TextKey) := by
  unfold WalEncoding.entry
  split
  · refine ⟨⟨⟨h.1.valueLen_lt, h.1.diskValueLen_lt, h.1.version_lt, h.1.timestamp_ge,
      h.1.timestamp_lt, h.1.vlogOffset_ge, h.1.vlogOffset_lt,
      (by decide : (0 : Int) < 2 ^ 63)⟩, h.1.valueLen_eq, h.1.value_nil, h.1.tombstone_nil, h.1.checksum_eq⟩, h.2⟩
  · exact h

theorem WalEncoding.bytes_eq (enc : WalEncoding) (e : WALEntry) :
    enc.bytes e = if enc.legacyText then appendWALRecordText [] (enc.entry e)
      else appendWALRecordBinary [] (enc.entry e) := by
  unfold WalEncoding.bytes appendWALRecordEnc WalEncoding.entry
  cases enc.legacyText with
  | false => simp
  | true =>
    cases enc.dropTTL with
    | false => simp
    | true =>
      by_cases httl : e.ttlExpiryUs = 0
      · have hsame : { e with ttlExpiryUs := 0 } = e := by
          rw [← httl]
        simp [hsame]
      · simp [httl]

theorem inBounds_entry : (r.1.entry r.2).InBounds r.1.legacyText ↔ r.2.InBounds r.1.legacyText := by
  unfold WalEncoding.entry
  split
  · exact Iff.rfl
  · exact Iff.rfl

theorem Recordable.readsBack (h : Recordable r) (hb : r.2.InBounds r.1.legacyText) :
    ReadsBack (r.1.bytes r.2) (r.1.record r.2) := by
  obtain ⟨hbuilt, hkey⟩ := h.entry
  rw [← inBounds_entry] at hb
  rw [WalEncoding.bytes_eq]
  cases htext : r.1.legacyText with
  | true =>
    rw [htext] at hb
    exact hbuilt.readsBack_text (hkey htext) hb
  | false =>
    rw [htext] at hb
    exact (hbuilt.fits hb).readsBack_binary

theorem Recordable.inBounds_of_next (h : Recordable r) {rest : List UInt8} {n : Nat}
    (hread : next (r.1.bytes r.2 ++ rest) = some (r.1.record r.2, n)) :
    r.2.InBounds r.1.legacyText := by
  obtain ⟨hbuilt, hkey⟩ := h.entry
  rw [← inBounds_entry]
  rw [WalEncoding.bytes_eq] at hread
  cases htext : r.1.legacyText with
  | true =>
    rw [htext, if_pos rfl] at hread
    refine ⟨(fun hfalse => by cases hfalse), fun hi => ?_⟩
    by_contra hlong
    rw [hbuilt.next_text_none (hkey htext) hi (Nat.not_le.mp hlong)] at hread
    cases hread
  | false =>
    rw [htext, if_neg Bool.false_ne_true] at hread
    refine ⟨fun _ => ?_, fun hi => ?_⟩
    · rw [next_binary] at hread
      exact key_le_of_nextBinary hread
    · by_contra hlong
      rw [hbuilt.next_binary_none hi (Nat.not_le.mp hlong)] at hread
      cases hread

/-- No record begins with a blank byte. -/
theorem head_bytes (r : WalEncoding × WALEntry) :
    ∃ b rest, r.1.bytes r.2 = b :: rest ∧ isBlank b = false := by
  rw [WalEncoding.bytes_eq]
  split
  · obtain ⟨b, rest, hjoin, hb⟩ := exists_textFields_head (r.1.entry r.2)
    rw [appendWALRecordText_eq, hjoin]
    exact ⟨b, _, rfl, (ne_of_isFieldByte hb).2.1⟩
  · exact ⟨walBinMagic, _, rfl, by decide⟩

theorem walBytes_eq (rs : List (WalEncoding × WALEntry)) :
    walBytes rs =
      Framing.flatten Prod.fst (rs.map fun r => (r.1.bytes r.2, r.1.record r.2)) := by
  unfold walBytes Framing.flatten
  rw [flatMap_map]

theorem framesWithin_map (rs : List (WalEncoding × WALEntry)) (k : Nat) :
    framesWithin Prod.fst (rs.map fun r => (r.1.bytes r.2, r.1.record r.2)) k =
      framesWithin (fun r => r.1.bytes r.2) rs k := by
  induction rs generalizing k with
  | nil => rfl
  | cons r rs ih =>
    rw [map_cons, framesWithin, framesWithin, ih]

theorem wholeRecords_length (rs : List (WalEncoding × WALEntry)) :
    wholeRecords rs (walBytes rs).length = rs := by
  have hcount : framesWithin (fun r : WalEncoding × WALEntry => r.1.bytes r.2) rs
      (walBytes rs).length = rs.length := framesWithin_of_le rs _ (Nat.le_refl _)
  unfold wholeRecords
  rw [hcount, take_length]

theorem replayWAL_take (hrs : ∀ r ∈ rs, Recordable r ∧ r.2.InBounds r.1.legacyText) (k : Nat) :
    replayWAL ((walBytes rs).take k) = (wholeRecords rs k).map (fun r => r.1.record r.2) ∧
      framesEnd next ((walBytes rs).take k) = (walBytes (wholeRecords rs k)).length := by
  have hframes := local_next.frames_take (rs.map fun r => (r.1.bytes r.2, r.1.record r.2)) (by
      intro f hf
      obtain ⟨r, hr, rfl⟩ := mem_map.mp hf
      exact (hrs r hr).1.readsBack (hrs r hr).2) k
  rw [← walBytes_eq, framesWithin_map, ← map_take, map_map, ← walBytes_eq] at hframes
  exact hframes

/-- A file of records that the decoder accepts replays to all of them. -/
theorem replayWAL_walBytes (hrs : ∀ r ∈ rs, Recordable r ∧ r.2.InBounds r.1.legacyText) :
    replayWAL (walBytes rs) = rs.map fun r => r.1.record r.2 := by
  have hall := (replayWAL_take hrs (walBytes rs).length).1
  rwa [take_length, wholeRecords_length] at hall

theorem walReaderOff_take (hrs : ∀ r ∈ rs, Recordable r ∧ r.2.InBounds r.1.legacyText) (k : Nat) :
    walReaderOff ((walBytes rs).take k) = (walBytes (wholeRecords rs k)).length := by
  have hend := (replayWAL_take hrs k).2
  have hle : (walBytes (wholeRecords rs k)).length ≤ k :=
    length_flatten_framesWithin_le rs k
  obtain ⟨rest, hsplit⟩ : ∃ rest, rs = wholeRecords rs k ++ rest :=
    ⟨_, (take_append_drop _ rs).symm⟩
  have happ : walBytes rs = walBytes (wholeRecords rs k) ++ walBytes rest := by
    unfold walBytes
    rw [← flatMap_append, ← hsplit]
  have hblank : (((walBytes rs).take k).drop
      (walBytes (wholeRecords rs k)).length).takeWhile isBlank = [] := by
    rw [happ, take_append, take_of_length_le hle, drop_left]
    cases rest with
    | nil => simp [walBytes]
    | cons r rest =>
      obtain ⟨b, tl, hb, hnot⟩ := head_bytes r
      have hhead : walBytes (r :: rest) = b :: (tl ++ walBytes rest) := by
        unfold walBytes
        rw [flatMap_cons, hb, cons_append]
      rw [hhead]
      cases k - (walBytes (wholeRecords rs k)).length with
      | zero => rfl
      | succ =>
        rw [take_succ_cons, takeWhile_cons_of_neg (by rw [hnot]; exact Bool.false_ne_true)]
  unfold walReaderOff
  rw [hend, hblank, length_nil, Nat.add_zero]

theorem inBounds_of_replayWAL (hrs : ∀ r ∈ rs, Recordable r)
    (h : replayWAL (walBytes rs) = rs.map fun r => r.1.record r.2) :
    ∀ r ∈ rs, r.2.InBounds r.1.legacyText := by
  induction rs with
  | nil => exact fun _ hr => by cases hr
  | cons r rs ih =>
    have hr := hrs r mem_cons_self
    have hcons : walBytes (r :: rs) = r.1.bytes r.2 ++ walBytes rs := flatMap_cons
    rw [hcons, map_cons] at h
    have hb : r.2.InBounds r.1.legacyText := by
      cases hd : next (r.1.bytes r.2 ++ walBytes rs) with
      | none =>
        rw [replayWAL, Framing.Local.frames_of_none hd] at h
        cases h
      | some p =>
        rw [replayWAL, local_next.frames_of_some hd] at h
        have hread : next (r.1.bytes r.2 ++ walBytes rs) = some (r.1.record r.2, p.2) := by
          rw [hd, ← (List.cons.inj h).1]
        exact hr.inBounds_of_next hread
    have hread := local_next.append (hr.readsBack hb) (walBytes rs)
    rw [replayWAL, local_next.frames_of_some hread, drop_left] at h
    have htail := ih (fun r' hr' => hrs r' (mem_cons_of_mem _ hr')) (List.cons.inj h).2
    exact forall_mem_cons.mpr ⟨hb, htail⟩

end Files

/-- A file of records of either format, cut at any byte, reads as its whole records and
leaves the reader at the end of the last of them, just when no key of a binary record and
no value that a record carries is longer than the decoder's bound. -/
theorem decode_take_iff (rs : List (WalEncoding × WALEntry)) (hrs : ∀ r ∈ rs, Recordable r) :
    (∀ k, replayWAL ((walBytes rs).take k) = (wholeRecords rs k).map (fun r => r.1.record r.2) ∧
      walReaderOff ((walBytes rs).take k) = (walBytes (wholeRecords rs k)).length) ↔
    ∀ r ∈ rs, r.2.InBounds r.1.legacyText := by
  constructor
  · intro h
    apply inBounds_of_replayWAL hrs
    have hall := (h (walBytes rs).length).1
    rwa [take_length, wholeRecords_length] at hall
  · intro hb k
    have hboth : ∀ r ∈ rs, Recordable r ∧ r.2.InBounds r.1.legacyText := fun r hr =>
      ⟨hrs r hr, hb r hr⟩
    exact ⟨(replayWAL_take hboth k).1, walReaderOff_take hboth k⟩

def inlineEntry (key : Key) (value : List UInt8) : WALEntry where
  timestamp := 0
  key := key
  valueLen := value.length
  value := value
  checksum := computeCRC32C value
  version := 1
  isTombstone := false
  vlogOffset := 0
  packed := false
  diskValueLen := 0
  xformFlags := 0
  ttlExpiryUs := 0

theorem built_inlineEntry (key : Key) {value : List UInt8} (h : value.length < 2 ^ 32) :
    (inlineEntry key value).Built where
  valueLen_lt := h
  diskValueLen_lt := (by decide : 0 < 2 ^ 32)
  version_lt := (by decide : 1 < 2 ^ 64)
  timestamp_ge := (by decide : -2 ^ 63 ≤ (0 : Int))
  timestamp_lt := (by decide : (0 : Int) < 2 ^ 63)
  vlogOffset_ge := (by decide : -2 ^ 63 ≤ (0 : Int))
  vlogOffset_lt := (by decide : (0 : Int) < 2 ^ 63)
  ttlExpiryUs_lt := (by decide : (0 : Int) < 2 ^ 63)
  valueLen_eq _ := rfl
  value_nil hne := absurd rfl hne
  tombstone_nil ht := by cases ht
  checksum_eq _ := rfl

/-- A binary record, a text record and a cut within the second. -/
theorem decode_take_two :
    (∀ r ∈ [(⟨false, false⟩, inlineEntry [107] [1]), (⟨true, false⟩, inlineEntry [107] [10])],
      Recordable r) ∧
    replayWAL ((walBytes [(⟨false, false⟩, inlineEntry [107] [1]),
      (⟨true, false⟩, inlineEntry [107] [10])]).take 60) = [(inlineEntry [107] [1]).replayed] ∧
    walReaderOff ((walBytes [(⟨false, false⟩, inlineEntry [107] [1]),
      (⟨true, false⟩, inlineEntry [107] [10])]).take 60) = 54 := by
  have hrs : ∀ r ∈ [((⟨false, false⟩ : WalEncoding), inlineEntry [107] [1]),
      (⟨true, false⟩, inlineEntry [107] [10])], Recordable r := by
    intro r hr
    rcases mem_pair.mp hr with rfl | rfl
    · exact ⟨built_inlineEntry _ (by decide), fun ht => by cases ht⟩
    · exact ⟨built_inlineEntry _ (by decide), fun _ => ⟨by decide, by decide⟩⟩
  have hb : ∀ r ∈ [((⟨false, false⟩ : WalEncoding), inlineEntry [107] [1]),
      (⟨true, false⟩, inlineEntry [107] [10])], r.2.InBounds r.1.legacyText := by
    intro r hr
    rcases mem_pair.mp hr with rfl | rfl
    · exact ⟨fun _ => by decide, fun _ => by decide⟩
    · exact ⟨fun _ => by decide, fun _ => by decide⟩
  obtain ⟨hread, hoff⟩ := (decode_take_iff _ hrs).mpr hb 60
  refine ⟨hrs, hread.trans ?_, hoff.trans ?_⟩
  · decide +kernel
  · decide +kernel

/-- A value of one byte more than the bound: the record is written and cannot be read. -/
theorem replayWAL_long_value :
    Recordable (⟨false, false⟩, inlineEntry [107] (List.replicate (walMaxRecordField + 1) 0)) ∧
    replayWAL (walBytes
      [(⟨false, false⟩, inlineEntry [107] (List.replicate (walMaxRecordField + 1) 0)),
        (⟨false, false⟩, inlineEntry [108] [1])]) = [] := by
  have hlen : (List.replicate (walMaxRecordField + 1) (0 : UInt8)).length =
      walMaxRecordField + 1 := length_replicate
  generalize List.replicate (walMaxRecordField + 1) (0 : UInt8) = value at hlen
  have hbuilt : (inlineEntry [107] value).Built := by
    apply built_inlineEntry
    rw [hlen]
    decide
  refine ⟨⟨hbuilt, fun ht => by cases ht⟩, Framing.Local.frames_of_none ?_⟩
  apply hbuilt.next_binary_none
  · have hpos : 0 < value.length := by omega
    show (true && decide (0 < value.length) && true) = true
    rw [decide_eq_true hpos]
    rfl
  · show walMaxRecordField < value.length
    omega

end VeltrixDB.Storage
