import Mathlib.Data.List.Induction
import VeltrixDB.Storage.Replay

/-!
# Applied-index markers

In raft mode the log carries markers that say which raft entries the engine
holds, following `storage/raft_applied.go`.  A marker is an ordinary record
of a reserved key whose inline value names the index, the version of the
record itself and the version ranges that are dead.  Opening the engine strips
the markers and cuts the replay at the newest one.

Main results:

- Theorem `decodeAppliedMarker_encode`: a marker is read back.
- Theorem `newest_newestMarker`: the cut is made at a marker that no other
  one exceeds.
- Theorem `isDead_deadAfterCut`: the dead ranges that a cut hands on leave
  out just the records that the marker does not cover.
-/

namespace VeltrixDB.Storage

open List

open Bytes

/-! ## Markers -/

/-- The versions above `lo` up to `hi`. -/
structure VersionRange where
  lo : Nat
  hi : Nat
deriving DecidableEq, Repr

def VersionRange.contains (r : VersionRange) (v : Nat) : Bool :=
  decide (r.lo < v) && decide (v ≤ r.hi)

structure AppliedMarker where
  index : Nat
  term : Nat
  flags : UInt8
  ver : Nat
  dead : List VersionRange
  clock : Int
  floor : Int
deriving DecidableEq, Repr

/-- The reserved key of markers: a null byte and `veltrix/raft-applied`. -/
def appliedMarkerKey : Key :=
  [0, 118, 101, 108, 116, 114, 105, 120, 47, 114, 97, 102, 116, 45, 97, 112, 112, 108, 105, 101,
    100]

/-- `VXAI`. -/
def appliedMarkerMagic : List UInt8 := [86, 88, 65, 73]

def appliedMarkerFormat : UInt8 := 2

variable (m : AppliedMarker)

def AppliedMarker.header : List UInt8 :=
  appliedMarkerMagic ++
    ([appliedMarkerFormat, m.flags] ++ (putUint 8 m.index ++ (putUint 8 m.term ++ putUint 8 m.ver)))

def VersionRange.encode (r : VersionRange) : List UInt8 := putUint 8 r.lo ++ putUint 8 r.hi

def AppliedMarker.clockTrailer : List UInt8 :=
  if m.clock ≠ 0 ∨ m.floor ≠ 0 then
    putUvarint (ofInt64 m.clock) ++ putUvarint (ofInt64 m.floor)
  else []

def AppliedMarker.body : List UInt8 :=
  m.header ++ (putUvarint m.dead.length ++ (m.dead.flatMap VersionRange.encode ++ m.clockTrailer))

/-- `appliedMarker.encode`. -/
def AppliedMarker.encode : List UInt8 :=
  m.body ++ putUint 4 (computeCRC32C m.body).toNat

def decodeClockTrailer (rest : List UInt8) : Option (Int × Int) :=
  if rest = [] then some (0, 0)
  else
    match getUvarint rest with
    | none => none
    | some (clock, k₁) =>
      match getUvarint (rest.drop k₁) with
      | none => none
      | some (floor, k₂) =>
        if k₁ + k₂ ≠ rest.length then none else some (toInt64 clock, toInt64 floor)

def decodeAppliedMarker (b : List UInt8) : Option AppliedMarker :=
  if b.length < 35 ∨ b.take 4 ≠ appliedMarkerMagic ∨ b[4]? ≠ some appliedMarkerFormat then none
  else
    let body := b.take (b.length - 4)
    if (computeCRC32C body).toNat ≠ wordAt (b.length - 4) 4 b then none
    else
      let rest := body.drop 30
      match getUvarint rest with
      | none => none
      | some (n, k) =>
        if rest.length < n ∨ rest.length - k < n * 16 then none
        else
          let ranges := rest.drop k
          match decodeClockTrailer (ranges.drop (n * 16)) with
          | none => none
          | some (clock, floor) =>
            some
              { index := wordAt 6 8 b
                term := wordAt 14 8 b
                flags := (b[5]?).getD 0
                ver := wordAt 22 8 b
                dead := (List.range n).map fun i =>
                  ⟨wordAt (16 * i) 8 ranges, wordAt (16 * i + 8) 8 ranges⟩
                clock := clock
                floor := floor }

/-- `isAppliedMarker`: a record of the reserved key whose inline value
decodes and names the record's own version. -/
def isAppliedMarker (e : WalReplayEntry) : Option AppliedMarker :=
  if e.key ≠ appliedMarkerKey ∨ e.isTombstone ∨ e.value = [] then none
  else
    match decodeAppliedMarker e.value with
    | none => none
    | some m => if m.ver = e.version then some m else none

def AppliedMarker.record (nowNs : Int) : WALEntry where
  timestamp := nowNs
  key := appliedMarkerKey
  valueLen := m.encode.length
  value := m.encode
  checksum := computeCRC32C m.encode
  version := m.ver
  isTombstone := false
  vlogOffset := 0
  packed := false
  diskValueLen := 0
  xformFlags := 0
  ttlExpiryUs := 0

/-! ## The cut -/

/-- The newest marker so far; of two with one version the later counts. -/
def newerMarker (best : Option AppliedMarker) (e : WalReplayEntry) : Option AppliedMarker :=
  match isAppliedMarker e with
  | none => best
  | some m =>
    match best with
    | none => some m
    | some b => if b.ver ≤ m.ver then some m else some b

def newestMarker (es : List WalReplayEntry) : Option AppliedMarker :=
  es.foldl newerMarker none

def WalReplayEntry.isData (e : WalReplayEntry) : Bool := decide (e.key ≠ appliedMarkerKey)

def isDead (dead : List VersionRange) (v : Nat) : Bool := dead.any (·.contains v)

def AppliedMarker.covers (v : Nat) : Bool :=
  decide (v ≤ m.ver) && !isDead m.dead v

/-- The ranges that caught a record; a record counts for the first range that
contains it. -/
def usedRanges (es : List WalReplayEntry) : List VersionRange :=
  (m.dead.zipIdx.filter fun p => es.any fun e =>
    decide (e.version ≤ m.ver) && m.dead.findIdx? (·.contains e.version) == some p.2).map Prod.fst

/-- The dead ranges after the cut: those still in use, and what the cut
dropped. -/
def deadAfterCut (es : List WalReplayEntry) (maxVersion : Nat) : List VersionRange :=
  usedRanges m es ++
    if es.any (fun e => decide (m.ver < e.version)) ∧ m.ver < maxVersion then
      [⟨m.ver, maxVersion⟩]
    else []

/-- What opening the engine keeps of the logs, and the marker it resumes
from. -/
structure AppliedCut where
  entries : Nat → List WalReplayEntry
  marker : Option AppliedMarker

/-- `cutWALAtAppliedMarker` in raft mode, over the parsed logs of all
disks. -/
def cutWALAtAppliedMarker (numDisks : Nat) (all : Nat → List WalReplayEntry) (maxVersion : Nat) :
    AppliedCut :=
  let data := fun d => (all d).filter WalReplayEntry.isData
  match newestMarker ((List.range numDisks).flatMap all) with
  | none => { entries := data, marker := none }
  | some best =>
    { entries := fun d => (data d).filter fun e => best.covers e.version
      marker := some
        { best with
          dead := deadAfterCut best ((List.range numDisks).flatMap data) maxVersion } }

/-! ## Markers are read back -/

/-- The numbers of a marker fit their fields. -/
structure AppliedMarker.Fits (m : AppliedMarker) : Prop where
  index_lt : m.index < 2 ^ 64
  term_lt : m.term < 2 ^ 64
  ver_lt : m.ver < 2 ^ 64
  dead_lt : ∀ r ∈ m.dead, r.lo < 2 ^ 64 ∧ r.hi < 2 ^ 64
  dead_length : m.dead.length < 2 ^ 64
  clock_range : -2 ^ 63 ≤ m.clock ∧ m.clock < 2 ^ 63
  floor_range : -2 ^ 63 ≤ m.floor ∧ m.floor < 2 ^ 63

open VersionRange

section RoundTrip

variable {m : AppliedMarker}

theorem AppliedMarker.length_header (m : AppliedMarker) : m.header.length = 30 := by
  simp [AppliedMarker.header, appliedMarkerMagic]

theorem VersionRange.length_encode (r : VersionRange) : r.encode.length = 16 := by
  simp [encode]

theorem length_flatMap_encode (rs : List VersionRange) :
    (rs.flatMap encode).length = rs.length * 16 := by
  induction rs with
  | nil => rfl
  | cons r =>
    rw [flatMap_cons, length_append, r.length_encode, length_cons]
    omega

/-- The ranges are read back one by one. -/
theorem wordAt_flatMap_encode {rs : List VersionRange} (h : ∀ r ∈ rs, r.lo < 2 ^ 64 ∧ r.hi < 2 ^ 64)
    (rest : List UInt8) :
    ((List.range rs.length).map fun i =>
      (⟨wordAt (16 * i) 8 (rs.flatMap encode ++ rest),
        wordAt (16 * i + 8) 8 (rs.flatMap encode ++ rest)⟩ : VersionRange)) = rs := by
  induction rs with
  | nil => rfl
  | cons r rs ih =>
    have hr := h r (List.mem_cons_self ..)
    have hsplit : (r :: rs).flatMap encode ++ rest =
        putUint 8 r.lo ++ (putUint 8 r.hi ++ (rs.flatMap encode ++ rest)) := by
      simp [encode]
    rw [List.length_cons, List.range_succ_eq_map, List.map_cons, List.map_map, hsplit]
    refine congrArg₂ List.cons ?_ ?_
    · have hlo : r.lo % 256 ^ 8 = r.lo := Nat.mod_eq_of_lt hr.1
      have hhi : r.hi % 256 ^ 8 = r.hi := Nat.mod_eq_of_lt hr.2
      simp only [Nat.mul_zero, Nat.zero_add, wordAt_zero_putUint, hlo,
        wordAt_putUint_append (Nat.le_refl 8), Nat.sub_self, hhi]
    · refine Eq.trans (List.map_congr_left ?_) (ih fun r' hr' => h r' (List.mem_cons_of_mem _ hr'))
      intro i _
      simp only [Function.comp_apply, Nat.succ_eq_add_one]
      rw [wordAt_putUint_append (by omega), wordAt_putUint_append (by omega),
        wordAt_putUint_append (by omega), wordAt_putUint_append (by omega)]
      have h₁ : 16 * (i + 1) - 8 - 8 = 16 * i := by omega
      have h₂ : 16 * (i + 1) + 8 - 8 - 8 = 16 * i + 8 := by omega
      rw [h₁, h₂]

theorem decodeClockTrailer_clockTrailer (h : m.Fits) :
    decodeClockTrailer m.clockTrailer = some (m.clock, m.floor) := by
  rw [decodeClockTrailer, AppliedMarker.clockTrailer]
  split
  next hrun =>
    have hne : putUvarint (ofInt64 m.clock) ++ putUvarint (ofInt64 m.floor) ≠ [] := by
      simp [putUvarint_ne_nil]
    have hclock : ofInt64 m.clock < 2 ^ 64 := ofInt64_lt _
    have hfloor : ofInt64 m.floor < 2 ^ 64 := ofInt64_lt _
    have hlast := getUvarint_putUvarint hfloor []
    rw [append_nil] at hlast
    rw [if_neg hne, getUvarint_putUvarint hclock]
    simp only [drop_left, hlast, length_append, ne_eq, not_true, if_false]
    rw [toInt64_ofInt64 h.clock_range.1 h.clock_range.2,
      toInt64_ofInt64 h.floor_range.1 h.floor_range.2]
  next hrun =>
    rw [not_or, not_not, not_not] at hrun
    rw [if_pos rfl, hrun.1, hrun.2]

theorem AppliedMarker.header_words (h : m.Fits) (rest : List UInt8) :
    (m.header ++ rest).take 4 = appliedMarkerMagic ∧
      (m.header ++ rest)[4]? = some appliedMarkerFormat ∧
      (m.header ++ rest)[5]? = some m.flags ∧ wordAt 6 8 (m.header ++ rest) = m.index ∧
      wordAt 14 8 (m.header ++ rest) = m.term ∧ wordAt 22 8 (m.header ++ rest) = m.ver := by
  have hindex : m.index % 256 ^ 8 = m.index := Nat.mod_eq_of_lt h.index_lt
  have hterm : m.term % 256 ^ 8 = m.term := Nat.mod_eq_of_lt h.term_lt
  have hver : m.ver % 256 ^ 8 = m.ver := Nat.mod_eq_of_lt h.ver_lt
  have hsplit : m.header ++ rest = (appliedMarkerMagic ++ [appliedMarkerFormat, m.flags]) ++
      (putUint 8 m.index ++ (putUint 8 m.term ++ (putUint 8 m.ver ++ rest))) := by
    simp [AppliedMarker.header]
  have hword : ∀ i, 6 ≤ i → ∀ bs : List UInt8,
      wordAt i 8 ((appliedMarkerMagic ++ [appliedMarkerFormat, m.flags]) ++ bs) =
        wordAt (i - 6) 8 bs := by
    intro i hi bs
    rw [wordAt, wordAt, drop_append, drop_eq_nil_of_le hi, nil_append]
    rfl
  rw [hsplit]
  refine ⟨rfl, rfl, rfl, ?_, ?_, ?_⟩
  · rw [hword 6 (by omega), wordAt_zero_putUint, hindex]
  · rw [hword 14 (by omega), wordAt_putUint_append (by omega), wordAt_zero_putUint, hterm]
  · rw [hword 22 (by omega), wordAt_putUint_append (by omega), wordAt_putUint_append (by omega),
      wordAt_zero_putUint, hver]

theorem decodeAppliedMarker_encode (h : m.Fits) : decodeAppliedMarker m.encode = some m := by
  have hcrc : (computeCRC32C m.body).toNat % 256 ^ 4 = (computeCRC32C m.body).toNat :=
    Nat.mod_eq_of_lt (computeCRC32C m.body).toNat_lt
  have hlen : m.encode.length = m.body.length + 4 := by simp [AppliedMarker.encode]
  have htake : m.encode.take (m.encode.length - 4) = m.body := by
    rw [hlen, Nat.add_sub_cancel, AppliedMarker.encode, take_left]
  have hsum : wordAt (m.encode.length - 4) 4 m.encode = (computeCRC32C m.body).toNat := by
    rw [hlen, Nat.add_sub_cancel, AppliedMarker.encode, wordAt, drop_left,
      take_of_length_le (by simp), getUint_putUint, hcrc]
  have hrest : m.body.drop 30 =
      putUvarint m.dead.length ++ (m.dead.flatMap encode ++ m.clockTrailer) := by
    rw [AppliedMarker.body, ← m.length_header, drop_left]
  have hbody : m.body.length = 30 + ((putUvarint m.dead.length).length +
      (m.dead.length * 16 + m.clockTrailer.length)) := by
    rw [AppliedMarker.body, length_append, m.length_header, length_append,
      length_append, length_flatMap_encode]
  have hpos : 0 < (putUvarint m.dead.length).length :=
    length_pos_iff.mpr (putUvarint_ne_nil _)
  have hsplit : m.encode = m.header ++ (putUvarint m.dead.length ++
      (m.dead.flatMap encode ++ m.clockTrailer) ++
      putUint 4 (computeCRC32C m.body).toNat) := by
    rw [AppliedMarker.encode, AppliedMarker.body, append_assoc]
  obtain ⟨hmagic, hformat, hflags, hindex, hterm, hver⟩ := m.header_words h
    (putUvarint m.dead.length ++ (m.dead.flatMap encode ++ m.clockTrailer) ++
      putUint 4 (computeCRC32C m.body).toNat)
  rw [← hsplit] at hmagic hformat hflags hindex hterm hver
  have hshort : ¬(m.encode.length < 35 ∨ m.encode.take 4 ≠ appliedMarkerMagic ∨
      m.encode[4]? ≠ some appliedMarkerFormat) := by
    rw [hmagic, hformat, hlen, hbody]
    simp only [ne_eq, not_true, or_false]
    omega
  rw [decodeAppliedMarker, if_neg hshort]
  simp only [htake, hsum, hrest, ne_eq, not_true, if_false,
    getUvarint_putUvarint h.dead_length, drop_left]
  have hroom : ¬((putUvarint m.dead.length ++
        (m.dead.flatMap encode ++ m.clockTrailer)).length < m.dead.length ∨
      (putUvarint m.dead.length ++
        (m.dead.flatMap encode ++ m.clockTrailer)).length -
          (putUvarint m.dead.length).length < m.dead.length * 16) := by
    rw [length_append, length_append, length_flatMap_encode]
    omega
  have hdrop : (m.dead.flatMap encode ++ m.clockTrailer).drop (m.dead.length * 16) =
      m.clockTrailer := by
    rw [← length_flatMap_encode, drop_left]
  rw [if_neg hroom, hdrop, decodeClockTrailer_clockTrailer h]
  simp only [hindex, hterm, hver, hflags, Option.getD_some, wordAt_flatMap_encode h.dead_lt]

theorem isAppliedMarker_record (h : m.Fits) (nowNs : Int) :
    isAppliedMarker (m.record nowNs).replayed = some m := by
  have hne : m.encode ≠ [] := by
    intro hnil
    have hlen : m.encode.length = m.body.length + 4 := by simp [AppliedMarker.encode]
    rw [hnil] at hlen
    cases hlen
  have hvalue : (m.record nowNs).replayed.value = m.encode := by
    simp [WALEntry.replayed, WALEntry.inline, AppliedMarker.record, length_pos_iff, hne]
  have htrust : ¬((m.record nowNs).replayed.key ≠ appliedMarkerKey ∨
      (m.record nowNs).replayed.isTombstone = true ∨ (m.record nowNs).replayed.value = []) := by
    rw [hvalue]
    simp [WALEntry.replayed, AppliedMarker.record, hne]
  rw [isAppliedMarker, hvalue, decodeAppliedMarker_encode h]
  exact if_pos rfl

end RoundTrip

/-! ## What a cut leaves -/

section Cut

variable {es : List WalReplayEntry} {m : AppliedMarker} {e : WalReplayEntry} {r : VersionRange}

/-- A trusted marker names the version of its record and has the reserved
key. -/
theorem isAppliedMarker_eq_some (h : isAppliedMarker e = some m) :
    e.key = appliedMarkerKey ∧ m.ver = e.version := by
  rw [isAppliedMarker] at h
  split at h
  · cases h
  next hkey =>
    rw [not_or, not_not] at hkey
    split at h
    · cases h
    · split at h
      next hver =>
        cases h
        exact ⟨hkey.1, hver⟩
      · cases h

/-- The marker is one of the records and none of them has a higher version;
without a marker there is none. -/
structure Newest (es : List WalReplayEntry) (best : Option AppliedMarker) : Prop where
  absent : best = none → ∀ e ∈ es, isAppliedMarker e = none
  mem : ∀ m, best = some m → ∃ e ∈ es, isAppliedMarker e = some m
  ge : ∀ m, best = some m → ∀ e ∈ es, ∀ m', isAppliedMarker e = some m' → m'.ver ≤ m.ver

theorem Newest.step {best : Option AppliedMarker} (h : Newest es best) (e : WalReplayEntry) :
    Newest (es ++ [e]) (newerMarker best e) := by
  rw [newerMarker]
  cases he : isAppliedMarker e with
  | none =>
    refine ⟨?_, ?_, ?_⟩
    · exact fun hb => forall_mem_append.mpr ⟨h.absent hb, forall_mem_singleton.mpr he⟩
    · intro m hm
      obtain ⟨x, hx, hxm⟩ := h.mem m hm
      exact ⟨x, mem_append_left _ hx, hxm⟩
    · intro m hm
      refine forall_mem_append.mpr ⟨h.ge m hm, forall_mem_singleton.mpr fun m' hm' => ?_⟩
      cases he.symm.trans hm'
  | some m =>
    -- the marker that is kept bounds the old ones and the new one
    have hkeep : ∀ b, (∃ x ∈ es ++ [e], isAppliedMarker x = some b) → m.ver ≤ b.ver →
        (∀ x ∈ es, ∀ m', isAppliedMarker x = some m' → m'.ver ≤ b.ver) →
        Newest (es ++ [e]) (some b) := by
      intro b hmem hle hold
      refine ⟨fun hb => (by cases hb), ?_, ?_⟩
      · intro b' hb'
        cases hb'
        exact hmem
      · intro b' hb' x hx m' hm'
        cases hb'
        rcases mem_append.mp hx with hx | hx
        · exact hold x hx m' hm'
        · rw [mem_singleton.mp hx, he] at hm'
          cases hm'
          exact hle
    have hlast : ∃ x ∈ es ++ [e], isAppliedMarker x = some m := ⟨e, by simp, he⟩
    cases hb : best with
    | none =>
      refine hkeep m hlast (Nat.le_refl _) ?_
      intro x hx m' hm'
      rw [h.absent hb x hx] at hm'
      cases hm'
    | some b =>
      by_cases hle : b.ver ≤ m.ver
      · simp only [hle]
        exact hkeep m hlast (Nat.le_refl _) fun x hx m' hm' => (h.ge b hb x hx m' hm').trans hle
      · simp only [hle]
        obtain ⟨x, hx, hxb⟩ := h.mem b hb
        exact hkeep b ⟨x, mem_append_left _ hx, hxb⟩ (by omega) (h.ge b hb)

theorem newest_newestMarker (es : List WalReplayEntry) : Newest es (newestMarker es) := by
  induction es using List.reverseRecOn with
  | nil => exact ⟨fun _ e he => (by cases he), fun m hm => (by cases hm), fun m hm => (by cases hm)⟩
  | append_singleton es e ih =>
    rw [newestMarker, foldl_append]
    exact ih.step e

theorem newestMarker_concat_record (es : List WalReplayEntry) (h : m.Fits)
    (hle : ∀ e ∈ es, e.key = appliedMarkerKey → e.version ≤ m.ver) (nowNs : Int) :
    newestMarker (es ++ [(m.record nowNs).replayed]) = some m := by
  have hstep : newestMarker (es ++ [(m.record nowNs).replayed]) =
      newerMarker (newestMarker es) (m.record nowNs).replayed := foldl_append
  rw [hstep, newerMarker, isAppliedMarker_record h]
  cases hb : newestMarker es with
  | none => rfl
  | some b =>
    obtain ⟨e, he, hmark⟩ := (newest_newestMarker es).mem b hb
    obtain ⟨hkey, hbver⟩ := isAppliedMarker_eq_some hmark
    have hver : b.ver ≤ m.ver := hbver ▸ hle e he hkey
    simp only [hver, if_true]

theorem isDead_iff {dead : List VersionRange} {v : Nat} :
    isDead dead v = true ↔ ∃ r ∈ dead, r.contains v = true := by
  simp [isDead]

theorem VersionRange.contains_iff {v : Nat} : r.contains v = true ↔ r.lo < v ∧ v ≤ r.hi := by
  simp [contains]

/-- The ranges in use are ranges of the marker that caught a record below
it. -/
theorem mem_of_mem_usedRanges (h : r ∈ usedRanges m es) :
    r ∈ m.dead ∧ ∃ v ≤ m.ver, r.contains v = true := by
  obtain ⟨⟨r, i⟩, hp, rfl⟩ := mem_map.mp h
  obtain ⟨hmem, hany⟩ := mem_filter.mp hp
  have hat := mk_mem_zipIdx_iff_getElem?.mp hmem
  obtain ⟨e, -, he⟩ := any_eq_true.mp hany
  simp only [Bool.and_eq_true, decide_eq_true_eq, beq_iff_eq] at he
  obtain ⟨hi, hc, -⟩ := List.findIdx?_eq_some_iff_getElem.mp he.2
  rw [List.getElem?_eq_getElem hi, Option.some.injEq] at hat
  exact ⟨hat ▸ getElem_mem hi, e.version, he.1, hat ▸ hc⟩

/-- A dead record that the marker's version would cover is in a range that is
in use. -/
theorem isDead_usedRanges (he : e ∈ es) (hle : e.version ≤ m.ver)
    (hdead : isDead m.dead e.version = true) : isDead (usedRanges m es) e.version = true := by
  obtain ⟨r, hr, hc⟩ := isDead_iff.mp hdead
  cases hidx : m.dead.findIdx? (·.contains e.version) with
  | none =>
    rw [List.findIdx?_eq_none_iff] at hidx
    rw [hidx r hr] at hc
    cases hc
  | some i =>
    obtain ⟨hi, hci, -⟩ := List.findIdx?_eq_some_iff_getElem.mp hidx
    refine isDead_iff.mpr ⟨m.dead[i], ?_, hci⟩
    refine mem_map.mpr ⟨(m.dead[i], i), mem_filter.mpr ⟨?_, ?_⟩, rfl⟩
    · exact mk_mem_zipIdx_iff_getElem?.mpr (List.getElem?_eq_getElem hi)
    · exact any_eq_true.mpr ⟨e, he, by simp [hle, hidx]⟩

theorem mem_deadAfterCut {maxVersion : Nat} (h : r ∈ deadAfterCut m es maxVersion) :
    (r ∈ m.dead ∧ ∃ v ≤ m.ver, r.contains v = true) ∨
      r = ⟨m.ver, maxVersion⟩ ∧ m.ver < maxVersion := by
  rcases mem_append.mp h with h | h
  · exact .inl (mem_of_mem_usedRanges h)
  · split at h
    next hcut => exact .inr ⟨mem_singleton.mp h, hcut.2⟩
    · cases h

theorem isDead_deadAfterCut {maxVersion : Nat} (he : e ∈ es) (hmax : e.version ≤ maxVersion) :
    isDead (deadAfterCut m es maxVersion) e.version = !m.covers e.version := by
  rw [Bool.eq_iff_iff, AppliedMarker.covers]
  simp only [Bool.not_and, Bool.not_not, Bool.or_eq_true, Bool.not_eq_true', decide_eq_false_iff_not]
  constructor
  · intro hdead
    obtain ⟨r, hr, hc⟩ := isDead_iff.mp hdead
    rcases mem_deadAfterCut hr with ⟨hr, -⟩ | ⟨rfl, -⟩
    · exact .inr (isDead_iff.mpr ⟨r, hr, hc⟩)
    · exact .inl (Nat.not_le_of_lt (contains_iff.mp hc).1)
  · intro hnot
    rw [deadAfterCut, isDead, any_append, Bool.or_eq_true]
    by_cases hle : e.version ≤ m.ver
    · left
      exact isDead_usedRanges he hle (hnot.resolve_left fun h => h hle)
    · right
      have hany : es.any (fun e => decide (m.ver < e.version)) = true :=
        any_eq_true.mpr ⟨e, he, by simpa using hle⟩
      rw [if_pos ⟨hany, by omega⟩]
      simp only [any_cons, any_nil, Bool.or_false]
      exact contains_iff.mpr ⟨Nat.lt_of_not_le hle, hmax⟩

end Cut

end VeltrixDB.Storage
