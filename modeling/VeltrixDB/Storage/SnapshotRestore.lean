import VeltrixDB.Lib.SortedTable
import VeltrixDB.Storage.SnapshotCapture

/-!
# Restoring a snapshot

A restore makes the keyspace of an engine that of a snapshot.  It merges the sorted
part of the snapshot with the engine's own keys, page by page, or else keeps the set
of the engine's keys that the snapshot has not named; engine keys that it does not
name are deleted, keys that differ are written, and then the overlay is applied
(`RestoreSnapshot` in `cmd/server/raft_snapshot.go`, `Restorer` in
`storage/snapshot_support.go`).  Writes are buffered and flushed in batches while
the engine's keys are still being paged.

Main results:

- Theorem `Restorer.Ok.merge`: the merge passes the engine's keys in order and
  deletes them, whatever is flushed meanwhile.
- Theorem `Snapshot.restore_eq_iff`: when the keyspace after a restore is the
  snapshot's.
-/

open scoped Bytes

namespace VeltrixDB.Storage

open Function List Cell SortedTable

/-! ## The restorer -/

def restoreBatchKeys : Nat := 1024

def restoreBatchBytes : Nat := 4 * 2 ^ 20

/-- The keys with an entry that is no tombstone, expired or not. -/
abbrev KeyTable := SortedTable Key Cell

/-- `Restorer`: the engine and the buffered writes. -/
structure Restorer where
  se : KeyTable
  puts : List (Key × Cell)
  putBytes : Nat
  nowUs : Int
  dels : List Key
  inBatch : List Key

variable (r : Restorer)

/-- `Flush`: deletes go first. -/
def Restorer.flush : Restorer where
  se := r.puts.foldl (fun t p => t.put p.1 p.2) (r.dels.foldl (fun t k => t.delete k) r.se)
  puts := []
  putBytes := 0
  nowUs := r.nowUs
  dels := []
  inBatch := []

/-- `touch`: a key is in a batch once. -/
def Restorer.touch (key : Key) : Restorer :=
  let r' := if key ∈ r.inBatch then r.flush else r
  { r' with inBatch := key :: r'.inBatch }

def Restorer.expiryNowUs (localUs : Int) : Int :=
  if 0 < r.nowUs then r.nowUs else localUs

def Restorer.delete (key : Key) : Restorer :=
  let r' := { r.touch key with dels := (r.touch key).dels ++ [key] }
  if restoreBatchKeys ≤ r'.puts.length + r'.dels.length then r'.flush else r'

/-- The cell that `Put` writes: an unknown stamp becomes the legacy one. -/
def Cell.restored (c : Cell) : Cell :=
  (if c.1 ≤ 0 then legacyStampUs else c.1, c.2.1, if 0 < c.2.2 then c.2.2 else 0)

/-- `Put` of a key that is not reserved and not expired. -/
def Restorer.write (key : Key) (c : Cell) : Restorer :=
  let r' := { r.touch key with
    puts := (r.touch key).puts ++ [(key, c.restored)]
    putBytes := (r.touch key).putBytes + key.length + c.2.1.length }
  if restoreBatchKeys ≤ r'.puts.length + r'.dels.length ∨ restoreBatchBytes ≤ r'.putBytes then
    r'.flush
  else r'

def Restorer.put (localUs : Int) (key : Key) (c : Cell) : Restorer :=
  if key = appliedMarkerKey then r
  else if (c.at (r.expiryNowUs localUs)).isNone then r.delete key
  else r.write key c

/-! ## The parts of a restore -/

def sameVersion (cur snap floor : Int) : Bool :=
  if cur = snap ∨ snap = 0 ∨ floor = 0 then true else decide (cur < floor) && decide (snap < floor)

/-- The readings of the local clock while a record is restored: for the time at
which the engine's entry is judged, and the two times at which the record is. -/
structure Readings where
  entryUs : Int
  firstUs : Int
  secondUs : Int
deriving DecidableEq, Repr

variable (clock : RaftClock)

/-- `ReadForSnapshot` outside a command. -/
def readForSnapshot (localUs : Int) (e : Option Cell) : Option Cell :=
  e.bind (Cell.at (clock.expiryCutoffUs none localUs))

def Cell.sameAs (e c : Cell) (floor : Int) : Bool :=
  decide (e.2 = c.2) && sameVersion e.1 c.1 floor

def Restorer.restorePut (floor : Int) (r : Restorer) (key : Key) (c : Cell)
    (rd : Readings) : Restorer :=
  if (c.at (r.expiryNowUs rd.firstUs)).isNone then
    if (readForSnapshot clock rd.entryUs (r.se.find key)).isSome then r.delete key else r
  else if (readForSnapshot clock rd.entryUs (r.se.find key)).any fun e => e.sameAs c floor then r
  else r.put rd.secondUs key c

/-- `engineKeyCursor`: the rest of the page, the last key of it, and whether it
was the last page. -/
structure EngineKeyCursor where
  page : List Key
  cursor : Key
  exhausted : Bool

def EngineKeyCursor.start : EngineKeyCursor := ⟨[], [], false⟩

/-- `keysAfter` without its limit: keys past the cursor, and all keys from the
start. -/
def pastCursor (cursor : Key) (k : Key) : Bool := decide (cursor = []) || decide (cursor < k)

def EngineKeyCursor.turn (c : EngineKeyCursor) (page : List Key) : EngineKeyCursor where
  page := page
  cursor := page.getLast?.getD c.cursor
  exhausted := decide (page.length < snapPage)

/-- `peek`: a page is fetched when the last one is used up.  The next key is the
first of the page. -/
def EngineKeyCursor.peek (se : KeyTable) (c : EngineKeyCursor) : EngineKeyCursor :=
  if c.page = [] ∧ c.exhausted = false then
    c.turn ((se.keys.filter (pastCursor c.cursor)).take snapPage)
  else c

/-- The engine's keys up to `bound`, all of them if there is none, are passed; those
that are not the bound are deleted. -/
def mergeTo (bound : Option Key) : Nat → Restorer → EngineKeyCursor → Restorer × EngineKeyCursor
  | 0, r, c => (r, c)
  | fuel + 1, r, c =>
    match (c.peek r.se).page with
    | [] => (r, c.peek r.se)
    | ek :: page =>
      if bound.any (fun b => decide (b < ek)) then (r, c.peek r.se)
      else
        mergeTo bound fuel (if bound = some ek then r else r.delete ek)
          { c.peek r.se with page := page }

/-- Enough steps for the keys that are left. -/
def mergeFuel (c : EngineKeyCursor) : Nat := r.se.keys.length + c.page.length + 1

inductive RestoreError where
  | missingMeta
  | notSorted (key prev : Key)
  | deleteInBase
  | twoOverlays
  | unknownKind
  | truncated
deriving DecidableEq, Repr

structure RestoreVars where
  r : Restorer
  cur : EngineKeyCursor
  leftover : List Key
  prev : Option Key
  overlay : Bool
  clock : RaftClock

/-- What a restore is given besides the records: the clock of the engine, whether it
has the ordered index, the local clock at the start, and the order in which the
leftover set is ranged over. -/
structure RestoreEnv where
  clock : RaftClock
  ordered : Bool
  startUs : Int
  range : List Key → List Key
  range_perm : ∀ l, (range l).Perm l

def RestoreVars.next (env : RestoreEnv) (merge : Bool) (floor : Int) (v : RestoreVars)
    (x : SnapRecord × Readings) : Except RestoreError RestoreVars :=
  match x.1 with
  | .recPutV key c =>
    if v.overlay then .ok { v with r := v.r.put x.2.secondUs key c }
    else if merge then
      match v.prev.filter fun p => decide (key ≤ p) with
      | some p => .error (.notSorted key p)
      | none =>
        let m := mergeTo (some key) (mergeFuel v.r v.cur) v.r v.cur
        .ok { v with
          r := m.1.restorePut env.clock floor key c x.2
          cur := m.2
          prev := some key }
    else
      .ok { v with
        r := v.r.restorePut env.clock floor key c x.2
        leftover := v.leftover.filter (· ≠ key) }
  | .recDel key =>
    if v.overlay then .ok { v with r := v.r.delete key } else .error .deleteInBase
  | .recOverlay =>
    if v.overlay then .error .twoOverlays
    else if merge then
      let m := mergeTo none (mergeFuel v.r v.cur) v.r v.cur
      .ok { v with r := m.1, cur := m.2, overlay := true }
    else
      .ok { v with
        r := (env.range v.leftover).foldl (fun r k => r.delete k) v.r
        leftover := []
        overlay := true }
  | .recClock last floor => .ok { v with clock := ⟨last, floor⟩ }
  | .recMeta _ _ _ => .error .unknownKind

def RestoreVars.init (se : KeyTable) (nowUs : Int) : RestoreVars where
  r := { se := se, puts := [], putBytes := 0, nowUs := nowUs, dels := [], inBatch := [] }
  cur := .start
  leftover := se.keys
  prev := none
  overlay := false
  clock := ⟨0, 0⟩

/-- `RestoreSnapshot`: the engine's keys and its clock afterwards. -/
def restoreSnapshot (env : RestoreEnv) (se : KeyTable) (recs : List (SnapRecord × Readings)) :
    Except RestoreError (KeyTable × RaftClock) :=
  match recs with
  | (.recMeta sorted floor clockStart, _) :: recs => do
      let nowUs := if 0 < clockStart ∧ clockStart < env.startUs then clockStart else 0
      let v ← recs.foldlM (RestoreVars.next env (sorted && env.ordered) floor) (.init se nowUs)
      if v.overlay then .ok (v.r.flush.se, v.clock) else .error .truncated
  | _ => .error .missingMeta

/-! ## Changes of a keyspace -/

section Changes

variable {σ : Keyspace} {k : Key} {es es' : List (Key × Option Cell)}

namespace Keyspace

theorem write_of_not_mem (h : ∀ e ∈ es, e.1 ≠ k) : σ.write es k = σ k := by
  rw [write_apply, filter_eq_nil_iff.mpr fun e he => by simpa using h e he]
  rfl

theorem write_concat (σ : Keyspace) (es : List (Key × Option Cell)) (k : Key)
    (c : Option Cell) : σ.write (es ++ [(k, c)]) = update (σ.write es) k c := by
  rw [write_append]
  rfl

/-- A change before changes of other keys. -/
theorem write_middle (σ : Keyspace) (es : List (Key × Option Cell)) (c : Option Cell)
    (h : ∀ e ∈ es', e.1 ≠ k) :
    σ.write (es ++ [(k, c)] ++ es') = update (σ.write (es ++ es')) k c := by
  rw [write_append, write_concat, write_append]
  generalize σ.write es = τ
  induction es' generalizing τ with
  | nil => rfl
  | cons e es' ih =>
    have hne : k ≠ e.1 := (h e mem_cons_self).symm
    have hcomm : update (update τ k c) e.1 e.2 =
        update (update τ e.1 e.2) k c := update_comm hne ..
    show write (update (update τ k c) e.1 e.2) es' =
      update (write (update τ e.1 e.2) es') k c
    rw [hcomm]
    exact ih (fun e' he' => h e' (mem_cons_of_mem e he')) _

end Keyspace

end Changes

/-! ## The restorer keeps its batch in order -/

/-- The buffered changes, in the order in which `Flush` applies them. -/
def Restorer.batch : List (Key × Option Cell) :=
  r.dels.map (fun k => (k, none)) ++ r.puts.map fun p => (p.1, some p.2)

open Restorer

theorem Restorer.find_flush : r.flush.se.find = Keyspace.write r.se.find r.batch := by
  have hdels : ∀ (ks : List Key) (t : KeyTable), (ks.foldl (fun t k => t.delete k) t).find =
        Keyspace.write t.find (ks.map fun k => (k, none)) := by
    intro ks
    induction ks with
    | nil => exact fun t => rfl
    | cons k ks ih => exact fun t => ih (t.delete k)
  have hputs : ∀ (ps : List (Key × Cell)) (t : KeyTable),
      (ps.foldl (fun t p => t.put p.1 p.2) t).find =
        Keyspace.write t.find (ps.map fun p => (p.1, some p.2)) := by
    intro ps
    induction ps with
    | nil => exact fun t => rfl
    | cons p ps ih => exact fun t => ih (t.put p.1 p.2)
  unfold batch
  rw [Keyspace.write_append, ← hdels]
  exact hputs _ _

/-- The restorer with deadlines judged at `nowUs`, started on an engine with the
keys `e₀`: flushed it holds `σ`, and it has left alone the keys outside
`S`. -/
structure Restorer.Ok (nowUs : Int) (e₀ : Keyspace) (S : Set Key) (σ : Keyspace) (r : Restorer) :
    Prop where
  now : r.nowUs = nowUs
  batched : ∀ p ∈ r.puts, p.1 ∈ r.inBatch
  flushed : Keyspace.write r.se.find r.batch = σ
  within : ∀ e ∈ r.batch, e.1 ∈ S
  untouched : ∀ k, k ∉ S → r.se.find k = e₀ k

section Restorer

variable {nowUs : Int} {e₀ σ : Keyspace} {S : Set Key} {r : Restorer} {key : Key} {c : Cell}

section

variable (h : r.Ok nowUs e₀ S σ)
include h

theorem Restorer.Ok.mono {S' : Set Key} (hS : S ⊆ S') : r.Ok nowUs e₀ S' σ :=
  { h with
    within := fun e he => hS (h.within e he)
    untouched := fun k hk => h.untouched k fun hk' => hk (hS hk') }

/-- A key that was left alone. -/
theorem Restorer.Ok.eq_of_not_mem (hk : key ∉ S) : σ key = e₀ key := by
  rw [← h.flushed, ← h.untouched key hk]
  apply Keyspace.write_of_not_mem
  rintro e he rfl
  exact hk (h.within e he)

theorem Restorer.Ok.flush : r.flush.Ok nowUs e₀ S σ where
  now := h.now
  batched := fun p hp => (by cases hp)
  flushed := by
    rw [find_flush, h.flushed]
    rfl
  within := fun e he => (by cases he)
  untouched := by
    intro k hk
    rw [find_flush, h.flushed]
    exact h.eq_of_not_mem hk

theorem Restorer.Ok.flush_if {P : Prop} [Decidable P] :
    Restorer.Ok nowUs e₀ S σ (if P then r.flush else r) := by
  split
  · exact h.flush
  · exact h

theorem Restorer.Ok.touch (key : Key) :
    (r.touch key).Ok nowUs e₀ S σ ∧ key ∈ (r.touch key).inBatch ∧
      ∀ p ∈ (r.touch key).puts, p.1 ≠ key := by
  unfold Restorer.touch
  by_cases hk : key ∈ r.inBatch
  · rw [if_pos hk]
    obtain ⟨hnow, -, hflushed, hwithin, huntouched⟩ := h.flush
    exact ⟨⟨hnow, fun p hp => (by cases hp), hflushed, hwithin, huntouched⟩,
      mem_cons_self, fun p hp => (by cases hp)⟩
  · rw [if_neg hk]
    obtain ⟨hnow, hbatched, hflushed, hwithin, huntouched⟩ := h
    refine ⟨⟨hnow, fun p hp => mem_cons_of_mem _ (hbatched p hp), hflushed, hwithin,
      huntouched⟩, mem_cons_self, ?_⟩
    rintro p hp rfl
    exact hk (hbatched p hp)

theorem Restorer.Ok.delete (hkey : key ∈ S) : (r.delete key).Ok nowUs e₀ S (update σ key none) := by
  obtain ⟨⟨hnow, hbatched, hflushed, hwithin, huntouched⟩, -, hputs⟩ := h.touch key
  have hnext : Restorer.Ok nowUs e₀ S (update σ key none)
      { r.touch key with dels := (r.touch key).dels ++ [key] } := by
    constructor
    · exact hnow
    · exact hbatched
    · unfold batch
      rw [map_append, ← hflushed]
      apply Keyspace.write_middle
      intro e he
      obtain ⟨p, hp, rfl⟩ := mem_map.mp he
      exact hputs p hp
    · intro e he
      unfold batch at he
      rw [map_append, append_assoc] at he
      rcases mem_append.mp he with he | he
      · exact hwithin e (mem_append_left _ he)
      · rcases mem_append.mp he with he | he
        · rw [mem_singleton.mp he]
          exact hkey
        · exact hwithin e (mem_append_right _ he)
    · exact huntouched
  exact hnext.flush_if

theorem Restorer.Ok.write (hkey : key ∈ S) (c : Cell) :
    (r.write key c).Ok nowUs e₀ S (update σ key (some c.restored)) := by
  obtain ⟨⟨hnow, hbatched, hflushed, hwithin, huntouched⟩, hin, -⟩ := h.touch key
  have hnext : Restorer.Ok nowUs e₀ S (update σ key (some c.restored))
      { r.touch key with
        puts := (r.touch key).puts ++ [(key, c.restored)]
        putBytes := (r.touch key).putBytes + key.length + c.2.1.length } := by
    constructor
    · exact hnow
    · exact forall_mem_append.mpr ⟨hbatched, forall_mem_singleton.mpr hin⟩
    · unfold batch
      rw [map_append, ← append_assoc, ← hflushed]
      exact Keyspace.write_concat ..
    · unfold batch
      rw [map_append, ← append_assoc]
      exact forall_mem_append.mpr ⟨hwithin, forall_mem_singleton.mpr hkey⟩
    · exact huntouched
  exact hnext.flush_if

end

end Restorer

/-! ## The merge passes the engine's keys in order -/

def beyond (p : Option Key) (k : Key) : Bool := p.all fun q => decide (q < k)

/-- The cursor has passed the keys of the engine up to a position; a page that is not
the last ends past it. -/
structure EngineKeyCursor.At (t : KeyTable) (p : Option Key) (c : EngineKeyCursor) : Prop where
  rest : c.page ++ (if c.exhausted then [] else t.keys.filter (pastCursor c.cursor)) =
    t.keys.filter (beyond p)
  ahead : c.exhausted = false → (c.cursor = [] ∧ p = none) ∨
    (c.cursor ≠ [] ∧ ∀ q, p = some q → q ≤ c.cursor)

section Merge

variable {nowUs : Int} {t : KeyTable} {σ : Keyspace} {r : Restorer} {c : EngineKeyCursor}
  {p bound : Option Key}

theorem beyond_some {q k : Key} : beyond (some q) k = true ↔ q < k := decide_eq_true_iff

theorem beyond_of_le {b k : Key} (hle : ∀ x, p = some x → x ≤ b) (hk : b < k) :
    beyond p k = true := by
  cases p with
  | none => rfl
  | some x => exact beyond_some.mpr ((hle x rfl).trans_lt hk)

theorem beyond_trans {x k : Key} (hx : beyond p x = true) (hk : x < k) : beyond p k = true :=
  beyond_of_le (fun _ hq => le_of_lt (beyond_some.mp (hq ▸ hx))) hk

theorem not_mem_of_beyond {k : Key} (h : beyond p k = true) : k ∉ {k | beyond p k = false} := by
  simp [h]

theorem pastCursor_of_ne {a : Key} (ha : a ≠ []) (k : Key) : pastCursor a k = decide (a < k) := by
  unfold pastCursor
  rw [decide_eq_false ha, Bool.false_or]

theorem EngineKeyCursor.at_start (t : KeyTable) : EngineKeyCursor.start.At t none where
  rest := filter_congr fun _ _ => rfl
  ahead := fun _ => .inl ⟨rfl, rfl⟩

theorem filter_beyond_page {x : Key} {page rest : List Key}
    (h : t.keys.filter (beyond p) = page ++ rest) (hx : page.getLast? = some x) :
    t.keys.filter (beyond (some x)) = rest := by
  have hsorted : (page ++ rest).Pairwise (· < ·) := by
    rw [← h]
    exact t.sorted.filter (beyond p)
  have hmem : x ∈ t.keys.filter (beyond p) := by
    rw [h]
    exact mem_append_left _ (mem_of_getLast? hx)
  have hpage := filter_lt_of_page hsorted hx fun k => beyond_some
  rw [← h, filter_filter] at hpage
  rw [← hpage]
  apply filter_congr
  intro k _
  rw [Bool.eq_iff_iff, Bool.and_eq_true]
  exact ⟨fun hk => ⟨hk, beyond_trans (mem_filter.mp hmem).2 (beyond_some.mp hk)⟩, fun hk => hk.1⟩

/-- A page that is fetched continues with the keys that are left. -/
theorem EngineKeyCursor.At.turn {R : List Key} (hR : t.keys.filter (beyond p) = R)
    (c : EngineKeyCursor) : (c.turn (R.take snapPage)).At t p := by
  by_cases hlen : (R.take snapPage).length < snapPage
  · have hex : (c.turn (R.take snapPage)).exhausted = true := decide_eq_true hlen
    have hshort : R.take snapPage = R := by
      rw [length_take] at hlen
      exact take_of_length_le (by omega)
    constructor
    · rw [hex, if_pos rfl, append_nil, hR]
      exact hshort
    · intro hfalse
      rw [hex] at hfalse
      cases hfalse
  · have hex : (c.turn (R.take snapPage)).exhausted = false := decide_eq_false hlen
    have hsplit : t.keys.filter (beyond p) = R.take snapPage ++ R.drop snapPage := by
      rw [hR, take_append_drop]
    cases hlast : (R.take snapPage).getLast? with
    | none =>
      rw [List.getLast?_eq_none_iff.mp hlast] at hlen
      exact absurd (by decide) hlen
    | some a =>
      have hcursor : (c.turn (R.take snapPage)).cursor = a := by
        show (R.take snapPage).getLast?.getD c.cursor = a
        rw [hlast]
        rfl
      have hmem : beyond p a = true := by
        have ha : a ∈ t.keys.filter (beyond p) := by
          rw [hsplit]
          exact mem_append_left _ (mem_of_getLast? hlast)
        exact (mem_filter.mp ha).2
      -- a full page has more than one key, so its last one is not empty
      have hne : a ≠ [] := by
        rintro rfl
        obtain ⟨init, hinit⟩ := List.getLast?_eq_some_iff.mp hlast
        cases init with
        | nil =>
          rw [hinit] at hlen
          exact absurd (by decide : [([] : Key)].length < snapPage) hlen
        | cons x =>
          have hsorted := t.sorted.filter (beyond p)
          rw [hsplit, hinit] at hsorted
          have hlt := (pairwise_append.mp (pairwise_append.mp hsorted).1).2.2 x
            mem_cons_self [] (mem_singleton_self _)
          exact not_lt_nil x hlt
      constructor
      · rw [hex, hcursor, hsplit, ← filter_beyond_page hsplit hlast]
        congr 1
        exact filter_congr fun k _ => pastCursor_of_ne hne k
      · intro _
        refine .inr ⟨by rw [hcursor]; exact hne, ?_⟩
        rintro q rfl
        rw [hcursor]
        exact le_of_lt (beyond_some.mp hmem)

/-- `peek`: the page is empty only when no key is left, whatever was written up to
the position. -/
theorem EngineKeyCursor.At.peek (hc : c.At t p) (hr : r.Ok nowUs t.find {k | beyond p k = false} σ) :
    (c.peek r.se).At t p ∧ ((c.peek r.se).page = [] → (c.peek r.se).exhausted = true) := by
  unfold EngineKeyCursor.peek
  split
  next hturn =>
    -- the keys past the cursor are those of the start
    have hrest := hc.rest
    rw [hturn.1, hturn.2] at hrest
    have hpast : ∀ k, pastCursor c.cursor k = true → beyond p k = true := by
      intro k hk
      rcases hc.ahead hturn.2 with ⟨-, rfl⟩ | ⟨hne, hle⟩
      · rfl
      · rw [pastCursor_of_ne hne, decide_eq_true_iff] at hk
        exact beyond_of_le hle hk
    have hsame : r.se.keys.filter (pastCursor c.cursor) = t.keys.filter (beyond p) := by
      rw [← show t.keys.filter (pastCursor c.cursor) = _ from hrest]
      apply filter_keys_congr
      exact fun k hk => hr.untouched k (not_mem_of_beyond (hpast k hk))
    rw [hsame]
    refine ⟨.turn rfl c, fun hnil => decide_eq_true ?_⟩
    rw [show (t.keys.filter (beyond p)).take snapPage = [] from hnil]
    decide
  next hkeep =>
    exact ⟨hc, fun hnil => Bool.eq_true_of_not_eq_false fun hex => hkeep ⟨hnil, hex⟩⟩

def before (bound : Option Key) (k : Key) : Bool := bound.all fun b => decide (k < b)

theorem EngineKeyCursor.At.page_le (hc : c.At t p) (hex : c.exhausted = false) {x : Key}
    (hx : x ∈ c.page) : c.cursor ≠ [] ∧ x ≤ c.cursor := by
  have hrest := hc.rest
  rw [hex] at hrest
  have hmem : x ∈ t.keys := by
    apply (mem_filter (p := beyond p)).mp _ |>.1
    rw [← hrest]
    exact mem_append_left _ hx
  have hpast : pastCursor c.cursor x ≠ true := by
    intro hpast
    have hsorted := t.sorted.filter (beyond p)
    rw [← hrest] at hsorted
    exact lt_irrefl x ((pairwise_append.mp hsorted).2.2 x hx x (mem_filter.mpr ⟨hmem, hpast⟩))
  constructor
  · intro hnil
    apply hpast
    unfold pastCursor
    rw [decide_eq_true hnil, Bool.true_or]
  · apply not_lt.mp
    intro hlt
    apply hpast
    unfold pastCursor
    rw [decide_eq_true hlt, Bool.or_true]

/-- The next key is the least that is left. -/
theorem EngineKeyCursor.At.head (hc : c.At t p) {ek : Key} {page : List Key}
    (hpage : c.page = ek :: page) :
    ek ∈ t.keys ∧ beyond p ek = true ∧ ∀ k ∈ t.keys, beyond p k = true → ek ≤ k := by
  have hrest := hc.rest
  rw [hpage] at hrest
  have hek : ek ∈ t.keys.filter (beyond p) := by
    rw [← hrest]
    exact mem_cons_self
  refine ⟨(mem_filter.mp hek).1, (mem_filter.mp hek).2, ?_⟩
  intro k hk hp
  have hsorted := t.sorted.filter (beyond p)
  have hmem := mem_filter.mpr ⟨hk, hp⟩
  rw [← hrest] at hsorted hmem
  rcases mem_cons.mp hmem with rfl | hmem
  · exact le_refl k
  · exact le_of_lt ((pairwise_cons.mp hsorted).1 k hmem)

theorem EngineKeyCursor.At.pop (hc : c.At t p) {ek : Key} {page : List Key}
    (hpage : c.page = ek :: page) :
    EngineKeyCursor.At t (some ek) { c with page := page } ∧
      (t.keys.filter (beyond (some ek))).length < (t.keys.filter (beyond p)).length := by
  have hrest := hc.rest
  rw [hpage] at hrest
  have hnext : t.keys.filter (beyond (some ek)) =
      page ++ (if c.exhausted then [] else t.keys.filter (pastCursor c.cursor)) := by
    have hlast : [ek].getLast? = some ek := rfl
    exact filter_beyond_page hrest.symm hlast
  refine ⟨⟨hnext.symm, fun hex => .inr ?_⟩, ?_⟩
  · have hcursor := hc.page_le hex (by rw [hpage]; exact mem_cons_self)
    refine ⟨hcursor.1, fun q hq => ?_⟩
    cases hq
    exact hcursor.2
  · rw [hnext, ← hrest, cons_append]
    exact Nat.lt_succ_self _

/-- The keyspace with the keys between a position and a bound deleted. -/
def passed (p bound : Option Key) (σ : Keyspace) : Keyspace := fun k =>
  if beyond p k && before bound k then none else σ k

section

variable (hr : r.Ok nowUs t.find {k | beyond p k = false} σ)
include hr

/-- A key past the position that the engine does not hold. -/
theorem Restorer.Ok.none_of_beyond {k : Key} (hp : beyond p k = true) (hk : k ∉ t.keys) :
    σ k = none := by
  rw [hr.eq_of_not_mem (not_mem_of_beyond hp), ← Option.not_isSome_iff_eq_none, ← t.mem_keys]
  exact hk

theorem Restorer.Ok.passed_eq (hnone : ∀ k ∈ t.keys, beyond p k = true → before bound k = false) :
    passed p bound σ = σ := by
  funext k
  unfold passed
  split
  next hk =>
    obtain ⟨hp, hb⟩ := Bool.and_eq_true_iff.mp hk
    refine (hr.none_of_beyond hp fun hmem => ?_).symm
    rw [hnone k hmem hp] at hb
    cases hb
  · rfl

theorem Restorer.Ok.passed_step {ek : Key} (hek : beyond p ek = true)
    (hmin : ∀ k ∈ t.keys, beyond p k = true → ek ≤ k) (hle : ∀ b, bound = some b → ek ≤ b) :
    passed (some ek) bound (if bound = some ek then σ else update σ ek none) =
      passed p bound σ := by
  have hother : ∀ k, k ≠ ek →
      (if bound = some ek then σ else update σ ek none) k = σ k := by
    intro k hk
    split
    · rfl
    · exact update_of_ne hk ..
  funext k
  unfold passed
  rcases lt_trichotomy k ek with hlt | rfl | hgt
  · -- below it there is no key
    have hnot : beyond (some ek) k = false := decide_eq_false (lt_asymm hlt)
    rw [hnot, Bool.false_and, if_neg Bool.false_ne_true, hother k (ne_of_lt hlt)]
    split
    next hk =>
      have hp := (Bool.and_eq_true_iff.mp hk).1
      exact hr.none_of_beyond hp fun hmem => absurd (hmin k hmem hp) (not_le.mpr hlt)
    · rfl
  · have hnot : beyond (some k) k = false := decide_eq_false (lt_irrefl k)
    rw [hnot, Bool.false_and, if_neg Bool.false_ne_true, hek, Bool.true_and]
    by_cases hself : bound = some k
    · have hb : before bound k = false := by
        rw [hself]
        exact decide_eq_false (lt_irrefl k)
      rw [if_pos hself, hb, if_neg Bool.false_ne_true]
    · have hb : before bound k = true := by
        cases bound with
        | none => rfl
        | some b =>
          exact decide_eq_true (lt_of_le_of_ne (hle b rfl) fun heq => hself (by rw [heq]))
      rw [if_neg hself, hb, if_pos rfl, update_self]
  · have hpast : beyond (some ek) k = true := decide_eq_true hgt
    rw [hpast, beyond_trans hek hgt, hother k (ne_of_gt hgt)]

end

def upTo (p bound : Option Key) : Set Key := {k | beyond p k = false ∧ bound ≠ some k}

/-- The merge passes the keys up to the bound, and deletes those before it. -/
theorem Restorer.Ok.merge {fuel : Nat} (hr : r.Ok nowUs t.find (upTo p bound) σ) (hc : c.At t p)
    (hfuel : (t.keys.filter (beyond p)).length < fuel)
    (hle : ∀ x b, p = some x → bound = some b → x ≤ b) :
    ∃ q, (mergeTo bound fuel r c).1.Ok nowUs t.find (upTo q bound) (passed p bound σ) ∧
      (mergeTo bound fuel r c).2.At t q ∧
      (∀ x b, q = some x → bound = some b → x ≤ b) ∧
      (∀ k ∈ t.keys, beyond q k = true → ∃ b, bound = some b ∧ b < k) ∧
      ((mergeTo bound fuel r c).2.page = [] → (mergeTo bound fuel r c).2.exhausted = true) := by
  induction fuel generalizing r c p σ with
  | zero => exact absurd hfuel (Nat.not_lt_zero _)
  | succ fuel ih =>
    have hr' := hr.mono (fun k hk => hk.1 : upTo p bound ⊆ {k | beyond p k = false})
    obtain ⟨hpeek, hempty⟩ := hc.peek hr'
    rw [mergeTo]
    cases hpage : (c.peek r.se).page with
    | nil =>
      -- no key is left
      have hrest := hpeek.rest
      rw [hpage, hempty hpage] at hrest
      have hnone : ∀ k ∈ t.keys, beyond p k ≠ true := fun k hk hp =>
        not_mem_nil (hrest ▸ mem_filter.mpr ⟨hk, hp⟩)
      rw [hr'.passed_eq fun k hk hp => absurd hp (hnone k hk)]
      exact ⟨p, hr, hpeek, hle, fun k hk hp => absurd hp (hnone k hk), hempty⟩
    | cons ek =>
      obtain ⟨-, hek, hmin⟩ := hpeek.head hpage
      by_cases hstop : bound.any (fun b => decide (b < ek)) = true
      · -- the next key lies past the bound
        obtain ⟨b, rfl, hb⟩ : ∃ b, bound = some b ∧ b < ek := by
          cases bound with
          | none => cases hstop
          | some b => exact ⟨b, rfl, of_decide_eq_true hstop⟩
        have hpast : ∀ k ∈ t.keys, beyond p k = true → b < k :=
          fun k hk hp => hb.trans_le (hmin k hk hp)
        simp only [hstop, if_true]
        have hnone : ∀ k ∈ t.keys, beyond p k = true → before (some b) k = false :=
          fun k hk hp => decide_eq_false (lt_asymm (hpast k hk hp))
        rw [hr'.passed_eq hnone]
        refine ⟨p, hr, hpeek, hle, fun k hk hp => ⟨b, rfl, hpast k hk hp⟩, fun hnil => ?_⟩
        rw [hpage] at hnil
        cases hnil
      · have hle' : ∀ b, bound = some b → ek ≤ b := by
          rintro b rfl
          exact not_lt.mp fun hlt => hstop (decide_eq_true hlt)
        obtain ⟨hpop, hlen⟩ := hpeek.pop hpage
        have hmono : upTo p bound ⊆ upTo (some ek) bound := by
          rintro k ⟨hk, hne⟩
          refine ⟨decide_eq_false fun hlt => ?_, hne⟩
          rw [beyond_trans hek hlt] at hk
          cases hk
        have hnext : (if bound = some ek then r else r.delete ek).Ok nowUs t.find
            (upTo (some ek) bound)
            (if bound = some ek then σ else update σ ek none) := by
          split
          · exact hr.mono hmono
          next hself => exact (hr.mono hmono).delete ⟨decide_eq_false (lt_irrefl ek), hself⟩
        simp only [hstop]
        rw [← hr'.passed_step hek hmin hle']
        refine ih hnext hpop (by omega) ?_
        rintro x b hx hb
        cases hx
        exact hle' b hb

theorem EngineKeyCursor.At.settle {q : Option Key} {b : Key} (hc : c.At t q)
    (hle : ∀ x, q = some x → x ≤ b) (hpast : ∀ k ∈ t.keys, beyond q k = true → b < k)
    (hempty : c.page = [] → c.exhausted = true) : c.At t (some b) where
  rest := by
    rw [hc.rest]
    apply filter_congr
    intro k hk
    rw [Bool.eq_iff_iff, beyond_some]
    exact ⟨hpast k hk, beyond_of_le hle⟩
  ahead := by
    intro hex
    cases hpage : c.page with
    | nil =>
      rw [hempty hpage] at hex
      cases hex
    | cons x =>
      obtain ⟨hmem, hbeyond, -⟩ := hc.head hpage
      have hcursor := hc.page_le hex (by rw [hpage]; exact mem_cons_self : x ∈ c.page)
      refine .inr ⟨hcursor.1, fun q' hq' => ?_⟩
      cases hq'
      exact (le_of_lt (hpast x hmem hbeyond)).trans hcursor.2

theorem mergeFuel_gt (hr : r.Ok nowUs t.find {k | beyond p k = false} σ) (c : EngineKeyCursor) :
    (t.keys.filter (beyond p)).length < mergeFuel r c := by
  have hsame : r.se.keys.filter (beyond p) = t.keys.filter (beyond p) := by
    apply filter_keys_congr
    exact fun k hk => hr.untouched k (not_mem_of_beyond hk)
  have hlen := length_filter_le (beyond p) r.se.keys
  rw [hsame] at hlen
  unfold mergeFuel
  omega

end Merge

/-! ## The base -/

variable {base : List BaseRecord} {f : BaseRecord → Option Cell} {b : BaseRecord}

/-- The time at which deadlines of records are judged. -/
def expiryTime (nowUs localUs : Int) : Int := if 0 < nowUs then nowUs else localUs

/-- What `Put` leaves of a key that held `e`. -/
def putCellAt (nowUs localUs : Int) (key : Key) (c : Cell) (e : Option Cell) : Option Cell :=
  if key = appliedMarkerKey then e
  else if (c.at (expiryTime nowUs localUs)).isNone then none
  else some c.restored

/-- What `restorePut` leaves of a key that held `e`. -/
def restoredCell (floor nowUs : Int) (key : Key) (c : Cell) (rd : Readings)
    (e : Option Cell) : Option Cell :=
  if (c.at (expiryTime nowUs rd.firstUs)).isNone then
    if (readForSnapshot clock rd.entryUs e).isSome then none else e
  else if (readForSnapshot clock rd.entryUs e).any fun e => e.sameAs c floor then e
  else putCellAt nowUs rd.secondUs key c e

abbrev BaseRecord := Key × Cell × Readings

/-- Keys of the base are as `f` restores them, others as in `σ`. -/
def overBase (f : BaseRecord → Option Cell) (base : List BaseRecord) (σ : Keyspace) : Keyspace :=
  fun k => match base.find? fun b => decide (b.1 = k) with
    | some b => f b
    | none => σ k

open RestoreVars

section Base

variable {env : RestoreEnv} {floor nowUs : Int} {e₀ σ : Keyspace} {S : Set Key} {r : Restorer}
  {key : Key} {v : RestoreVars}

theorem Restorer.Ok.expiryNowUs (h : r.Ok nowUs e₀ S σ) (localUs : Int) :
    r.expiryNowUs localUs = expiryTime nowUs localUs := by
  unfold Restorer.expiryNowUs
  rw [h.now]
  rfl

theorem Restorer.Ok.put (h : r.Ok nowUs e₀ S σ) (hkey : key ∈ S) (localUs : Int) (c : Cell) :
    (r.put localUs key c).Ok nowUs e₀ S
      (update σ key (putCellAt nowUs localUs key c (σ key))) := by
  unfold Restorer.put putCellAt
  rw [h.expiryNowUs]
  split
  · rw [update_eq_self]
    exact h
  · split
    · exact h.delete hkey
    · exact h.write hkey c

/-- `restorePut` of a key that was left alone. -/
theorem Restorer.Ok.restorePut (h : r.Ok nowUs e₀ S σ) (hkey : key ∉ S) (clock : RaftClock)
    (floor : Int) (c : Cell) (rd : Readings) :
    (r.restorePut clock floor key c rd).Ok nowUs e₀ (insert key S)
      (update σ key (restoredCell clock floor nowUs key c rd (e₀ key))) := by
  have hmono := h.mono (Set.subset_insert key S)
  have hmem : key ∈ insert key S := Set.mem_insert key S
  have hkeep : update σ key (e₀ key) = σ := by
    rw [← h.eq_of_not_mem hkey, update_eq_self]
  unfold Restorer.restorePut restoredCell
  rw [h.expiryNowUs, h.untouched key hkey]
  split
  · split
    · exact hmono.delete hmem
    · rw [hkeep]
      exact hmono
  · split
    · rw [hkeep]
      exact hmono
    · have hput := hmono.put hmem rd.secondUs c
      rw [h.eq_of_not_mem hkey] at hput
      exact hput

theorem overBase_cons (f : BaseRecord → Option Cell) (b : BaseRecord) (base : List BaseRecord)
    (σ : Keyspace) (k : Key) :
    overBase f (b :: base) σ k = if b.1 = k then f b else overBase f base σ k := by
  unfold overBase
  rw [List.find?_cons]
  by_cases hk : b.1 = k
  · rw [decide_eq_true hk, if_pos hk]
  · rw [decide_eq_false hk, if_neg hk]

theorem overBase_of_not_mem {k : Key} (h : ∀ b ∈ base, b.1 ≠ k) : overBase f base σ k = σ k := by
  unfold overBase
  rw [List.find?_eq_none.mpr fun b hb => by simpa using h b hb]

theorem overBase_cases (base : List BaseRecord) (k : Key) :
    (∃ b ∈ base, b.1 = k ∧ ∀ f σ, overBase f base σ k = f b) ∨
      ((∀ b ∈ base, b.1 ≠ k) ∧ ∀ f σ, overBase f base σ k = σ k) := by
  cases hfind : base.find? fun b => decide (b.1 = k) with
  | some b =>
    have hk : decide (b.1 = k) = true :=
      List.find?_some (p := fun b : BaseRecord => decide (b.1 = k)) hfind
    refine .inl ⟨b, mem_of_find?_eq_some hfind, of_decide_eq_true hk, fun f σ => ?_⟩
    unfold overBase
    rw [hfind]
  | none =>
    have hne : ∀ b ∈ base, b.1 ≠ k := fun b hb heq =>
      absurd (decide_eq_true heq) (List.find?_eq_none.mp hfind b hb)
    exact .inr ⟨hne, fun f σ => overBase_of_not_mem hne⟩

def BaseRecord.record (b : BaseRecord) : SnapRecord × Readings := (.recPutV b.1 b.2.1, b.2.2)

theorem RestoreVars.next_merge (hoverlay : v.overlay = false) (hprev : beyond v.prev b.1 = true) :
    v.next env true floor b.record = .ok { v with
      r := (mergeTo (some b.1) (mergeFuel v.r v.cur) v.r v.cur).1.restorePut env.clock floor b.1
        b.2.1 b.2.2
      cur := (mergeTo (some b.1) (mergeFuel v.r v.cur) v.r v.cur).2
      prev := some b.1 } := by
  have hfilter : (v.prev.filter fun p => decide (b.1 ≤ p)) = none := by
    cases hp : v.prev with
    | none => rfl
    | some =>
      rw [hp] at hprev
      have hlt := not_le.mpr (beyond_some.mp hprev)
      simp [Option.filter, hlt]
  unfold next BaseRecord.record
  simp only [hoverlay, hfilter, Bool.false_eq_true, if_false, if_true]

/-- A record of the base in a merge: the keys before it are deleted and its own is
restored. -/
theorem RestoreVars.mergeRecord (env : RestoreEnv) (floor : Int) {t : KeyTable}
    (hr : v.r.Ok nowUs t.find {k | beyond v.prev k = false} σ) (hc : v.cur.At t v.prev)
    (hoverlay : v.overlay = false) (hb : beyond v.prev b.1 = true) :
    ∃ v', v.next env true floor b.record = .ok v' ∧ v'.overlay = false ∧ v'.clock = v.clock ∧
      v'.prev = some b.1 ∧ v'.cur.At t (some b.1) ∧
      v'.r.Ok nowUs t.find {k | beyond (some b.1) k = false}
        (update (passed v.prev (some b.1) σ) b.1
          (restoredCell env.clock floor nowUs b.1 b.2.1 b.2.2 (t.find b.1))) := by
  have hstart : v.r.Ok nowUs t.find (upTo v.prev (some b.1)) σ := by
    apply hr.mono
    refine fun k hk => ⟨hk, ?_⟩
    rintro ⟨⟩
    rw [show beyond v.prev b.1 = false from hk] at hb
    cases hb
  have hle : ∀ x y, v.prev = some x → some b.1 = some y → x ≤ y := by
    rintro x y hx ⟨⟩
    rw [hx] at hb
    exact le_of_lt (beyond_some.mp hb)
  obtain ⟨q, hok, hcur, hq, hpast, hempty⟩ := hstart.merge hc (mergeFuel_gt hr v.cur) hle
  have hfar : ∀ k ∈ t.keys, beyond q k = true → b.1 < k := by
    intro k hk hbk
    obtain ⟨y, hy, hlt⟩ := hpast k hk hbk
    cases hy
    exact hlt
  refine ⟨_, next_merge hoverlay hb, hoverlay, rfl, rfl,
    hcur.settle (fun x hx => hq x b.1 hx rfl) hfar hempty, ?_⟩
  apply (hok.restorePut (fun hmem => hmem.2 rfl) env.clock floor b.2.1 b.2.2).mono
  intro k hk
  rcases Set.mem_insert_iff.mp hk with rfl | hk
  · exact decide_eq_false (lt_irrefl _)
  · apply decide_eq_false
    intro hlt
    have hbk := beyond_of_le (fun x hx => hq x b.1 hx rfl) hlt
    rw [hk.1] at hbk
    cases hbk

theorem overBase_merge {p q : Option Key} (hb : beyond p b.1 = true)
    (hbase : ∀ x ∈ base, b.1 < x.1) (hq : ∀ k, beyond q k = true → beyond (some b.1) k = true) :
    overBase f base (fun k => if beyond (some b.1) k && !beyond q k then none
        else update (passed p (some b.1) σ) b.1 (f b) k) =
      overBase f (b :: base) fun k => if beyond p k && !beyond q k then none else σ k := by
  funext k
  rw [overBase_cons]
  by_cases hk : b.1 = k
  · subst hk
    rw [if_pos rfl, overBase_of_not_mem fun x hx => (ne_of_gt (hbase x hx))]
    have hnot : beyond (some b.1) b.1 = false := decide_eq_false (lt_irrefl _)
    rw [hnot, Bool.false_and, if_neg Bool.false_ne_true, update_self]
  · rw [if_neg hk]
    unfold overBase
    split
    · rfl
    · beta_reduce
      rw [update_of_ne (Ne.symm hk)]
      unfold passed
      rcases lt_or_gt_of_ne hk with hgt | hlt
      · have hpast : beyond (some b.1) k = true := decide_eq_true hgt
        have hnot : before (some b.1) k = false := decide_eq_false (lt_asymm hgt)
        rw [hpast, beyond_trans hb hgt, hnot, Bool.and_false, if_neg Bool.false_ne_true]
      · have hnot : beyond (some b.1) k = false := decide_eq_false (lt_asymm hlt)
        have hbefore : before (some b.1) k = true := decide_eq_true hlt
        have hqk : beyond q k = false := by
          apply Bool.eq_false_iff.mpr
          intro hqk
          rw [hq k hqk] at hnot
          cases hnot
        rw [hnot, hbefore, hqk, Bool.false_and, if_neg Bool.false_ne_true, Bool.not_false]

/-- Restoring a base by merging: keys before the last of it that it does not name are
deleted. -/
theorem RestoreVars.mergeBase {t : KeyTable}
    (hr : v.r.Ok nowUs t.find {k | beyond v.prev k = false} σ) (hc : v.cur.At t v.prev)
    (hoverlay : v.overlay = false) (hsorted : (base.map Prod.fst).Pairwise (· < ·))
    (hbeyond : ∀ b ∈ base, beyond v.prev b.1 = true) :
    ∃ v', (base.map BaseRecord.record).foldlM (next env true floor) v = .ok v' ∧
      v'.overlay = false ∧ v'.clock = v.clock ∧ v'.cur.At t v'.prev ∧
      v'.r.Ok nowUs t.find {k | beyond v'.prev k = false}
        (overBase (fun b => restoredCell env.clock floor nowUs b.1 b.2.1 b.2.2 (t.find b.1)) base
          fun k => if beyond v.prev k && !beyond v'.prev k then none else σ k) ∧
      (∀ k, beyond v'.prev k = true → beyond v.prev k = true) ∧
      ∀ b ∈ base, beyond v'.prev b.1 = false := by
  induction base generalizing v σ with
  | nil =>
    refine ⟨v, rfl, hoverlay, rfl, hc, ?_, fun k hk => hk, fun b hb => (by cases hb)⟩
    have hsame : (fun k => if beyond v.prev k && !beyond v.prev k then none else σ k) = σ := by
      funext k
      rw [Bool.and_not_self, if_neg Bool.false_ne_true]
    simp only [hsame]
    exact hr
  | cons b base ih =>
    have hb := hbeyond b mem_cons_self
    obtain ⟨hlt, hsorted⟩ := pairwise_cons.mp hsorted
    have hlt : ∀ x ∈ base, b.1 < x.1 := fun x hx => hlt x.1 (mem_map_of_mem hx)
    obtain ⟨w, hw, hwover, hwclock, hwprev, hwcur, hwr⟩ :=
      mergeRecord env floor hr hc hoverlay hb
    rw [← hwprev] at hwcur hwr
    obtain ⟨v', hv', hover, hclock, hcur, hok, hmono, hbase⟩ := ih hwr hwcur hwover hsorted
      (fun x hx => by rw [hwprev]; exact beyond_some.mpr (hlt x hx))
    rw [hwprev] at hok hmono
    rw [overBase_merge hb hlt hmono] at hok
    refine ⟨v', ?_, hover, hclock.trans hwclock, hcur, hok,
      fun k hk => beyond_trans hb (beyond_some.mp (hmono k hk)), ?_⟩
    · rw [map_cons, foldlM_cons, hw]
      exact hv'
    · refine forall_mem_cons.mpr ⟨Bool.eq_false_iff.mpr fun hbx => ?_, hbase⟩
      exact lt_irrefl _ (beyond_some.mp (hmono _ hbx))

theorem overBase_update (hb : ∀ x ∈ base, x.1 ≠ b.1) :
    overBase f base (update σ b.1 (f b)) = overBase f (b :: base) σ := by
  funext k
  rw [overBase_cons]
  by_cases hk : b.1 = k
  · subst hk
    rw [if_pos rfl, overBase_of_not_mem hb, update_self]
  · rw [if_neg hk]
    unfold overBase
    rw [update_of_ne (Ne.symm hk)]

theorem RestoreVars.leftoverBase (hr : v.r.Ok nowUs e₀ S σ) (hoverlay : v.overlay = false)
    (hnodup : (base.map Prod.fst).Nodup) (hnew : ∀ b ∈ base, b.1 ∉ S) :
    ∃ v', (base.map BaseRecord.record).foldlM (next env false floor) v = .ok v' ∧
      v'.overlay = false ∧ v'.clock = v.clock ∧
      (∀ k, k ∈ v'.leftover ↔ k ∈ v.leftover ∧ ∀ b ∈ base, b.1 ≠ k) ∧
      v'.r.Ok nowUs e₀ Set.univ
        (overBase (fun b => restoredCell env.clock floor nowUs b.1 b.2.1 b.2.2 (e₀ b.1)) base σ) := by
  induction base generalizing v σ S with
  | nil => exact ⟨v, rfl, hoverlay, rfl, by simp, hr.mono (Set.subset_univ S)⟩
  | cons b base ih =>
    obtain ⟨hb, hnodup⟩ := nodup_cons.mp hnodup
    have hb : ∀ x ∈ base, x.1 ≠ b.1 := fun x hx heq => hb (heq ▸ mem_map_of_mem hx)
    have hok := hr.restorePut (hnew b mem_cons_self) env.clock floor b.2.1 b.2.2
    have hnext : v.next env false floor b.record = .ok { v with
        r := v.r.restorePut env.clock floor b.1 b.2.1 b.2.2
        leftover := v.leftover.filter (· ≠ b.1) } := by
      unfold next BaseRecord.record
      simp only [hoverlay, Bool.false_eq_true, if_false]
    have hnew' : ∀ x ∈ base, x.1 ∉ insert b.1 S := by
      intro x hx hmem
      rcases Set.mem_insert_iff.mp hmem with heq | hmem
      · exact hb x hx heq
      · exact hnew x (mem_cons_of_mem b hx) hmem
    obtain ⟨v', hv', hover, hclock, hleft, hok'⟩ :=
      ih (v := { v with
        r := v.r.restorePut env.clock floor b.1 b.2.1 b.2.2
        leftover := v.leftover.filter (· ≠ b.1) }) hok hoverlay hnodup hnew'
    refine ⟨v', ?_, hover, hclock, ?_, ?_⟩
    · rw [map_cons, foldlM_cons, hnext]
      exact hv'
    · intro k
      rw [hleft k, mem_filter, decide_eq_true_iff, forall_mem_cons, and_assoc, ne_comm]
    · rw [← overBase_update hb]
      exact hok'

theorem Restorer.Ok.deleteAll (h : r.Ok nowUs e₀ Set.univ σ) (ks : List Key) :
    (ks.foldl (fun r k => r.delete k) r).Ok nowUs e₀ Set.univ
      (fun k => if k ∈ ks then none else σ k) := by
  induction ks generalizing r σ with
  | nil => simpa using h
  | cons x ks ih =>
    have hnext := ih (h.delete (Set.mem_univ x))
    have hsame : (fun k => if k ∈ ks then none else update σ x none k) =
        fun k => if k ∈ x :: ks then none else σ k := by
      funext k
      by_cases hk : k = x
      · subst hk
        simp
      · simp [hk]
    rw [hsame] at hnext
    exact hnext

end Base

/-! ## Snapshots -/

/-- A record of the overlay: the key, its cell if it is not deleted, and the readings of
its restore. -/
abbrev OverlayRecord := Key × Option Cell × Readings

/-- A snapshot as a capture with a started clock writes it, and the readings of the
local clock that its restore takes at each record. -/
structure Snapshot where
  sorted : Bool
  start : RaftClock
  base : List BaseRecord
  overlay : List OverlayRecord
  clock : RaftClock
  started : 0 < start.floor
  floor_eq : clock.floor = start.floor
  nodup : (base.map Prod.fst).Nodup
  ascending : sorted = true → (base.map Prod.fst).Pairwise (· < ·)
  base_expiry : ∀ b ∈ base, 0 ≤ b.2.1.2.2
  overlay_expiry : ∀ o ∈ overlay, ∀ c, o.2.1 = some c → 0 ≤ c.2.2

def OverlayRecord.record (o : OverlayRecord) : SnapRecord × Readings :=
  (match o.2.1 with
    | some c => .recPutV o.1 c
    | none => .recDel o.1, o.2.2)

variable (s : Snapshot)

/-- The records in the order in which they are written, with readings `m`,
`o` and `c` at those that name no key. -/
def Snapshot.records (m o c : Readings) : List (SnapRecord × Readings) :=
  (.recMeta s.sorted s.start.floor s.start.last, m) ::
    (s.base.map BaseRecord.record ++ (.recOverlay, o) ::
      (s.overlay.map OverlayRecord.record ++ [(.recClock s.clock.last s.clock.floor, c)]))

def Snapshot.described (s : Snapshot) : Keyspace :=
  VeltrixDB.Storage.described ((s.records ⟨0, 0, 0⟩ ⟨0, 0, 0⟩ ⟨0, 0, 0⟩).map Prod.fst)

/-- The time at which the restore judges deadlines of records, 0 for the local
clock. -/
def Snapshot.expiryNow (env : RestoreEnv) : Int :=
  if 0 < s.start.last ∧ s.start.last < env.startUs then s.start.last else 0

def overlayCell (nowUs : Int) (σ : Keyspace) (o : OverlayRecord) : Keyspace :=
  update σ o.1 (o.2.1.bind fun c => putCellAt nowUs o.2.2.secondUs o.1 c (σ o.1))

def Snapshot.outcome (env : RestoreEnv) (e₀ : Keyspace) : Keyspace :=
  s.overlay.foldl (overlayCell (s.expiryNow env))
    (overBase (fun b => restoredCell env.clock s.start.floor (s.expiryNow env) b.1 b.2.1 b.2.2
      (e₀ b.1)) s.base fun _ => none)

open Snapshot

section Restore

variable {env : RestoreEnv} {floor nowUs : Int} {σ : Keyspace} {t : KeyTable} {v : RestoreVars}

namespace RestoreVars

/-- The end of the base: what the engine held besides is deleted. -/
theorem endMerge (env : RestoreEnv) (floor : Int)
    (hr : v.r.Ok nowUs t.find {k | beyond v.prev k = false}
      (overBase f base fun k => if beyond none k && !beyond v.prev k then none else t.find k))
    (hc : v.cur.At t v.prev) (hoverlay : v.overlay = false)
    (hbase : ∀ b ∈ base, beyond v.prev b.1 = false) (rd : Readings) :
    ∃ v', v.next env true floor (.recOverlay, rd) = .ok v' ∧ v'.overlay = true ∧
      v'.clock = v.clock ∧ v'.r.Ok nowUs t.find Set.univ (overBase f base fun _ => none) := by
  have hstart : v.r.Ok nowUs t.find (upTo v.prev none) _ :=
    hr.mono fun k hk => ⟨hk, fun h => (by cases h)⟩
  obtain ⟨q, hok, -, -, -, -⟩ := hstart.merge hc (mergeFuel_gt hr v.cur)
    (fun x b _ hb => (by cases hb))
  have hnext : v.next env true floor (.recOverlay, rd) = .ok { v with
      r := (mergeTo none (mergeFuel v.r v.cur) v.r v.cur).1
      cur := (mergeTo none (mergeFuel v.r v.cur) v.r v.cur).2
      overlay := true } := by
    unfold next
    simp only [hoverlay, Bool.false_eq_true, if_false, if_true]
  refine ⟨_, hnext, rfl, rfl, ?_⟩
  have hsame : passed v.prev none
      (overBase f base fun k => if beyond none k && !beyond v.prev k then none else t.find k) =
      overBase f base fun _ => none := by
    funext k
    unfold passed
    rw [show before none k = true from rfl, Bool.and_true]
    rcases overBase_cases base k with ⟨b, hb, rfl, heq⟩ | ⟨-, heq⟩
    · rw [heq, heq, hbase b hb, if_neg Bool.false_ne_true]
    · rw [heq, heq]
      cases hk : beyond v.prev k with
      | true | false => rfl
  rw [hsame] at hok
  exact hok.mono (Set.subset_univ _)

theorem endLeftover (env : RestoreEnv) (floor : Int)
    (hr : v.r.Ok nowUs t.find Set.univ (overBase f base t.find)) (hoverlay : v.overlay = false)
    (hleft : ∀ k, k ∈ v.leftover ↔ k ∈ t.keys ∧ ∀ b ∈ base, b.1 ≠ k) (rd : Readings) :
    ∃ v', v.next env false floor (.recOverlay, rd) = .ok v' ∧ v'.overlay = true ∧
      v'.clock = v.clock ∧ v'.r.Ok nowUs t.find Set.univ (overBase f base fun _ => none) := by
  have hnext : v.next env false floor (.recOverlay, rd) = .ok { v with
      r := (env.range v.leftover).foldl (fun r k => r.delete k) v.r
      leftover := []
      overlay := true } := by
    unfold next
    simp only [hoverlay, Bool.false_eq_true, if_false]
  refine ⟨_, hnext, rfl, rfl, ?_⟩
  have hok := hr.deleteAll (env.range v.leftover)
  have hsame : (fun k => if k ∈ env.range v.leftover then none else overBase f base t.find k) =
      overBase f base fun _ => none := by
    funext k
    have hmem : k ∈ env.range v.leftover ↔ k ∈ t.keys ∧ ∀ b ∈ base, b.1 ≠ k :=
      (env.range_perm v.leftover).mem_iff.trans (hleft k)
    rcases overBase_cases base k with ⟨b, hb, hkey, heq⟩ | ⟨hne, heq⟩
    · rw [heq, heq, if_neg fun hk => (hmem.mp hk).2 b hb hkey]
    · rw [heq, heq]
      by_cases hk : k ∈ t.keys
      · rw [if_pos (hmem.mpr ⟨hk, hne⟩)]
      · rw [if_neg fun hk' => hk (hmem.mp hk').1, ← Option.not_isSome_iff_eq_none, ← t.mem_keys]
        exact hk
  rw [hsame] at hok
  exact hok

theorem overlayAll (env : RestoreEnv) (merge : Bool) (floor : Int)
    (overlay : List OverlayRecord) (hr : v.r.Ok nowUs t.find Set.univ σ) (hoverlay : v.overlay = true) :
    ∃ v', (overlay.map OverlayRecord.record).foldlM (next env merge floor) v = .ok v' ∧
      v'.overlay = true ∧ v'.clock = v.clock ∧
      v'.r.Ok nowUs t.find Set.univ (overlay.foldl (overlayCell nowUs) σ) := by
  induction overlay generalizing v σ with
  | nil => exact ⟨v, rfl, hoverlay, rfl, hr⟩
  | cons o overlay ih =>
    obtain ⟨r', hnext, hok⟩ : ∃ r', v.next env merge floor (OverlayRecord.record o) =
        .ok { v with r := r' } ∧ r'.Ok nowUs t.find Set.univ (overlayCell nowUs σ o) := by
      obtain ⟨k, c, rd⟩ := o
      cases c with
      | some c =>
        refine ⟨v.r.put rd.secondUs k c, ?_, hr.put (Set.mem_univ k) rd.secondUs c⟩
        unfold next OverlayRecord.record
        simp only [hoverlay, if_true]
      | none =>
        refine ⟨v.r.delete k, ?_, hr.delete (Set.mem_univ k)⟩
        unfold next OverlayRecord.record
        simp only [hoverlay, if_true]
    obtain ⟨v', hv', hover, hclock, hok'⟩ := ih (v := { v with r := r' }) hok hoverlay
    refine ⟨v', ?_, hover, hclock, hok'⟩
    rw [map_cons, foldlM_cons, hnext]
    exact hv'

theorem foldlM_append {f : RestoreVars → SnapRecord × Readings →
    Except RestoreError RestoreVars} {xs ys : List (SnapRecord × Readings)} {v w u : RestoreVars}
    (hxs : xs.foldlM f v = .ok w) (hys : ys.foldlM f w = .ok u) :
    (xs ++ ys).foldlM f v = .ok u := by
  rw [List.foldlM_append, hxs]
  exact hys

end RestoreVars

theorem Restorer.ok_init (t : KeyTable) (nowUs : Int) (S : Set Key) :
    (init t nowUs).r.Ok nowUs t.find S t.find :=
  ⟨rfl, fun p hp => (by cases hp), rfl, fun e he => (by cases he), fun k _ => rfl⟩

namespace RestoreVars

theorem wholeBase (env : RestoreEnv) (merge : Bool) (floor nowUs : Int) (t : KeyTable)
    (hnodup : (base.map Prod.fst).Nodup)
    (hsorted : merge = true → (base.map Prod.fst).Pairwise (· < ·)) (rd : Readings) :
    ∃ v, (base.map BaseRecord.record ++ [(SnapRecord.recOverlay, rd)]).foldlM
        (next env merge floor) (.init t nowUs) = .ok v ∧
      v.overlay = true ∧ v.clock = ⟨0, 0⟩ ∧
      v.r.Ok nowUs t.find Set.univ
        (overBase (fun b => restoredCell env.clock floor nowUs b.1 b.2.1 b.2.2 (t.find b.1)) base
          fun _ => none) := by
  cases merge with
  | true =>
    obtain ⟨v, hv, hover, hclock, hcur, hok, -, hbase⟩ := mergeBase
      (ok_init t nowUs _) (EngineKeyCursor.at_start t) rfl (hsorted rfl)
      (fun b _ => rfl)
    obtain ⟨v', hv', hover', hclock', hok'⟩ := endMerge env floor hok hcur hover hbase rd
    refine ⟨v', foldlM_append hv ?_, hover', hclock'.trans hclock, hok'⟩
    rw [foldlM_cons, hv']
    rfl
  | false =>
    obtain ⟨v, hv, hover, hclock, hleft, hok⟩ := leftoverBase
      (ok_init t nowUs ∅) rfl hnodup (fun b _ hb => hb)
    obtain ⟨v', hv', hover', hclock', hok'⟩ := endLeftover env floor hok hover hleft rd
    refine ⟨v', foldlM_append hv ?_, hover', hclock'.trans hclock, hok'⟩
    rw [foldlM_cons, hv']
    rfl

end RestoreVars

theorem Snapshot.restore_eq (env : RestoreEnv) (t : KeyTable) (m o c : Readings) :
    ∃ t' : KeyTable, restoreSnapshot env t (s.records m o c) = .ok (t', s.clock) ∧
      t'.find = s.outcome env t.find := by
  have hsorted : (s.sorted && env.ordered) = true → (s.base.map Prod.fst).Pairwise (· < ·) :=
    fun h => s.ascending (Bool.and_eq_true_iff.mp h).1
  obtain ⟨v, hv, hover, -, hok⟩ := RestoreVars.wholeBase env (s.sorted && env.ordered)
    s.start.floor (s.expiryNow env) t s.nodup hsorted o
  obtain ⟨v', hv', hover', -, hok'⟩ := RestoreVars.overlayAll env (s.sorted && env.ordered)
    s.start.floor s.overlay hok hover
  refine ⟨v'.r.flush.se, ?_, ?_⟩
  · have hclock : [(SnapRecord.recClock s.clock.last s.clock.floor, c)].foldlM
        (RestoreVars.next env (s.sorted && env.ordered) s.start.floor) v' =
        .ok { v' with clock := s.clock } := rfl
    have hall := RestoreVars.foldlM_append hv (RestoreVars.foldlM_append hv' hclock)
    rw [append_assoc, singleton_append] at hall
    unfold expiryNow at hall
    show Except.bind (List.foldlM _ _ _) _ = _
    rw [show List.foldlM _ _ _ = _ from hall]
    rw [hover']
    rfl
  · rw [find_flush, hok'.flushed]
    rfl

end Restore

/-! ## When the keyspace is the snapshot's -/

/-- The value, the deadline and the version token of a cell that is live at
`nowUs`. -/
def Cell.shown (floorUs nowUs : Int) (c : Option Cell) : Option (List UInt8 × Int × Nat) :=
  (c.bind (Cell.at nowUs)).map fun c => (c.2.1, c.2.2, c.token floorUs)

/-- What the engine holds under the key of a base record, the restore leaves or makes
as the record says: an entry that the engine counts as expired is so at
`nowUs`, if the record is; and an entry that is kept for a record without a
stamp has the legacy version. -/
def BaseRecord.Restorable (floor expiryNow nowUs : Int) (b : BaseRecord) (e : Option Cell) : Prop :=
  (b.2.1.at (expiryTime expiryNow b.2.2.firstUs) = none → ∀ c, e = some c →
    readForSnapshot clock b.2.2.entryUs e = none → c.at nowUs = none) ∧
  (b.2.1.at nowUs ≠ none → b.2.1.1 = 0 → ∀ c, readForSnapshot clock b.2.2.entryUs e = some c →
    c.2 = b.2.1.2 → c.token floor = legacyVersion)

/-- What the restore leaves of the engine's own cell under the reserved key. -/
def Snapshot.reserved (env : RestoreEnv) (e : Option Cell) : Option Cell :=
  if ∃ o ∈ s.overlay, o.1 = appliedMarkerKey ∧ o.2.1 = none then none
  else
    overBase (fun b => if b.2.1.at (expiryTime (s.expiryNow env) b.2.2.firstUs) = none ∧
      (readForSnapshot env.clock b.2.2.entryUs e).isSome = true then none else e) s.base
      (fun _ => none) appliedMarkerKey

section Shown

variable {floor nowUs : Int} {c : Cell}

theorem Cell.at_eq (nowUs : Int) (c : Cell) :
    c.at nowUs = if 0 < c.2.2 ∧ c.2.2 ≤ nowUs then none else some c := by
  unfold Cell.at unexpired
  split <;> rfl

theorem Cell.shown_none (floor nowUs : Int) : shown floor nowUs none = none := rfl

theorem Cell.shown_of_at_none (h : c.at nowUs = none) : shown floor nowUs (some c) = none := by
  unfold shown
  rw [Option.bind_some, h]
  rfl

theorem Cell.shown_of_at_ne_none (h : c.at nowUs ≠ none) :
    shown floor nowUs (some c) = some (c.2.1, c.2.2, c.token floor) := by
  have heq : c.at nowUs = some c := by
    rw [at_eq] at h ⊢
    split at h
    · exact absurd rfl h
    next hexp => rw [if_neg hexp]
  unfold shown
  rw [Option.bind_some, heq]
  rfl

theorem Cell.shown_eq_none_iff : shown floor nowUs (some c) = none ↔ c.at nowUs = none := by
  constructor
  · intro h
    by_contra hne
    rw [shown_of_at_ne_none hne] at h
    cases h
  · exact shown_of_at_none

/-- The deadline alone decides whether a cell is expired. -/
theorem Cell.at_congr {c c' : Cell} (h : c.2.2 = c'.2.2) : c.at nowUs = none ↔ c'.at nowUs = none := by
  rw [at_eq, at_eq, h]
  split
  · exact iff_of_true rfl rfl
  · exact iff_of_false (fun h => (by cases h)) fun h => (by cases h)

theorem Cell.shown_restored (hc : 0 ≤ c.2.2) :
    shown floor nowUs (some c.restored) = shown floor nowUs (some c) := by
  have hdeadline : c.restored.2.2 = c.2.2 := by
    show (if 0 < c.2.2 then c.2.2 else 0) = c.2.2
    split <;> omega
  have htoken : c.restored.token floor = c.token floor := by
    unfold token restored legacyStampUs legacyVersion
    by_cases hle : c.1 ≤ 0
    · simp only [hle, if_true]
      split <;> rfl
    · simp only [hle, if_false]
  by_cases hat : c.at nowUs = none
  · rw [shown_of_at_none hat, shown_of_at_none ((at_congr hdeadline).mpr hat)]
  · rw [shown_of_at_ne_none hat,
      shown_of_at_ne_none fun h => hat ((at_congr hdeadline).mp h), hdeadline, htoken]
    rfl

theorem Cell.shown_putCellAt {expiryNow localUs : Int} {key : Key} (hkey : key ≠ appliedMarkerKey)
    (hc : 0 ≤ c.2.2) (hnow : expiryTime expiryNow localUs ≤ nowUs) (e : Option Cell) :
    shown floor nowUs (putCellAt expiryNow localUs key c e) =
      shown floor nowUs (some c) := by
  unfold putCellAt
  rw [if_neg hkey]
  split
  next hexp =>
    have hnone := at_eq_none_of_le (Option.isNone_iff_eq_none.mp hexp) hnow
    rw [shown_of_at_none hnone, shown_none]
  · exact shown_restored hc

/-- Versions that count as the same have one token, unless the snapshot's is
unknown. -/
theorem Cell.token_eq_iff {e : Cell} (hfloor : 0 < floor) (h : sameVersion e.1 c.1 floor = true) :
    e.token floor = c.token floor ↔ (c.1 = 0 → e.token floor = legacyVersion) := by
  unfold sameVersion at h
  have hlegacy : c.1 = 0 → c.token floor = legacyVersion := by
    intro hzero
    unfold token
    rw [if_pos (.inl (by omega))]
  split at h
  next hsame =>
    rcases hsame with heq | hzero | hnot
    · have htoken : e.token floor = c.token floor := by
        unfold token
        rw [heq]
      refine iff_of_true htoken fun hzero => ?_
      rw [htoken]
      exact hlegacy hzero
    · rw [hlegacy hzero]
      exact ⟨fun h _ => h, fun h => h hzero⟩
    · omega
  · obtain ⟨he, hc⟩ := Bool.and_eq_true_iff.mp h
    have hlow : ∀ x : Cell, x.1 < floor → x.token floor = legacyVersion := by
      intro x hx
      unfold token
      rw [if_pos (.inr ⟨hfloor, hx⟩)]
    rw [hlow e (of_decide_eq_true he), hlow c (of_decide_eq_true hc)]
    exact iff_of_true rfl fun _ => rfl

theorem readForSnapshot_eq_some {clock : RaftClock} {localUs : Int} {e : Option Cell}
    (h : readForSnapshot clock localUs e = some c) : e = some c := by
  obtain ⟨c', rfl, hc'⟩ := Option.bind_eq_some_iff.mp h
  rw [at_eq] at hc'
  split at hc'
  · cases hc'
  · exact hc'

theorem BaseRecord.shown_restored_iff {expiryNow : Int}
    (hkey : b.1 ≠ appliedMarkerKey) (hfloor : 0 < floor) (hc : 0 ≤ b.2.1.2.2)
    (hfirst : expiryTime expiryNow b.2.2.firstUs ≤ nowUs)
    (hsecond : expiryTime expiryNow b.2.2.secondUs ≤ nowUs) (e : Option Cell) :
    shown floor nowUs (restoredCell clock floor expiryNow b.1 b.2.1 b.2.2 e) =
        shown floor nowUs (some b.2.1) ↔ b.Restorable clock floor expiryNow nowUs e := by
  unfold restoredCell BaseRecord.Restorable
  generalize hcur : readForSnapshot clock b.2.2.entryUs e = cur
  by_cases hexp : b.2.1.at (expiryTime expiryNow b.2.2.firstUs) = none
  · -- the record is expired: nothing may show
    have hnone := at_eq_none_of_le hexp hfirst
    rw [shown_of_at_none hnone, if_pos (Option.isNone_iff_eq_none.mpr hexp)]
    have hrest : (b.2.1.at nowUs ≠ none → b.2.1.1 = 0 → ∀ c, cur = some c →
        c.2 = b.2.1.2 → c.token floor = legacyVersion) := fun h => absurd hnone h
    rw [and_iff_left hrest]
    cases cur with
    | some =>
      exact iff_of_true rfl fun _ _ _ h => (by cases h)
    | none =>
      rw [Option.isSome_none, if_neg Bool.false_ne_true]
      cases e with
      | none => exact iff_of_true rfl fun _ _ h => (by cases h)
      | some x =>
        rw [shown_eq_none_iff]
        refine ⟨fun h _ c hx _ => ?_, fun h => h hexp x rfl rfl⟩
        cases hx
        exact h
  · rw [if_neg fun h => hexp (Option.isNone_iff_eq_none.mp h)]
    have hrest : (b.2.1.at (expiryTime expiryNow b.2.2.firstUs) = none → ∀ c, e = some c →
        cur = none → c.at nowUs = none) := fun h => absurd h hexp
    rw [and_iff_right hrest]
    by_cases hsame : cur.any (fun e => e.sameAs b.2.1 floor) = true
    · -- the engine's entry is kept
      rw [if_pos hsame]
      cases cur with
      | none => cases hsame
      | some x =>
        obtain ⟨heq, hversion⟩ := Bool.and_eq_true_iff.mp (hsame : x.sameAs b.2.1 floor = true)
        have heq : x.2 = b.2.1.2 := of_decide_eq_true heq
        have htoken := token_eq_iff hfloor hversion
        rw [readForSnapshot_eq_some hcur]
        by_cases hat : b.2.1.at nowUs = none
        · have hat' := (at_congr (congrArg Prod.snd heq)).mpr hat
          rw [shown_of_at_none hat, shown_of_at_none hat']
          exact iff_of_true rfl fun h => absurd hat h
        · have hat' : x.at nowUs ≠ none := fun h =>
            hat ((at_congr (congrArg Prod.snd heq)).mp h)
          rw [shown_of_at_ne_none hat, shown_of_at_ne_none hat', heq, Option.some_inj,
            Prod.mk.injEq, Prod.mk.injEq, and_iff_right rfl, and_iff_right rfl, htoken]
          constructor
          · rintro h - hzero c hc -
            cases hc
            exact h hzero
          · exact fun h hzero => h hat hzero x rfl heq
    · -- the record is written
      rw [if_neg hsame]
      refine iff_of_true (shown_putCellAt hkey hc hsecond e) ?_
      intro _ hzero c hcur' heq
      exfalso
      apply hsame
      rw [hcur']
      show c.sameAs b.2.1 floor = true
      unfold sameAs sameVersion
      rw [decide_eq_true heq, if_pos (.inr (.inl hzero))]
      rfl

end Shown

section Outcome

variable {floor nowUs expiryNow : Int} {σ τ : Keyspace} {k : Key}

theorem write_base (hnodup : (base.map Prod.fst).Nodup) (σ : Keyspace) :
    σ.write ((base.map fun b => (BaseRecord.record b).1).flatMap SnapRecord.change) =
      overBase (fun b => some b.2.1) base σ := by
  induction base generalizing σ with
  | nil => rfl
  | cons b base ih =>
    obtain ⟨hb, hnodup⟩ := nodup_cons.mp hnodup
    have hb : ∀ x ∈ base, x.1 ≠ b.1 := fun x hx heq => hb (heq ▸ mem_map_of_mem hx)
    rw [← overBase_update hb, ← ih hnodup]
    rfl

theorem overlay_changes (overlay : List OverlayRecord) :
    (overlay.map fun o => (OverlayRecord.record o).1).flatMap SnapRecord.change =
      overlay.map fun o => (o.1, o.2.1) := by
  induction overlay with
  | nil => rfl
  | cons o overlay ih =>
    obtain ⟨key, c, rd⟩ := o
    rw [map_cons, flatMap_cons, ih]
    cases c with
    | some | none => rfl

theorem Snapshot.described_eq :
    s.described = (overBase (fun b => some b.2.1) s.base fun _ => none).write
      (s.overlay.map fun o => (o.1, o.2.1)) := by
  have hchanges : ((s.records ⟨0, 0, 0⟩ ⟨0, 0, 0⟩ ⟨0, 0, 0⟩).map Prod.fst).flatMap SnapRecord.change =
      (s.base.map fun b => (BaseRecord.record b).1).flatMap SnapRecord.change ++
        s.overlay.map fun o => (o.1, o.2.1) := by
    rw [← overlay_changes]
    unfold records
    simp [SnapRecord.change, comp_def]
  unfold described VeltrixDB.Storage.described
  rw [hchanges, Keyspace.write_append, write_base s.nodup]

theorem shown_overlay {overlay : List OverlayRecord} (hkey : k ≠ appliedMarkerKey)
    (hexp : ∀ o ∈ overlay, ∀ c, o.2.1 = some c → 0 ≤ c.2.2)
    (hnow : ∀ o ∈ overlay, expiryTime expiryNow o.2.2.secondUs ≤ nowUs) :
    ((∃ o ∈ overlay, o.1 = k) ∧
      shown floor nowUs (overlay.foldl (overlayCell expiryNow) σ k) =
        shown floor nowUs (τ.write (overlay.map fun o => (o.1, o.2.1)) k)) ∨
    ((∀ o ∈ overlay, o.1 ≠ k) ∧ overlay.foldl (overlayCell expiryNow) σ k = σ k ∧
      τ.write (overlay.map fun o => (o.1, o.2.1)) k = τ k) := by
  induction overlay using List.reverseRecOn with
  | nil => exact .inr ⟨fun o ho => (by cases ho), rfl, rfl⟩
  | append_singleton overlay o ih =>
    have hmem : o ∈ overlay ++ [o] := mem_append_right _ (mem_singleton_self o)
    rw [foldl_append, map_append, map_singleton, Keyspace.write_concat]
    generalize hσ : overlay.foldl (overlayCell expiryNow) σ = σ' at ih ⊢
    obtain ⟨key, c, rd⟩ := o
    by_cases hk : key = k
    · subst hk
      refine .inl ⟨⟨_, hmem, rfl⟩, ?_⟩
      rw [update_self]
      rw [foldl_cons, foldl_nil]
      unfold overlayCell
      rw [update_self]
      cases c with
      | none => rfl
      | some c => exact shown_putCellAt hkey (hexp _ hmem c rfl) (hnow _ hmem) _
    · have hσ' : overlayCell expiryNow σ' (key, c, rd) k = σ' k :=
        update_of_ne (Ne.symm hk) ..
      rw [update_of_ne (Ne.symm hk), foldl_cons, foldl_nil, hσ']
      rcases ih (fun o ho => hexp o (mem_append_left _ ho))
        (fun o ho => hnow o (mem_append_left _ ho)) with ⟨⟨o, ho, hok⟩, heq⟩ | ⟨hne, heq⟩
      · exact .inl ⟨⟨o, mem_append_left _ ho, hok⟩, heq⟩
      · exact .inr ⟨forall_mem_append.mpr ⟨hne, forall_mem_singleton.mpr hk⟩, heq⟩

theorem overlay_reserved (expiryNow : Int) (overlay : List OverlayRecord) (σ : Keyspace) :
    overlay.foldl (overlayCell expiryNow) σ appliedMarkerKey =
      if ∃ o ∈ overlay, o.1 = appliedMarkerKey ∧ o.2.1 = none then none
      else σ appliedMarkerKey := by
  induction overlay generalizing σ with
  | nil => simp
  | cons o overlay ih =>
    obtain ⟨key, c, rd⟩ := o
    rw [foldl_cons, ih]
    have hcons : (∃ o ∈ (key, c, rd) :: overlay, o.1 = appliedMarkerKey ∧ o.2.1 = none) ↔
        (key = appliedMarkerKey ∧ c = none) ∨
          ∃ o ∈ overlay, o.1 = appliedMarkerKey ∧ o.2.1 = none := by
      simp
    by_cases hrest : ∃ o ∈ overlay, o.1 = appliedMarkerKey ∧ o.2.1 = none
    · rw [if_pos hrest, if_pos (hcons.mpr (.inr hrest))]
    · rw [if_neg hrest]
      by_cases hkey : key = appliedMarkerKey
      · subst hkey
        unfold overlayCell
        rw [update_self]
        cases c with
        | none => rw [if_pos (hcons.mpr (.inl ⟨rfl, rfl⟩)), Option.bind_none]
        | some c =>
          rw [if_neg fun h => (hcons.mp h).elim (fun h => (by cases h.2)) hrest]
          show putCellAt expiryNow rd.secondUs appliedMarkerKey c (σ appliedMarkerKey) = _
          exact if_pos rfl
      · rw [if_neg fun h => (hcons.mp h).elim (fun h => hkey h.1) hrest]
        exact update_of_ne (Ne.symm hkey) ..

theorem Snapshot.outcome_reserved (env : RestoreEnv) (e₀ : Keyspace) :
    s.outcome env e₀ appliedMarkerKey = s.reserved env (e₀ appliedMarkerKey) := by
  unfold outcome reserved
  rw [overlay_reserved]
  split
  · rfl
  · rcases overBase_cases s.base appliedMarkerKey with ⟨b, -, hkey, heq⟩ | ⟨-, heq⟩
    · rw [heq, heq, hkey]
      unfold restoredCell putCellAt
      rw [if_pos rfl, ite_self]
      split
      next hexp =>
        have hexp := Option.isNone_iff_eq_none.mp hexp
        simp only [hexp, true_and]
      next hexp => rw [if_neg fun h => hexp (Option.isNone_iff_eq_none.mpr h.1)]
    · rw [heq, heq]

end Outcome

/-- The deadlines of records are judged at times up to `nowUs`. -/
def Snapshot.JudgedBy (env : RestoreEnv) (nowUs : Int) : Prop :=
  (∀ b ∈ s.base, expiryTime (s.expiryNow env) b.2.2.firstUs ≤ nowUs ∧
    expiryTime (s.expiryNow env) b.2.2.secondUs ≤ nowUs) ∧
  ∀ o ∈ s.overlay, expiryTime (s.expiryNow env) o.2.2.secondUs ≤ nowUs

/-- A key that is not reserved shows as the snapshot says, if the record in force is of
the overlay, or of the base and the engine's entry can be left or made so. -/
theorem Snapshot.shown_outcome_iff {env : RestoreEnv} {nowUs : Int}
    (hnow : s.JudgedBy env nowUs) (e₀ : Keyspace) {k : Key} (hkey : k ≠ appliedMarkerKey) :
    shown s.start.floor nowUs (s.outcome env e₀ k) =
        shown s.start.floor nowUs (s.described k) ↔
      ∀ b ∈ s.base, b.1 = k → (∀ o ∈ s.overlay, o.1 ≠ k) →
        b.Restorable env.clock s.start.floor (s.expiryNow env) nowUs (e₀ k) := by
  rw [s.described_eq]
  unfold outcome
  rcases shown_overlay hkey s.overlay_expiry hnow.2 with ⟨⟨o, ho, hok⟩, heq⟩ | ⟨hne, hσ, hτ⟩
  · exact iff_of_true heq fun b _ _ hno => absurd hok (hno o ho)
  · rw [hσ, hτ]
    rcases overBase_cases s.base k with ⟨b, hb, rfl, heq⟩ | ⟨hnb, heq⟩
    · have hiff := BaseRecord.shown_restored_iff env.clock hkey s.started (s.base_expiry b hb)
        (hnow.1 b hb).1 (hnow.1 b hb).2 (e₀ b.1)
      rw [heq, heq, hiff]
      constructor
      · intro h b' hb' hkey' _
        rw [inj_on_of_nodup_map s.nodup hb' hb hkey']
        exact h
      · exact fun h => h b hb rfl hne
    · rw [heq, heq]
      exact iff_of_true rfl fun b hb hk => absurd hk (hnb b hb)

/-- A restore, in either mode and from any content, returns; and at the time up to
which it judged deadlines the keyspace shows the snapshot's values, deadlines and
version tokens, and the clock is the snapshot's, just when of each base record that
the overlay leaves in force the engine's own entry can be left or made so, and what
is left of its entry under the reserved key shows as the snapshot's. -/
theorem Snapshot.restore_eq_iff (env : RestoreEnv) (t : KeyTable)
    (m o c : Readings) {nowUs : Int} (hnow : s.JudgedBy env nowUs) :
    (∃ t', restoreSnapshot env t (s.records m o c) = .ok (t', s.clock) ∧
      ∀ k, shown s.clock.floor nowUs (t'.find k) =
        shown s.clock.floor nowUs (s.described k)) ↔
    (∀ b ∈ s.base, b.1 ≠ appliedMarkerKey → (∀ o ∈ s.overlay, o.1 ≠ b.1) →
      b.Restorable env.clock s.clock.floor (s.expiryNow env) nowUs (t.find b.1)) ∧
    shown s.clock.floor nowUs (s.reserved env (t.find appliedMarkerKey)) =
      shown s.clock.floor nowUs (s.described appliedMarkerKey) := by
  obtain ⟨t', hrestore, hfind⟩ := s.restore_eq env t m o c
  rw [← s.outcome_reserved env t.find, s.floor_eq]
  constructor
  · rintro ⟨t'', hrestore', hshown⟩
    rw [hrestore] at hrestore'
    cases hrestore'
    rw [hfind] at hshown
    refine ⟨fun b hb hkey hover => ?_, hshown _⟩
    exact (s.shown_outcome_iff hnow t.find hkey).mp (hshown b.1) b hb rfl hover
  · rintro ⟨hbase, hreserved⟩
    refine ⟨t', hrestore, fun k => ?_⟩
    rw [hfind]
    by_cases hkey : k = appliedMarkerKey
    · rw [hkey]
      exact hreserved
    · apply (s.shown_outcome_iff hnow t.find hkey).mpr
      rintro b hb rfl hover
      exact hbase b hb hkey hover

def Snapshot.single (b : BaseRecord) (hb : 0 ≤ b.2.1.2.2) : Snapshot where
  sorted := true
  start := ⟨1000, 50⟩
  base := [b]
  overlay := []
  clock := ⟨1200, 50⟩
  started := by decide
  floor_eq := rfl
  nodup := nodup_singleton _
  ascending := fun _ => pairwise_singleton _ _
  base_expiry := by
    intro x hx
    rw [mem_singleton.mp hx]
    exact hb
  overlay_expiry := by
    intro o ho
    cases ho

def aheadEnv : RestoreEnv where
  clock := ⟨5000, 50⟩
  ordered := true
  startUs := 9000
  range := id
  range_perm := fun l => .refl l

/-- The local clock reads 9000 throughout. -/
def late : Readings := ⟨9000, 9000, 9000⟩

/-- The engine's own key is deleted and the snapshot's written. -/
theorem restore_eq_single :
    ∃ t', restoreSnapshot aheadEnv (empty.put [109] (70, [1], 0))
        ((single ([107], (60, [118], 2000), late) (by decide)).records late late late) =
        .ok (t', ⟨1200, 50⟩) ∧
      ∀ k, shown 50 1000 (t'.find k) = shown 50 1000
        ((single ([107], (60, [118], 2000), late) (by decide)).described k) := by
  have hnow : (single ([107], (60, [118], 2000), late) (by decide)).JudgedBy aheadEnv 1000 := by
    refine ⟨fun b hb => ?_, fun o ho => (by cases ho)⟩
    rw [mem_singleton.mp hb]
    decide
  refine (restore_eq_iff _ aheadEnv (empty.put [109] (70, [1], 0))
    late late late hnow).mpr ⟨fun b hb _ _ => ?_, by decide⟩
  rw [mem_singleton.mp hb]
  exact ⟨fun h => absurd h (by decide), fun _ h => absurd h (by decide)⟩

/-- The record is expired at the restore's time, 1000, and the engine's own entry, which
is not, counts as expired at the engine's clock: it is left alone and shows.  A record
under the reserved key is not written. -/
theorem restore_ne_single : (∃ t', restoreSnapshot aheadEnv (empty.put [107] (4000, [119], 4500))
        ((single ([107], (60, [118], 900), late) (by decide)).records late late late) =
        .ok (t', ⟨1200, 50⟩) ∧
      shown 50 1000 (t'.find [107]) = some ([119], 4500, 4000) ∧
      shown 50 1000
        ((single ([107], (60, [118], 900), late) (by decide)).described [107]) = none) ∧
    ∃ t', restoreSnapshot aheadEnv empty
        ((single (appliedMarkerKey, (60, [118], 0), late) (by decide)).records late late
          late) = .ok (t', ⟨1200, 50⟩) ∧
      shown 50 1000 (t'.find appliedMarkerKey) = none ∧
      shown 50 1000
        ((single (appliedMarkerKey, (60, [118], 0), late) (by decide)).described
          appliedMarkerKey) = some ([118], 0, 60) := by
  constructor
  · obtain ⟨t', hrestore, hfind⟩ :=
      (single ([107], (60, [118], 900), late) (by decide)).restore_eq aheadEnv
        (empty.put [107] (4000, [119], 4500)) late late late
    refine ⟨t', hrestore, ?_, by decide⟩
    rw [hfind]
    decide
  · obtain ⟨t', hrestore, hfind⟩ :=
      (single (appliedMarkerKey, (60, [118], 0), late) (by decide)).restore_eq aheadEnv
        empty late late late
    refine ⟨t', hrestore, ?_, by decide⟩
    rw [hfind]
    decide

end VeltrixDB.Storage
