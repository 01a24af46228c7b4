import VeltrixDB.Lib.ByteOrder
import VeltrixDB.Lib.SortedTable
import VeltrixDB.Storage.Index

/-!
# Scanning by cursor

`ScanCursor` reads the keys past a cursor page by page.  The last key of a full page
is the next cursor; the empty string stands for the start and for the end
(`storage/ordered_index.go`).

Main results:

- Theorem `ScanStore.keys_scanCursor`: a page holds the next keys that show.
- Theorem `ScanStore.scan_complete_iff`: when walks return every live key once.
-/

open scoped Bytes

namespace VeltrixDB.Storage

open Function List

/-! ## Pages -/

/-- What a scan finds: the ordered index, the entries, what `Get` returns of a key
if it does not fail, and the local and the raft clock when a key is judged. -/
structure ScanStore where
  ordered : List Key
  entries : Key → Option IndexEntry
  get : Key → Option (List UInt8)
  nowUs : Key → Int
  cutoffUs : Key → Int
  sorted : ordered.Pairwise (· < ·)
  mem_ordered : ∀ k e, entries k = some e → e.flags.tombstone = false → k ∈ ordered

/-- What a call returns, and the store that it leaves. -/
structure ScanPage where
  store : ScanStore
  out : List (Key × List UInt8)
  next : Key

def ScanPage.keys (p : ScanPage) : List Key := p.out.map Prod.fst

namespace ScanStore

variable (s : ScanStore)

def live (k : Key) : Bool :=
  (s.entries k).any fun e => !e.flags.tombstone && !e.isExpired (s.nowUs k)

/-- `markExpired` of a key that is expired at the raft clock. -/
def markExpired (key : Key) : ScanStore :=
  { s with
    ordered := s.ordered.filter (· ≠ key)
    entries := update s.entries key ((s.entries key).map (·.markTombstone (s.nowUs key)))
    sorted := s.sorted.filter _
    mem_ordered := by
      intro k e he ht
      by_cases hk : k = key
      · subst hk
        rw [update_self, Option.map_eq_some_iff] at he
        obtain ⟨e', -, rfl⟩ := he
        cases ht
      · rw [update_of_ne hk] at he
        exact mem_filter.mpr ⟨s.mem_ordered k e he ht, decide_eq_true hk⟩ }

/-- `scanLive`: an expired key is tombstoned on the way. -/
def scanLive (key : Key) : ScanStore × Option (List UInt8) :=
  match s.entries key with
  | none => (s, none)
  | some e =>
    if e.flags.tombstone then (s, none)
    else if e.isExpired (s.nowUs key) then
      (if e.isExpired (s.cutoffUs key) then s.markExpired key else s, none)
    else (s, s.get key)

/-- The calls that `ascend` makes of the callback.  A node that is unlinked
meanwhile still leads to the next one. -/
def scanKeys (limit : Int) (cursor : Key) :
    List Key → ScanStore → List (Key × List UInt8) → ScanStore × List (Key × List UInt8)
  | [], s, out => (s, out)
  | key :: keys, s, out =>
    if key = cursor then scanKeys limit cursor keys s out
    else
      match (s.scanLive key).2 with
      | none => scanKeys limit cursor keys (s.scanLive key).1 out
      | some v =>
        if limit ≤ 0 ∨ (out ++ [(key, v)]).length < limit then
          scanKeys limit cursor keys (s.scanLive key).1 (out ++ [(key, v)])
        else ((s.scanLive key).1, out ++ [(key, v)])

def scanCursor (cursor : Key) (limit : Int) : ScanPage :=
  let r := scanKeys limit cursor (s.ordered.filter (cursor ≤ ·)) s []
  { store := r.1
    out := r.2
    next := if 0 < limit ∧ r.2.length = limit then (r.2.map Prod.fst).getLastD [] else [] }

/-- Follow the cursor for at most `n` pages, while the store changes after each:
the keys that are returned, if the end is reported. -/
def walk (change : Nat → ScanStore → ScanStore) (limit : Int) :
    Nat → ScanStore → Key → Option (List Key)
  | 0, _, _ => none
  | n + 1, s, cursor =>
    let p := s.scanCursor cursor limit
    if p.next = [] then some p.keys
    else (walk change limit n (change n p.store) p.next).map (p.keys ++ ·)

def shows (k : Key) : Bool := s.live k && (s.get k).isSome

def rest (cursor : Key) : List Key :=
  s.ordered.filter fun k => s.shows k && cursor < k

variable {s s' : ScanStore} {limit : Int} {cursor k : Key} {n : Nat} {ks : List Key}

theorem mem_ordered_of_live (h : s.live k = true) : k ∈ s.ordered := by
  simp only [live, Option.any_eq_true, Bool.and_eq_true, Bool.not_eq_true'] at h
  obtain ⟨e, he, ht, -⟩ := h
  exact s.mem_ordered k e he ht

theorem mem_rest : k ∈ s.rest cursor ↔ s.shows k = true ∧ cursor < k := by
  simp only [rest, mem_filter, Bool.and_eq_true, decide_eq_true_iff, and_iff_right_iff_imp]
  exact fun h => mem_ordered_of_live (Bool.and_eq_true_iff.mp h.1).1

theorem pairwise_rest (s : ScanStore) (cursor : Key) : (s.rest cursor).Pairwise (· < ·) :=
  s.sorted.filter _

/-- An expired key that is tombstoned was not live. -/
theorem shows_markExpired (h : s.live k = false) : (s.markExpired k).shows = s.shows := by
  funext x
  by_cases hx : x = k
  · subst hx
    cases he : s.entries x with
    | none => simp [shows, live, markExpired, he]
    | some =>
      have hdead : (s.markExpired x).live x = false := by
        simp [live, markExpired, IndexEntry.markTombstone, he]
      simp [shows, h, hdead]
  · simp [shows, live, markExpired, hx]

theorem scanLive_spec (s : ScanStore) (key : Key) :
    (s.scanLive key).1.shows = s.shows ∧ (s.scanLive key).2.isSome = s.shows key := by
  unfold scanLive
  cases he : s.entries key with
  | none => simp [shows, live, he]
  | some e =>
    cases ht : e.flags.tombstone with
    | true => simp [shows, live, he, ht]
    | false =>
      cases hexp : e.isExpired (s.nowUs key) with
      | false => simp [shows, live, he, ht, hexp]
      | true =>
        have hdead : s.live key = false := by simp [live, he, ht, hexp]
        cases hcut : e.isExpired (s.cutoffUs key) with
        | true => simp [ht, hexp, hcut, shows_markExpired hdead, shows, hdead]
        | false => simp [ht, hexp, hcut, shows, hdead]

theorem scanKeys_spec (hlimit : 1 ≤ limit) (cursor : Key) (keys : List Key) :
    ∀ (s : ScanStore) (out : List (Key × List UInt8)), out.length < limit →
      (scanKeys limit cursor keys s out).1.shows = s.shows ∧
      (scanKeys limit cursor keys s out).2.map Prod.fst =
        (out.map Prod.fst ++ keys.filter fun k => k ≠ cursor && s.shows k).take limit.toNat := by
  induction keys with
  | nil =>
    intro s out hout
    refine ⟨rfl, ?_⟩
    rw [filter_nil, append_nil, take_of_length_le]
    · rfl
    · rw [length_map]
      omega
  | cons key keys ih =>
    intro s out hout
    obtain ⟨hshows, hval⟩ := s.scanLive_spec key
    by_cases hkey : key = cursor
    · simpa [scanKeys, hkey] using ih s out hout
    · simp only [scanKeys, hkey, if_false]
      cases hv : (s.scanLive key).2 with
      | none =>
        rw [hv] at hval
        rw [filter_cons_of_neg (by simp [← hval]), ← hshows]
        exact ih _ out hout
      | some v =>
        rw [hv] at hval
        rw [filter_cons_of_pos (by simp [← hval, hkey]), ← hshows]
        by_cases hmore : (out ++ [(key, v)]).length < limit
        · simp only [hmore, or_true, if_true]
          simpa using ih (s.scanLive key).1 (out ++ [(key, v)]) hmore
        · have hstop : ¬(limit ≤ 0 ∨ (out ++ [(key, v)]).length < limit) := by omega
          have hfull : limit.toNat = out.length + 1 := by
            simp at hmore
            omega
          simp only [hstop, if_false]
          simp [hfull, take_append, take_of_length_le]

theorem keys_scanCursor (hlimit : 1 ≤ limit) (s : ScanStore) (cursor : Key) :
    (s.scanCursor cursor limit).store.shows = s.shows ∧
      (s.scanCursor cursor limit).keys = (s.rest cursor).take limit.toNat := by
  obtain ⟨hshows, hkeys⟩ := scanKeys_spec hlimit cursor (s.ordered.filter (cursor ≤ ·)) s []
    (by simp; omega)
  refine ⟨hshows, hkeys.trans ?_⟩
  rw [map_nil, nil_append, rest, filter_filter]
  congr 2
  funext k
  rw [Bool.eq_iff_iff]
  simp only [Bool.and_eq_true, decide_eq_true_iff, lt_iff_le_and_ne]
  tauto

/-! ## Walks -/

/-- A page ends the walk and holds all keys that are left, or the walk goes on past its
last key. -/
theorem scanCursor_cases (hlimit : 1 ≤ limit) (s : ScanStore) (cursor : Key) :
    ((s.scanCursor cursor limit).next = [] ∧ (s.scanCursor cursor limit).keys = s.rest cursor) ∨
    ((s.scanCursor cursor limit).next ≠ [] ∧
      (s.scanCursor cursor limit).next ∈ (s.scanCursor cursor limit).keys ∧
      s.rest cursor = (s.scanCursor cursor limit).keys ++
        s.rest (s.scanCursor cursor limit).next) := by
  have hkeys := (keys_scanCursor hlimit s cursor).2
  have hnext : (s.scanCursor cursor limit).next =
      if 0 < limit ∧ (s.scanCursor cursor limit).keys.length = limit then
        (s.scanCursor cursor limit).keys.getLastD [] else [] := by
    simp only [ScanPage.keys, length_map]
    rfl
  generalize s.scanCursor cursor limit = p at hkeys hnext ⊢
  have hsplit := take_append_drop limit.toNat (s.rest cursor)
  have hsorted := s.pairwise_rest cursor
  rw [← hkeys] at hsplit
  by_cases hfull : p.keys.length = limit
  · rw [if_pos ⟨by omega, hfull⟩, getLastD_eq_getLast?] at hnext
    cases hlast : p.keys.getLast? with
    | none =>
      rw [getLast?_eq_none_iff.mp hlast] at hfull
      exact absurd hfull (by simp; omega)
    | some =>
      rw [hlast, Option.getD_some] at hnext
      subst hnext
      have hmem := mem_of_getLast? hlast
      have hpast : cursor < p.next := (mem_rest.mp (mem_of_mem_take (hkeys ▸ hmem))).2
      have hbehind : (s.rest cursor).drop limit.toNat = s.rest p.next := by
        rw [← hsplit] at hsorted
        rw [← SortedTable.filter_lt_of_page (p := (p.next < ·)) hsorted hlast (by simp), hsplit,
          rest, filter_filter]
        apply filter_congr
        intro k _
        rw [Bool.eq_iff_iff]
        simp only [Bool.and_eq_true, decide_eq_true_iff]
        exact ⟨fun h => ⟨h.2.1, h.1⟩, fun h => ⟨h.2, h.1, hpast.trans h.2⟩⟩
      rw [hbehind] at hsplit
      refine .inr ⟨fun hnil => ?_, hmem, hsplit.symm⟩
      rw [hnil] at hpast
      exact not_lt_nil _ hpast
  · rw [if_neg fun h => hfull h.2] at hnext
    have hlen := congrArg length hkeys
    rw [length_take] at hlen
    exact .inl ⟨hnext, hkeys.trans (take_of_length_le (by omega))⟩

variable {change : Nat → ScanStore → ScanStore}

/-- A walk that ends returns keys in order, each of which shows at some page, and among
them those that show at every page. -/
theorem walk_spec {Q : (Key → Bool) → Prop} (hlimit : 1 ≤ limit)
    (hchange : ∀ n t, Q (shows t) → Q (change n t).shows) (hs : Q s.shows)
    (h : walk change limit n s cursor = some ks) :
    ks.Pairwise (· < ·) ∧ (∀ k ∈ ks, cursor < k ∧ ∃ f, Q f ∧ f k = true) ∧
      ∀ k, cursor < k → (∀ f, Q f → f k = true) → k ∈ ks := by
  induction n generalizing s cursor ks with
  | zero => cases h
  | succ n ih =>
    have hsorted := s.pairwise_rest cursor
    rw [walk] at h
    rcases scanCursor_cases hlimit s cursor with ⟨hnil, hkeys⟩ | ⟨hne, hlast, hsplit⟩
    · simp only [hnil, hkeys, if_true, Option.some.injEq] at h
      subst h
      refine ⟨hsorted, fun k hk => ?_, fun k hk hall => mem_rest.mpr ⟨hall _ hs, hk⟩⟩
      exact ⟨(mem_rest.mp hk).2, s.shows, hs, (mem_rest.mp hk).1⟩
    · simp only [hne, if_false, Option.map_eq_some_iff] at h
      obtain ⟨ks, hks, rfl⟩ := h
      have hs' := hs
      rw [← (keys_scanCursor hlimit s cursor).1] at hs'
      obtain ⟨hsort, hpast, hall⟩ := ih (hchange n _ hs') hks
      generalize s.scanCursor cursor limit = p at *
      have hmem : ∀ k, k ∈ p.keys ∨ k ∈ s.rest p.next ↔ s.shows k = true ∧ cursor < k := by
        intro k
        rw [← mem_rest, hsplit, mem_append]
      rw [hsplit] at hsorted
      obtain ⟨hpage, -, hcross⟩ := pairwise_append.mp hsorted
      have hle : ∀ k ∈ p.keys, k ≤ p.next := by
        intro k hk
        by_contra hlt
        have hk' := mem_rest.mpr ⟨((hmem k).mp (.inl hk)).1, not_le.mp hlt⟩
        exact lt_irrefl k (hcross k hk k hk')
      refine ⟨pairwise_append.mpr ⟨hpage, hsort, fun a ha b hb => ?_⟩, fun k hk => ?_, ?_⟩
      · exact (hle a ha).trans_lt (hpast b hb).1
      · rcases mem_append.mp hk with hk | hk
        · exact ⟨((hmem k).mp (.inl hk)).2, s.shows, hs, ((hmem k).mp (.inl hk)).1⟩
        · exact ⟨((hmem _).mp (.inl hlast)).2.trans (hpast k hk).1, (hpast k hk).2⟩
      · intro k hk hshow
        rcases (hmem k).mpr ⟨hshow _ hs, hk⟩ with hk' | hk'
        · exact mem_append_left _ hk'
        · exact mem_append_right _ (hall k (mem_rest.mp hk').2 hshow)

theorem walk_ends (hlimit : 1 ≤ limit) (hn : (s.rest cursor).length < n) :
    ∃ ks, walk (fun _ t => t) limit n s cursor = some ks := by
  induction n generalizing s cursor with
  | zero => cases hn
  | succ n ih =>
    rw [walk]
    rcases scanCursor_cases hlimit s cursor with ⟨hnil, -⟩ | ⟨hne, hlast, hsplit⟩
    · exact ⟨_, if_pos hnil⟩
    · have hshows := (keys_scanCursor hlimit s cursor).1
      generalize s.scanCursor cursor limit = p at *
      have hrest : p.store.rest p.next = s.rest p.next := by
        apply SortedTable.eq_of_mem_iff (pairwise_rest ..) (pairwise_rest ..)
        simp [mem_rest, hshows]
      have hpos := length_pos_of_mem hlast
      rw [hsplit, length_append, ← hrest] at hn
      obtain ⟨ks, hks⟩ := ih (show (p.store.rest p.next).length < n by omega)
      exact ⟨p.keys ++ ks, by simp [hne, hks]⟩

/-- Walks from the start, over a store that nothing else changes and over one that is
changed between pages, return every live key that stays so just when the empty key is
not live and every live key can be read. -/
theorem scan_complete_iff (s : ScanStore) (hlimit : 1 ≤ limit) :
    ((∃ n, walk (fun _ t => t) limit n s [] = some (s.ordered.filter s.live)) ∧
      ∀ change n ks k, walk change limit n s [] = some ks → s.live k = true →
        (∀ m t, shows t k = true → (change m t).shows k = true) → ks.count k = 1) ↔
    s.live [] = false ∧ ∀ k, s.live k = true → (s.get k).isSome = true := by
  constructor
  · rintro ⟨⟨n, hwalk⟩, -⟩
    have hspec := (walk_spec (Q := fun f => f = s.shows) hlimit (fun _ _ h => h) rfl hwalk).2.1
    have hshow : ∀ k, s.live k = true → [] < k ∧ s.shows k = true := by
      intro k hk
      obtain ⟨hpos, f, rfl, hf⟩ := hspec k (mem_filter.mpr ⟨mem_ordered_of_live hk, hk⟩)
      exact ⟨hpos, hf⟩
    refine ⟨?_, fun k hk => (Bool.and_eq_true_iff.mp (hshow k hk).2).2⟩
    by_contra hlive
    exact lt_irrefl _ (hshow [] (Bool.eq_true_of_not_eq_false hlive)).1
  · rintro ⟨hempty, hread⟩
    have hpos : ∀ k, s.live k = true → [] < k := by
      intro k hk
      cases k with
      | nil => simp [hempty] at hk
      | cons b k => exact nil_lt_cons b k
    have hshow : s.shows = s.live := by
      funext k
      cases hk : s.live k with
      | false => simp [shows, hk]
      | true => simp [shows, hk, hread k hk]
    constructor
    · obtain ⟨ks, hks⟩ := walk_ends hlimit (Nat.lt_succ_self (s.rest []).length)
      obtain ⟨hsort, hin, hall⟩ :=
        walk_spec (Q := fun f => f = s.shows) hlimit (fun _ _ h => h) rfl hks
      refine ⟨_, hks.trans (congrArg some ?_)⟩
      apply SortedTable.eq_of_mem_iff hsort (s.sorted.filter _)
      intro k
      rw [mem_filter]
      constructor
      · intro hk
        obtain ⟨-, f, rfl, hf⟩ := hin k hk
        rw [hshow] at hf
        exact ⟨mem_ordered_of_live hf, hf⟩
      · rintro ⟨-, hk⟩
        exact hall k (hpos k hk) (by simp [hshow, hk])
    · intro change n ks k hks hk hkeep
      obtain ⟨hsort, -, hall⟩ :=
        walk_spec (Q := fun f => f k = true) hlimit hkeep (by rw [hshow, hk]) hks
      exact count_eq_one_of_mem (hsort.imp ne_of_lt) (hall k (hpos k hk) fun _ hf => hf)

def twoKeys (first : Key) (h : first < [107]) : ScanStore where
  ordered := [first, [107]]
  entries := fun k => if k ∈ [first, [107]] then some ⟨0, 0, 0, 0, 1, 0, 0, {}⟩ else none
  get := fun _ => some []
  nowUs := fun _ => 1
  cutoffUs := fun _ => 1
  sorted := by simpa using h
  mem_ordered := by
    intro k e he _
    split at he
    next hk => exact hk
    · cases he

/-- Pages of one key. -/
theorem scan_complete_two :
    ∃ n, walk (fun _ t => t) 1 n (twoKeys [97] (by decide)) [] = some [[97], [107]] :=
  ((scan_complete_iff (twoKeys [97] (by decide)) (by decide)).mpr
    ⟨by decide, fun _ _ => rfl⟩).1

/-- The empty key is live and is skipped as the cursor of the start. -/
theorem scan_misses_empty : (twoKeys [] (by decide)).live [] = true ∧
    walk (fun _ t => t) 1 2 (twoKeys [] (by decide)) [] = some [[107]] := by
  decide

end ScanStore

end VeltrixDB.Storage
