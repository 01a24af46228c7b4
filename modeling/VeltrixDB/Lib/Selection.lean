import Mathlib.Data.List.Dedup
import Mathlib.Data.List.GetD
import Mathlib.Data.List.Rotate

/-!
# Binary search and greedy selection

Two loops over lists.  The first finds the least index at which a monotone
condition holds, by halving an interval.  The second walks over a list and keeps
every element that is compatible with all elements kept before.

Main results:

- Theorem `search_spec`: for a condition that stays true once it holds, the
  search returns its least index.
- Theorem `rotate_search`: a sorted list read around from the index found
  for `x` lists the elements from `x` on and then those below it.
- Theorem `map_getD_rotate`: a loop over offsets modulo the length reads a
  list around.
- Theorem `greedyUpTo_eq_take`: a walk that stops at a limit keeps the first
  elements of the walk that does not stop.
- Theorem `greedy_ne_filter`: the distinct elements of a filtered list are
  the distinct elements of the list, filtered.
-/

namespace Selection

open List

/-! ## Binary search -/

/-- Halve the interval from `i` to `j`; the first argument bounds the
number of rounds. -/
def searchIn (f : ℕ → Bool) : ℕ → ℕ → ℕ → ℕ
  | 0, i, _ => i
  | fuel + 1, i, j =>
    if i < j then
      let h := (i + j) / 2
      if f h then searchIn f fuel i h else searchIn f fuel (h + 1) j
    else i

/-- The least index below `n` at which `f` holds, or `n`. -/
def search (n : ℕ) (f : ℕ → Bool) : ℕ := searchIn f n 0 n

/-- Everything left of the interval fails and everything right of it holds; this
survives every round and says what the closed interval is. -/
theorem searchIn_spec {f : ℕ → Bool} {n : ℕ}
    (hmono : ∀ i j, i ≤ j → j < n → f i = true → f j = true) (fuel : ℕ) {i j : ℕ}
    (hfuel : j ≤ i + fuel) (hij : i ≤ j) (hj : j ≤ n) (hlow : ∀ k < i, f k = false)
    (hhigh : ∀ k, j ≤ k → k < n → f k = true) :
    searchIn f fuel i j ≤ n ∧ (∀ k < searchIn f fuel i j, f k = false) ∧
      ∀ k, searchIn f fuel i j ≤ k → k < n → f k = true := by
  induction fuel generalizing i j with
  | zero =>
    obtain rfl : i = j := by omega
    exact ⟨hj, hlow, hhigh⟩
  | succ fuel ih =>
    unfold searchIn
    split
    next hlt =>
      have hmid : (i + j) / 2 < j := by omega
      dsimp only
      split
      next hf =>
        refine ih (by omega) (by omega) (by omega) hlow fun k hk hkn => ?_
        exact hmono _ k hk hkn hf
      next hf =>
        refine ih (by omega) (by omega) hj (fun k hk => ?_) hhigh
        -- A true condition left of the middle would make the middle true.
        by_contra hk'
        exact hf (hmono k _ (by omega) (by omega) (by simpa using hk'))
    next hge =>
      obtain rfl : i = j := by omega
      exact ⟨hj, hlow, hhigh⟩

theorem search_spec {f : ℕ → Bool} {n : ℕ}
    (hmono : ∀ i j, i ≤ j → j < n → f i = true → f j = true) :
    search n f ≤ n ∧ (∀ k < search n f, f k = false) ∧
      ∀ k, search n f ≤ k → k < n → f k = true :=
  searchIn_spec hmono n (by omega) (Nat.zero_le n) le_rfl (fun k hk => absurd hk k.not_lt_zero)
    fun k hk hkn => absurd hkn (by omega)

/-- The index at which `x` would stand in an ascending list. -/
def lowerBound (keys : List ℕ) (x : ℕ) : ℕ :=
  search keys.length fun i => decide (x ≤ keys.getD i 0)

theorem lowerBound_spec {keys : List ℕ} (hsorted : keys.Pairwise (· ≤ ·)) (x : ℕ) :
    lowerBound keys x ≤ keys.length ∧ (∀ k < lowerBound keys x, keys.getD k 0 < x) ∧
      ∀ k, lowerBound keys x ≤ k → k < keys.length → x ≤ keys.getD k 0 := by
  have hmono : ∀ i j, i ≤ j → j < keys.length →
      decide (x ≤ keys.getD i 0) = true → decide (x ≤ keys.getD j 0) = true := by
    intro i j hij hj hi
    rcases hij.eq_or_lt with rfl | hij
    · exact hi
    · rw [decide_eq_true_eq] at hi ⊢
      rw [getD_eq_getElem _ _ (hij.trans hj)] at hi
      rw [getD_eq_getElem _ _ hj]
      exact hi.trans (pairwise_iff_getElem.mp hsorted i j (hij.trans hj) hj hij)
  obtain ⟨hle, hlow, hhigh⟩ := search_spec hmono
  refine ⟨hle, fun k hk => ?_, fun k hk hkn => ?_⟩
  · simpa using hlow k hk
  · simpa using hhigh k hk hkn

/-- The part of an ascending list before the index found for `x` is what is
below `x`. -/
theorem take_lowerBound {keys : List ℕ} (hsorted : keys.Pairwise (· ≤ ·)) (x : ℕ) :
    keys.take (lowerBound keys x) = keys.filter (· < x) ∧
      keys.drop (lowerBound keys x) = keys.filter (x ≤ ·) := by
  obtain ⟨-, hlow, hhigh⟩ := lowerBound_spec hsorted x
  have htake : ∀ a ∈ keys.take (lowerBound keys x), a < x := by
    intro a ha
    obtain ⟨k, hk, rfl⟩ := mem_iff_getElem.mp ha
    rw [length_take] at hk
    rw [getElem_take]
    have := hlow k (by omega)
    rwa [getD_eq_getElem _ _ (by omega)] at this
  have hdrop : ∀ a ∈ keys.drop (lowerBound keys x), x ≤ a := by
    intro a ha
    obtain ⟨k, hk, rfl⟩ := mem_iff_getElem.mp ha
    rw [length_drop] at hk
    rw [getElem_drop]
    have := hhigh (lowerBound keys x + k) (by omega) (by omega)
    rwa [getD_eq_getElem _ _ (by omega)] at this
  constructor
  · conv_rhs => rw [← take_append_drop (lowerBound keys x) keys, filter_append]
    rw [filter_eq_self.mpr (by simpa using htake),
      filter_eq_nil_iff.mpr (by simpa using hdrop), append_nil]
  · conv_rhs => rw [← take_append_drop (lowerBound keys x) keys, filter_append]
    rw [filter_eq_nil_iff.mpr (by simpa using htake),
      filter_eq_self.mpr (by simpa using hdrop), nil_append]

/-- The first index of a walk around the list: past the end is the start. -/
def wrap (n idx : ℕ) : ℕ := if idx = n then 0 else idx

/-- A sorted list read around from where `x` stands. -/
theorem rotate_search {keys : List ℕ} (hsorted : keys.Pairwise (· ≤ ·)) (x : ℕ) :
    keys.rotate (wrap keys.length (lowerBound keys x)) =
      keys.filter (x ≤ ·) ++ keys.filter (· < x) := by
  obtain ⟨htake, hdrop⟩ := take_lowerBound hsorted x
  have hle := (lowerBound_spec hsorted x).1
  unfold wrap
  split
  next heq =>
    rw [← htake, ← hdrop, heq, drop_length, take_length, rotate_zero, nil_append]
  · rw [rotate_eq_drop_append_take hle, htake, hdrop]

/-- The elements that a loop over the offsets from `idx` visits are the list
read around from there. -/
theorem map_getD_rotate {α : Type*} (l : List α) (idx : ℕ) (d : α) :
    (List.range l.length).map (fun i => l.getD ((idx + i) % l.length) d) = l.rotate idx := by
  apply ext_getElem
  · rw [length_map, length_range, length_rotate]
  · intro i h₁ h₂
    have hi : i < l.length := by rwa [length_rotate] at h₂
    have hmod : (i + idx) % l.length < l.length := Nat.mod_lt _ (by omega)
    rw [getElem_map, getElem_range, getElem_rotate, Nat.add_comm idx i, getD_eq_getElem _ _ hmod]

/-! ## Greedy selection -/

section Greedy

variable {α : Type*} (R : α → α → Prop) [DecidableRel R]

/-- Keep every element that stands in relation `R` to all elements kept
before it. -/
def greedy : List α → List α → List α
  | kept, [] => kept
  | kept, a :: l => if ∀ b ∈ kept, R b a then greedy (kept ++ [a]) l else greedy kept l

/-- The same walk, stopped when `n` elements are kept. -/
def greedyUpTo (n : ℕ) : List α → List α → List α
  | kept, [] => kept
  | kept, a :: l =>
    if kept.length < n then
      if ∀ b ∈ kept, R b a then greedyUpTo n (kept ++ [a]) l else greedyUpTo n kept l
    else kept

variable {R} {kept l : List α}

theorem prefix_greedy : kept <+: greedy R kept l := by
  induction l generalizing kept with
  | nil => exact prefix_rfl
  | cons a l ih =>
    unfold greedy
    split
    · exact (prefix_append kept [a]).trans ih
    · exact ih

/-- A walk that stops at a limit keeps the first elements of the walk that does
not stop. -/
theorem greedyUpTo_eq_take {n : ℕ} (h : kept.length ≤ n) :
    greedyUpTo R n kept l = (greedy R kept l).take n := by
  induction l generalizing kept with
  | nil => exact (take_of_length_le h).symm
  | cons a l ih =>
    unfold greedyUpTo greedy
    split
    next hlt =>
      split
      · exact ih (by rw [length_append]; exact hlt)
      · exact ih h
    next hge =>
      have hlen : kept.length = n := by omega
      have hprefix : kept <+: (if ∀ b ∈ kept, R b a then greedy R (kept ++ [a]) l
          else greedy R kept l) := by
        split
        · exact (prefix_append kept [a]).trans prefix_greedy
        · exact prefix_greedy
      rw [← hlen]
      exact prefix_iff_eq_take.mp hprefix

theorem foldl_eq_greedyUpTo {n : ℕ} {f : List α → α → List α}
    (hf : ∀ kept a, f kept a =
      if kept.length < n then if ∀ b ∈ kept, R b a then kept ++ [a] else kept else kept) :
    l.foldl f kept = greedyUpTo R n kept l := by
  induction l generalizing kept with
  | nil => rfl
  | cons a l ih =>
    rw [foldl_cons, hf, greedyUpTo]
    split
    · split
      · exact ih
      · exact ih
    next hge =>
      -- Past the limit the loop only runs out.
      have hstay : ∀ m : List α, m.foldl f kept = kept := by
        intro m
        induction m with
        | nil => rfl
        | cons b m ihm => rw [foldl_cons, hf, if_neg hge, ihm]
      exact hstay l

theorem mem_of_mem_greedy {a : α} (h : a ∈ greedy R kept l) : a ∈ kept ∨ a ∈ l := by
  induction l generalizing kept with
  | nil => exact .inl h
  | cons b l ih =>
    unfold greedy at h
    split at h
    · rcases ih h with h | h
      · rcases mem_append.mp h with h | h
        · exact .inl h
        · exact .inr (mem_singleton.mp h ▸ mem_cons_self)
      · exact .inr (mem_cons_of_mem b h)
    · exact (ih h).imp_right (mem_cons_of_mem b)

theorem pairwise_greedy (h : kept.Pairwise R) : (greedy R kept l).Pairwise R := by
  induction l generalizing kept with
  | nil => exact h
  | cons a l ih =>
    unfold greedy
    split
    next hall =>
      refine ih (pairwise_append.mpr ⟨h, pairwise_singleton R a, ?_⟩)
      intro b hb c hc
      rw [mem_singleton.mp hc]
      exact hall b hb
    · exact ih h

theorem mem_greedy_or_conflict (kept : List α) {a : α} (ha : a ∈ l) :
    a ∈ greedy R kept l ∨ ∃ b ∈ greedy R kept l, ¬R b a := by
  induction l generalizing kept with
  | nil => exact absurd ha not_mem_nil
  | cons c l ih =>
    unfold greedy
    rcases mem_cons.mp ha with rfl | ha
    · split
      · exact .inl (prefix_greedy.subset (mem_append_right _ (mem_singleton_self a)))
      next hall =>
        push Not at hall
        obtain ⟨b, hb, hR⟩ := hall
        exact .inr ⟨b, prefix_greedy.subset hb, hR⟩
    · split
      · exact ih _ ha
      · exact ih _ ha

/-- The first element of a walk that starts with nothing is kept. -/
theorem head?_greedy : (greedy R [] l).head? = l.head? := by
  cases l with
  | nil => rfl
  | cons a l =>
    have hprefix : [a] <+: greedy R [] (a :: l) := by
      rw [greedy, if_pos (by simp)]
      exact prefix_greedy
    obtain ⟨t, ht⟩ := hprefix
    rw [← ht]
    rfl

end Greedy

/-! ## Distinct elements -/

section Distinct

variable {α : Type*} [DecidableEq α] {l : List α}

theorem nodup_greedy_ne : (greedy (· ≠ ·) [] l).Nodup := pairwise_greedy List.Pairwise.nil

theorem mem_greedy_ne {a : α} : a ∈ greedy (· ≠ ·) [] l ↔ a ∈ l := by
  constructor
  · intro h
    exact (mem_of_mem_greedy h).resolve_left not_mem_nil
  · intro h
    rcases mem_greedy_or_conflict (R := (· ≠ ·)) [] h with h | ⟨b, hb, hR⟩
    · exact h
    · exact not_not.mp hR ▸ hb

theorem length_greedy_ne : (greedy (· ≠ ·) [] l).length = l.dedup.length := by
  refine ((perm_ext_iff_of_nodup nodup_greedy_ne l.nodup_dedup).mpr fun a => ?_).length_eq
  rw [mem_greedy_ne, mem_dedup]

theorem greedy_ne_filter (p : α → Bool) (kept : List α) :
    greedy (· ≠ ·) (kept.filter p) (l.filter p) = (greedy (· ≠ ·) kept l).filter p := by
  induction l generalizing kept with
  | nil => rfl
  | cons a l ih =>
    by_cases ha : p a = true
    · -- Whether the element is new does not depend on what the filter removed.
      have hnew : (∀ b ∈ kept.filter p, b ≠ a) ↔ ∀ b ∈ kept, b ≠ a := by
        constructor
        · intro h b hb heq
          exact h b (mem_filter.mpr ⟨hb, heq ▸ ha⟩) heq
        · intro h b hb
          exact h b (mem_filter.mp hb).1
      rw [filter_cons_of_pos ha, greedy, greedy]
      by_cases hall : ∀ b ∈ kept, b ≠ a
      · rw [if_pos hall, if_pos (hnew.mpr hall), ← ih, filter_append,
          filter_cons_of_pos ha, filter_nil]
      · rw [if_neg hall, if_neg (fun h => hall (hnew.mp h)), ih]
    · rw [filter_cons_of_neg ha, ih, greedy]
      split
      · rw [← ih, ← ih, filter_append, filter_cons_of_neg ha, filter_nil, append_nil]
      · rfl

end Distinct

end Selection
