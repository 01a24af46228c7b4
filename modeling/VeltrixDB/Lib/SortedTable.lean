import Mathlib.Data.List.Sort
import Mathlib.Logic.Function.Basic
import Mathlib.Order.Basic

/-!
# Finite tables with ordered keys

A table maps finitely many keys to values and lists its keys in ascending order,
so that it can be read page by page.

Main results:

- Theorem `SortedTable.filter_keys_congr`: tables that agree on a set of keys
  list the same keys of that set.
- Theorem `filter_lt_of_page`: what lies past the last key of a page is what
  the page left.
-/

/-- A finite map whose keys are listed in ascending order. -/
structure SortedTable (κ α : Type*) [LinearOrder κ] where
  keys : List κ
  find : κ → Option α
  sorted : keys.Pairwise (· < ·)
  mem_keys : ∀ k, k ∈ keys ↔ (find k).isSome = true

namespace SortedTable

open Function List

variable {κ α : Type*} [LinearOrder κ]

/-! ## Ordered lists of keys -/

def insertKey (k : κ) : List κ → List κ
  | [] => [k]
  | x :: xs => if k < x then k :: x :: xs else if k = x then x :: xs else x :: insertKey k xs

theorem mem_insertKey {k x : κ} {l : List κ} : x ∈ insertKey k l ↔ x = k ∨ x ∈ l := by
  induction l with
  | nil => simp [insertKey]
  | cons =>
    unfold insertKey
    split
    · simp
    · split
      next heq =>
        subst heq
        simp
      · simp only [mem_cons]
        tauto

theorem pairwise_insertKey {k : κ} {l : List κ} (h : l.Pairwise (· < ·)) :
    (insertKey k l).Pairwise (· < ·) := by
  induction l with
  | nil => exact pairwise_singleton _ k
  | cons y ys ih =>
    obtain ⟨hy, hys⟩ := pairwise_cons.mp h
    unfold insertKey
    split
    next hlt =>
      exact pairwise_cons.mpr ⟨forall_mem_cons.mpr ⟨hlt, fun z hz => hlt.trans (hy z hz)⟩, h⟩
    next hge =>
      split
      · exact h
      next hne =>
        refine pairwise_cons.mpr ⟨?_, ih hys⟩
        intro z hz
        rcases mem_insertKey.mp hz with rfl | hz
        · exact lt_of_le_of_ne (not_lt.mp hge) (Ne.symm hne)
        · exact hy z hz

/-- An ascending list is determined by its members. -/
theorem eq_of_mem_iff {l l' : List κ} (h : l.Pairwise (· < ·)) (h' : l'.Pairwise (· < ·))
    (hmem : ∀ x, x ∈ l ↔ x ∈ l') : l = l' := by
  have hperm : l.Perm l' :=
    (perm_ext_iff_of_nodup (h.imp ne_of_lt) (h'.imp ne_of_lt)).mpr hmem
  exact hperm.eq_of_pairwise (fun a b _ _ hab hba => absurd hba (lt_asymm hab)) h h'

theorem filter_lt_of_page {page rest : List κ} {a : κ} {p : κ → Bool}
    (h : (page ++ rest).Pairwise (· < ·)) (ha : page.getLast? = some a)
    (hp : ∀ x, p x = true ↔ a < x) : (page ++ rest).filter p = rest := by
  obtain ⟨init, rfl⟩ := List.getLast?_eq_some_iff.mp ha
  obtain ⟨hpage, -, hcross⟩ := pairwise_append.mp h
  have hinit := (pairwise_append.mp hpage).2.2
  rw [filter_append, filter_eq_nil_iff.mpr, filter_eq_self.mpr, nil_append]
  · intro x hx
    exact (hp x).mpr (hcross a (mem_append_right _ (mem_singleton_self a)) x hx)
  · intro x hx
    rw [hp]
    rcases mem_append.mp hx with hx | hx
    · exact lt_asymm (hinit x hx a (mem_singleton_self a))
    · rw [mem_singleton.mp hx]
      exact lt_irrefl a

/-! ## Tables -/

def empty : SortedTable κ α where
  keys := []
  find := fun _ => none
  sorted := List.Pairwise.nil
  mem_keys := by simp

variable [DecidableEq κ]

def put (t : SortedTable κ α) (k : κ) (a : α) : SortedTable κ α where
  keys := insertKey k t.keys
  find := update t.find k (some a)
  sorted := pairwise_insertKey t.sorted
  mem_keys := by
    intro x
    rw [mem_insertKey, t.mem_keys]
    by_cases hx : x = k
    · subst hx
      simp
    · simp [hx]

def delete (t : SortedTable κ α) (k : κ) : SortedTable κ α where
  keys := t.keys.filter (· ≠ k)
  find := update t.find k none
  sorted := t.sorted.filter _
  mem_keys := by
    intro x
    rw [mem_filter, t.mem_keys]
    by_cases hx : x = k
    · subst hx
      simp
    · simp [hx]

variable {t t' : SortedTable κ α} {k : κ}

@[simp] theorem find_put (t : SortedTable κ α) (k : κ) (a : α) :
    (t.put k a).find = update t.find k (some a) := rfl

@[simp] theorem find_delete (t : SortedTable κ α) (k : κ) :
    (t.delete k).find = update t.find k none := rfl

omit [DecidableEq κ] in
theorem filter_keys_congr {p : κ → Bool} (h : ∀ k, p k = true → t.find k = t'.find k) :
    t.keys.filter p = t'.keys.filter p := by
  apply eq_of_mem_iff (t.sorted.filter p) (t'.sorted.filter p)
  intro x
  rw [mem_filter, mem_filter, t.mem_keys, t'.mem_keys]
  constructor
  · rintro ⟨hx, hp⟩
    rw [h x hp] at hx
    exact ⟨hx, hp⟩
  · rintro ⟨hx, hp⟩
    rw [← h x hp] at hx
    exact ⟨hx, hp⟩

end SortedTable
