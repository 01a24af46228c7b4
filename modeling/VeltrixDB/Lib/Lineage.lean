import Mathlib.Data.List.Basic
import Mathlib.Data.List.Induction

/-!
# Records that name their predecessors

Each record is made after a mark, that of the record before it.  When a mark
tells which record was made and after which mark, two lists of records that
end with the same mark are the same.

Main results:

- Theorem `Lineage.chain_append`: a chain is cut where its parts meet.
- Theorem `Lineage.Chain.agree`: chains of one length with one end agree.
- Theorem `Lineage.exists_extend`: records with new marks may be made.
-/

namespace Lineage

open List

variable {α μ : Type*} {mark : α → μ} {made made' : α → μ → Prop} {r s : μ} {xs ys : List α}

/-- The mark at the end of a list after the mark `r`. -/
def endMark (mark : α → μ) (r : μ) : List α → μ
  | [] => r
  | x :: xs => endMark mark (mark x) xs

/-- Each element was made after the one before it, and the first one after `r`. -/
def Chain (mark : α → μ) (made : α → μ → Prop) : μ → List α → Prop
  | _, [] => True
  | r, x :: xs => made x r ∧ Chain mark made (mark x) xs

/-- A mark tells the record and the mark it was made after. -/
def Determined (mark : α → μ) (made : α → μ → Prop) : Prop :=
  ∀ x y r s, made x r → made y s → mark x = mark y → x = y ∧ r = s

theorem endMark_append : endMark mark r (xs ++ ys) = endMark mark (endMark mark r xs) ys := by
  induction xs generalizing r with
  | nil => rfl
  | cons x xs ih => exact ih

theorem chain_append :
    Chain mark made r (xs ++ ys) ↔ Chain mark made r xs ∧ Chain mark made (endMark mark r xs) ys := by
  induction xs generalizing r with
  | nil => simp [Chain, endMark]
  | cons x xs ih => simp [Chain, endMark, ih, and_assoc]

namespace Chain

theorem take (h : Chain mark made r xs) (k : Nat) : Chain mark made r (xs.take k) := by
  rw [← take_append_drop k xs] at h
  exact (chain_append.mp h).1

theorem drop (h : Chain mark made r xs) (k : Nat) :
    Chain mark made (endMark mark r (xs.take k)) (xs.drop k) := by
  rw [← take_append_drop k xs] at h
  exact (chain_append.mp h).2

theorem mono (hsub : ∀ x r, made x r → made' x r) (h : Chain mark made r xs) :
    Chain mark made' r xs := by
  induction xs generalizing r with
  | nil => trivial
  | cons x xs ih => exact ⟨hsub x r h.1, ih h.2⟩

theorem exists_made (h : Chain mark made r xs) {x : α} (hx : x ∈ xs) : ∃ s, made x s := by
  obtain ⟨pre, post, rfl⟩ := mem_iff_append.mp hx
  exact ⟨_, (chain_append.mp h).2.1⟩

/-- Chains of one length that end with the same mark are the same. -/
theorem agree (hdet : Determined mark made) (hxs : Chain mark made r xs)
    (hys : Chain mark made s ys) (hlen : xs.length = ys.length)
    (hend : endMark mark r xs = endMark mark s ys) : xs = ys := by
  -- from the end: equal marks give equal elements, and equal marks before them
  induction xs using List.reverseRecOn generalizing ys with
  | nil => exact (length_eq_zero_iff.mp hlen.symm).symm
  | append_singleton xs x ih =>
    rcases eq_nil_or_concat' ys with rfl | ⟨ys, y, rfl⟩
    · simp at hlen
    rw [endMark_append, endMark_append] at hend
    obtain ⟨hbefore, hx, -⟩ := chain_append.mp hxs
    obtain ⟨hbefore', hy, -⟩ := chain_append.mp hys
    obtain ⟨rfl, hmark⟩ := hdet x y _ _ hx hy hend
    rw [ih hbefore hbefore' (by simpa using hlen) hmark]

end Chain

/-- Records with marks that are new and differ may be made one after the other. -/
theorem exists_extend {P : α → μ → Prop} (hdet : Determined mark made)
    (hnew : Chain mark P r xs) (hnodup : (xs.map mark).Nodup)
    (hfresh : ∀ x ∈ xs, ∀ y s, made y s → mark y ≠ mark x) :
    ∃ made', Determined mark made' ∧ Chain mark (fun x s => made' x s ∧ P x s) r xs ∧
      (∀ x s, made x s → made' x s) ∧ ∀ x s, made' x s → made x s ∨ x ∈ xs := by
  induction xs generalizing made r with
  | nil => exact ⟨made, hdet, trivial, fun _ _ h => h, fun _ _ h => .inl h⟩
  | cons x xs ih =>
    rw [map_cons, nodup_cons] at hnodup
    have hfirst : Determined mark (fun y s => made y s ∨ y = x ∧ s = r) := by
      rintro y z s t (hy | ⟨rfl, rfl⟩) (hz | ⟨rfl, rfl⟩) hmark
      · exact hdet y z s t hy hz hmark
      · exact absurd hmark (hfresh z mem_cons_self y s hy)
      · exact absurd hmark.symm (hfresh y mem_cons_self z t hz)
      · exact ⟨rfl, rfl⟩
    obtain ⟨made', hdet', hchain, hsub, hor⟩ := ih hfirst hnew.2 hnodup.2 (by
      rintro z hz y s (hy | ⟨rfl, rfl⟩)
      · exact hfresh z (mem_cons_of_mem _ hz) y s hy
      · exact fun hmark => hnodup.1 (hmark ▸ mem_map_of_mem hz))
    refine ⟨made', hdet', ⟨⟨hsub x r (.inr ⟨rfl, rfl⟩), hnew.1⟩, hchain⟩,
      fun y s hy => hsub y s (.inl hy), ?_⟩
    intro y s hy
    rcases hor y s hy with (hy | ⟨rfl, rfl⟩) | hy
    · exact .inl hy
    · exact .inr mem_cons_self
    · exact .inr (mem_cons_of_mem _ hy)

end Lineage
