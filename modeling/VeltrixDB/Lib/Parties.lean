import Mathlib.Data.List.Basic

/-!
# The parties of a concurrent system

The parties stand in a list.  A step takes one of them out of its place and puts
others there, or none.

Main results:

- Theorem `mem_rest`: the others were there before.
- Theorem `forall_mem_replaced`: what every party has, and the new one too, every
  party still has.
-/

namespace Parties

open List

variable {α : Type*} {l pre post new : List α} {a b x : α}

theorem mem_middle_iff : x ∈ pre ++ a :: post ↔ x = a ∨ x ∈ pre ++ post := by
  simp [or_left_comm]

section

variable (hl : l = pre ++ a :: post)
include hl

theorem mem_middle : a ∈ l := hl ▸ mem_middle_iff.mpr (.inl rfl)

theorem mem_middle_cases (hx : x ∈ l) : x = a ∨ x ∈ pre ++ post := mem_middle_iff.mp (hl ▸ hx)

theorem mem_rest (hx : x ∈ pre ++ post) : x ∈ l := hl ▸ mem_middle_iff.mpr (.inr hx)

theorem mem_replaced (hx : x ∈ pre ++ b :: post) : x = b ∨ x ∈ l :=
  (mem_middle_iff.mp hx).imp_right (mem_rest hl)

theorem mem_or_new (hx : x ∈ pre ++ new ++ post) : x ∈ l ∨ x ∈ new := by
  rw [hl]
  simp only [mem_append, mem_cons] at hx ⊢
  tauto

theorem forall_mem_replaced {P : α → Prop} (h : ∀ x ∈ l, P x) (hb : P b) :
    ∀ x ∈ pre ++ b :: post, P x := by
  intro x hx
  rcases mem_replaced hl hx with rfl | hx
  · exact hb
  · exact h x hx

end

end Parties
