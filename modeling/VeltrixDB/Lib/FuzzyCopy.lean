import Mathlib.Data.Set.Insert
import Mathlib.Logic.Function.Basic

/-!
# Copying a store that changes

A store is copied key by key while it goes on changing.  Of each key that is not
copied yet, or that changed since, it is noted that the copy may be wrong; the
copy is finished when no such key is left.  What it means that a copied value is
right is a relation that may get coarser as time passes.

Main results:

- Theorem `Settled.write`: a change of the store makes its key dirty.
- Theorem `Settled.record`: copying a key makes it clean.
- Theorem `Settled.drift`: changes that the relation does not see need no
  note.
-/

namespace FuzzyCopy

open Function

variable {κ α : Type*} {r : α → α → Prop} {dirty : Set κ} {copy store : κ → α} {k : κ} {a : α}

def Settled (r : α → α → Prop) (dirty : Set κ) (copy store : κ → α) : Prop :=
  ∀ k, k ∉ dirty → r (copy k) (store k)

theorem settled_univ : Settled r Set.univ copy store := fun k hk => absurd (Set.mem_univ k) hk

section

variable (h : Settled r dirty copy store)
include h

theorem Settled.dirty_mono {dirty' : Set κ} (hd : dirty ⊆ dirty') : Settled r dirty' copy store :=
  fun k hk => h k fun hk' => hk (hd hk')

theorem Settled.rel_mono {r' : α → α → Prop} (hr : ∀ a b, r a b → r' a b) :
    Settled r' dirty copy store :=
  fun k hk => hr _ _ (h k hk)

/-- A change of the store that the relation does not see. -/
theorem Settled.drift {store' : κ → α} (htrans : ∀ a b c, r a b → r b c → r a c)
    (hs : ∀ k, r (store k) (store' k)) : Settled r dirty copy store' :=
  fun k hk => htrans _ _ _ (h k hk) (hs k)

theorem Settled.clean {dirty' : Set κ} (hright : ∀ k ∈ dirty, k ∉ dirty' → r (copy k) (store k)) :
    Settled r dirty' copy store := by
  intro k hk
  by_cases hd : k ∈ dirty
  · exact hright k hd hk
  · exact h k hd

end

variable [DecidableEq κ]

theorem Settled.write (h : Settled r dirty copy store) (k : κ) (a : α) :
    Settled r (insert k dirty) copy (update store k a) := by
  intro x hx
  have hne : x ≠ k := fun heq => hx (Set.mem_insert_iff.mpr (.inl heq))
  rw [update_of_ne hne]
  exact h x fun hd => hx (Set.mem_insert_of_mem k hd)

theorem Settled.record (h : Settled r (insert k dirty) copy store)
    (hk : k ∉ dirty → r a (store k)) : Settled r dirty (update copy k a) store := by
  intro x hx
  by_cases heq : x = k
  · subst heq
    rw [update_self]
    exact hk hx
  · rw [update_of_ne heq]
    apply h x
    intro hmem
    rcases Set.mem_insert_iff.mp hmem with heq' | hd
    · exact heq heq'
    · exact hx hd

end FuzzyCopy
