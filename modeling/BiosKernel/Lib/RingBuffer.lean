import Mathlib.Algebra.BigOperators.Group.List.Basic
import Mathlib.Algebra.GroupWithZero.Nat

namespace RingBuffer
set_option autoImplicit true

variable {α : Type u} {slot : α → Nat}

/-- Where the elements lie, one behind the other from `v` on. Positions are counted without wrapping
around. -/
def placed (slot : α → Nat) : Nat → List α → List (Nat × α)
  | _, [] => []
  | v, x :: xs => (v, x) :: placed slot (v + slot x) xs

/-- The room that the elements take. -/
def extent (slot : α → Nat) (xs : List α) : Nat := (xs.map slot).sum

@[simp] theorem extent_nil : extent slot [] = 0 := rfl

@[simp] theorem extent_cons (x : α) (xs : List α) :
    extent slot (x :: xs) = slot x + extent slot xs := List.sum_cons

@[simp] theorem extent_append (xs ys : List α) :
    extent slot (xs ++ ys) = extent slot xs + extent slot ys := by
  rw [extent, List.map_append, List.sum_append]
  rfl

theorem placed_append (v : Nat) (xs ys : List α) :
    placed slot v (xs ++ ys) = placed slot v xs ++ placed slot (v + extent slot xs) ys := by
  induction xs generalizing v with
  | nil => rfl
  | cons x xs ih =>
    rw [List.cons_append, placed, placed, ih, extent_cons, List.cons_append, Nat.add_assoc]

theorem placed_bounds (h : x ∈ placed slot v xs) :
    v ≤ x.1 ∧ x.1 + slot x.2 ≤ v + extent slot xs := by
  induction xs generalizing v with
  | nil => cases h
  | cons y xs ih =>
    rw [extent_cons]
    rcases List.mem_cons.mp h with rfl | h
    · dsimp only
      exact ⟨Nat.le_refl v, by omega⟩
    · obtain ⟨hle, hend⟩ := ih h
      exact ⟨by omega, by omega⟩

theorem extent_dvd (hk : ∀ x, k ∣ slot x) (xs : List α) : k ∣ extent slot xs := by
  induction xs with
  | nil => exact Nat.dvd_zero k
  | cons x xs ih => exact Nat.dvd_add (hk x) ih

theorem placed_dvd (hk : ∀ x, k ∣ slot x) (h : x ∈ placed slot v xs) : k ∣ x.1 - v := by
  induction xs generalizing v with
  | nil => cases h
  | cons y xs ih =>
    rcases List.mem_cons.mp h with rfl | h
    · rw [Nat.sub_self]
      exact Nat.dvd_zero k
    · have hle := (placed_bounds h).1
      have he : x.1 - v = (x.1 - (v + slot y)) + slot y := by omega
      rw [he]
      exact Nat.dvd_add (ih h) (hk y)

/-- Below two laps, taking the size off once is taking the remainder. -/
theorem wrap_once {size : Nat} (h : p < 2 * size) :
    p % size = if p < size then p else p - size := by
  split
  · next hlt => exact Nat.mod_eq_of_lt hlt
  · next hge => rw [Nat.mod_eq_sub_mod (by omega), Nat.mod_eq_of_lt (by omega)]

theorem mod_ahead (size : Nat) (h : v ≤ w) (hw : w < v + size) :
    w % size = if v % size + (w - v) < size then v % size + (w - v)
      else v % size + (w - v) - size := by
  have hv : v % size < size := Nat.mod_lt _ (by omega)
  have he : w = v + (w - v) := by omega
  rw [← wrap_once (by omega), Nat.mod_add_mod, ← he]

end RingBuffer
