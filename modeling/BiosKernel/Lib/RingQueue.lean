import Mathlib.Data.List.Range
import Mathlib.Logic.Function.Basic

namespace RingQueue
set_option autoImplicit true

variable {α : Type u} (buf : Nat → α) (size tail : Nat)

/-- The `n` elements from place `tail` on in a ring of `size` places. -/
def queued (n : Nat) : List α := (List.range n).map fun k => buf ((tail + k) % size)

theorem queued_succ (n : Nat) :
    queued buf size tail (n + 1) = queued buf size tail n ++ [buf ((tail + n) % size)] := by
  rw [queued, List.range_succ, List.map_append]
  rfl

theorem queued_cons (h : tail < size) (n : Nat) : queued buf size tail (n + 1) =
    buf tail :: queued buf size ((tail + 1) % size) n := by
  rw [queued, List.range_succ_eq_map, List.map_cons, List.map_map, Nat.add_zero,
    Nat.mod_eq_of_lt h]
  congr 1
  apply List.map_congr_left
  intro k _
  show buf ((tail + (k + 1)) % size) = buf (((tail + 1) % size + k) % size)
  rw [Nat.mod_add_mod, Nat.add_assoc, Nat.add_comm 1 k]

theorem place_ne {k n : Nat} (hk : k < n) (hn : n < size) :
    (tail + k) % size ≠ (tail + n) % size := by
  intro h
  have hmod : (n - k) % size = 0 := by
    have hsub := Nat.sub_mod_eq_zero_of_mod_eq h.symm
    rwa [Nat.add_sub_add_left] at hsub
  rw [Nat.mod_eq_of_lt (by omega)] at hmod
  omega

theorem queued_write (hn : n < size) (x : α) :
    queued (Function.update buf ((tail + n) % size) x) size tail (n + 1) =
      queued buf size tail n ++ [x] := by
  rw [queued_succ, Function.update_self]
  congr 1
  apply List.map_congr_left
  intro k hk
  exact Function.update_of_ne (place_ne size tail (List.mem_range.mp hk) hn) ..

end RingQueue
