import Mathlib.Algebra.BigOperators.Group.List.Basic
import Mathlib.Algebra.GroupWithZero.Nat
import Mathlib.Data.Nat.ModEq
import Mathlib.Tactic.Common

namespace OnesComplement
set_option autoImplicit true

/-- Addition of numbers up to `m`, with the carry added at the other end. -/
def add (m a b : Nat) : Nat := if a + b ≤ m then a + b else a + b - m

def sum (m : Nat) (ns : List Nat) : Nat := ns.foldr (add m) 0

/-- The number from 1 to `m` that leaves the same remainder, and zero only for zero. -/
def residue (m n : Nat) : Nat := if n = 0 then 0 else (n - 1) % m + 1

theorem residue_le (hm : 0 < m) (n : Nat) : residue m n ≤ m := by
  rw [residue]
  split
  · exact Nat.zero_le m
  · exact Nat.mod_lt _ hm

theorem residue_eq_self (h : n ≤ m) : residue m n = n := by
  rw [residue]
  split
  · exact Eq.symm ‹n = 0›
  · rw [Nat.mod_eq_of_lt (by omega)]
    omega

theorem residue_mod (m n : Nat) : residue m n % m = n % m := by
  rw [residue]
  split
  · rw [‹n = 0›]
  · rw [Nat.mod_add_mod, Nat.sub_add_cancel (by omega)]

theorem residue_inj (ha : a ≠ 0) (hb : b ≠ 0) : residue m a = residue m b ↔ a % m = b % m := by
  constructor
  · intro h
    rw [← residue_mod m a, h, residue_mod]
  · intro h
    have hpred : (a - 1) % m = (b - 1) % m := by
      obtain ⟨a, rfl⟩ := Nat.exists_eq_succ_of_ne_zero ha
      obtain ⟨b, rfl⟩ := Nat.exists_eq_succ_of_ne_zero hb
      exact Nat.ModEq.add_right_cancel' 1 h
    rw [residue, residue, if_neg ha, if_neg hb, hpred]

theorem residue_eq_iff (hm : 0 < m) (hn : n ≠ 0) : residue m n = m ↔ n % m = 0 := by
  have hlt := Nat.mod_lt (n - 1) hm
  rw [residue, if_neg hn]
  constructor
  · intro h
    have hmod : ((n - 1) % m + 1) % m = n % m := by
      rw [Nat.mod_add_mod, Nat.sub_add_cancel (by omega)]
    rw [← hmod, h, Nat.mod_self]
  · intro h
    obtain ⟨k, rfl⟩ := Nat.dvd_of_mod_eq_zero h
    cases k with
    | zero => exact absurd (Nat.mul_zero m) hn
    | succ k =>
      have hpred : m * (k + 1) - 1 = m - 1 + m * k := by
        rw [Nat.mul_succ]
        omega
      rw [hpred, Nat.add_mul_mod_self_left, Nat.mod_eq_of_lt (by omega)]
      omega

/-- The carries make up for what the residues leave out. -/
theorem add_residue (ha : a ≤ m) (hm : 0 < m) (n : Nat) :
    add m a (residue m n) = residue m (a + n) := by
  have hle := residue_le hm n
  by_cases hn : n = 0
  · subst hn
    rw [add, residue, if_pos rfl, Nat.add_zero, if_pos ha, residue_eq_self ha]
  · have hlt := Nat.mod_lt (n - 1) hm
    have hsum : a + n - 1 = a + (n - 1) := by omega
    rw [residue, residue, if_neg hn, if_neg (by omega), hsum, ← Nat.add_mod_mod, add]
    generalize (n - 1) % m = r at hlt
    by_cases hfit : a + (r + 1) ≤ m
    · rw [if_pos hfit, Nat.mod_eq_of_lt (by omega)]
      omega
    · rw [if_neg hfit, Nat.mod_eq_sub_mod (by omega), Nat.mod_eq_of_lt (by omega)]
      omega

theorem sum_eq (hm : 0 < m) (h : ∀ n ∈ ns, n ≤ m) : sum m ns = residue m ns.sum := by
  induction ns with
  | nil => rfl
  | cons n ns ih =>
    obtain ⟨hn, hns⟩ := List.forall_mem_cons.mp h
    rw [List.sum_cons, ← add_residue hn hm, ← ih hns]
    rfl

end OnesComplement
