import Mathlib.Data.List.Chain
import Mathlib.Data.List.GetD
import Mathlib.Data.List.Rotate

namespace Cyclic
set_option autoImplicit true

variable {α : Type u} [DecidableEq α] {xs ys pre post : List α}

/-- The element behind `a` in cyclic order. Behind the last one, and behind anything that is not in
the list, comes the first one; `d` stands for the first one of no elements. -/
def next (d : α) (xs : List α) (a : α) : α :=
  xs.getD (if xs.idxOf a + 1 < xs.length then xs.idxOf a + 1 else 0) d

theorem idxOf_append_cons (h : a ∉ pre) : (pre ++ a :: post).idxOf a = pre.length := by
  rw [List.idxOf_append_of_notMem h, List.idxOf_cons_self, Nat.add_zero]

theorem next_of_split (d : α) (h : a ∉ pre) : next d (pre ++ a :: b :: post) a = b := by
  rw [next, idxOf_append_cons h, if_pos]
  · rw [List.getD_append_right _ _ _ _ (Nat.le_add_right _ 1), Nat.add_sub_cancel_left]
    rfl
  · simp only [List.length_append, List.length_cons]
    omega

theorem next_of_le (d : α) (h : xs.length ≤ xs.idxOf a + 1) : next d xs a = xs.headD d := by
  rw [next, if_neg (Nat.not_lt_of_le h)]
  cases xs with
  | nil => rfl
  | cons x xs => rfl

theorem next_of_last (d : α) (h : a ∉ pre) : next d (pre ++ [a]) a = (pre ++ [a]).headD d := by
  apply next_of_le
  rw [idxOf_append_cons h, List.length_append]
  exact Nat.le_refl _

theorem next_of_not_mem (d : α) (h : a ∉ xs) : next d xs a = xs.headD d := by
  apply next_of_le
  rw [List.idxOf_of_notMem h]
  exact Nat.le_succ _

theorem next_mem (d a : α) (h : xs ≠ []) : next d xs a ∈ xs := by
  have hpos := List.length_pos_iff.mpr h
  rw [next, List.getD_eq_getElem]
  · exact List.getElem_mem _
  · split
    · assumption
    · exact hpos

theorem next_getD (d : α) (hn : xs.Nodup) (h : i < xs.length) :
    next d xs (xs.getD i d) = xs.getD ((i + 1) % xs.length) d := by
  rw [List.getD_eq_getElem _ _ h, next, hn.idxOf_getElem i h]
  by_cases hi : i + 1 < xs.length
  · rw [if_pos hi, Nat.mod_eq_of_lt hi]
  · have he : i + 1 = xs.length := by omega
    rw [if_neg hi, he, Nat.mod_self]

theorem getD_of_isChain (d : α) (hn : xs.Nodup) (hi : i < xs.length)
    (hc : ys.IsChain fun a b => b = next d xs a) (h : ys.head? = some (xs.getD i d))
    (hj : j < ys.length) : ys.getD j d = xs.getD ((j + i) % xs.length) d := by
  induction ys generalizing i j with
  | nil => cases h
  | cons y ys ih =>
    cases h
    cases j with
    | zero => rw [Nat.zero_add, Nat.mod_eq_of_lt hi, List.getD_cons_zero]
    | succ j =>
      rw [List.getD_cons_succ]
      cases ys with
      | nil => exact absurd hj (Nat.not_lt_zero _ ∘ Nat.lt_of_succ_lt_succ)
      | cons z ys =>
        obtain ⟨hz, hc⟩ := List.isChain_cons_cons.mp hc
        have hlt : (i + 1) % xs.length < xs.length := Nat.mod_lt _ (Nat.zero_lt_of_lt hi)
        rw [next_getD d hn hi] at hz
        rw [ih hlt hc (by rw [hz]; rfl) (Nat.lt_of_succ_lt_succ hj), Nat.add_mod_mod]
        congr 2
        omega

/-- As many elements in cyclic order as there are: each one once. -/
theorem perm_of_isChain (d : α) (hn : xs.Nodup) (hc : ys.IsChain fun a b => b = next d xs a)
    (hm : ∀ y ∈ ys.head?, y ∈ xs) (hl : ys.length = xs.length) : ys.Perm xs := by
  cases ys with
  | nil => rw [List.length_eq_zero_iff.mp hl.symm]
  | cons y ys =>
    obtain ⟨i, hi, hy⟩ := List.mem_iff_getElem.mp (hm y rfl)
    have hrot : y :: ys = xs.rotate i := by
      apply List.ext_getElem
      · rw [hl, List.length_rotate]
      · intro j hj hj'
        rw [List.getElem_rotate, ← List.getD_eq_getElem _ d hj, ← List.getD_eq_getElem _ d]
        exact getD_of_isChain d hn hi hc (by rw [List.getD_eq_getElem _ d hi, hy]; rfl) hj
    rw [hrot]
    exact xs.rotate_perm i

end Cyclic
