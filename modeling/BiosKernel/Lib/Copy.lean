import BiosKernel.Lib.Bytes
import Mathlib.Data.List.GetD

namespace ByteMem
set_option autoImplicit true

/-- The `n` bytes at `a`. -/
def bytes (m : Mem) (a n : Nat) : List UInt8 := (List.range n).map fun i => m (a + i)

/-- Write the bytes `bs` at `a`. -/
def put (m : Mem) (a : Nat) (bs : List UInt8) : Mem :=
  fun x => if a ≤ x ∧ x < a + bs.length then bs.getD (x - a) 0 else m x

/-- One step of a copying loop. -/
def copyByte (m : Mem) (dst src : Nat) : Mem := fun x => if x = dst then m src else m x

/-- A byte loop that copies from the first byte to the last. -/
def copyUp (m : Mem) (dst src : Nat) : Nat → Mem
  | 0 => m
  | n + 1 => copyByte (copyUp m dst src n) (dst + n) (src + n)

/-- A byte loop that copies from the last byte to the first. -/
def copyDown (m : Mem) (dst src : Nat) : Nat → Mem
  | 0 => m
  | n + 1 => copyDown (copyByte m (dst + n) (src + n)) dst src n

/-- The memory in which the `n` bytes at `dst` are those that were at `src`. -/
def moved (m : Mem) (dst src n : Nat) : Mem :=
  fun x => if dst ≤ x ∧ x < dst + n then m (src + (x - dst)) else m x

@[simp] theorem length_bytes (m : Mem) (a n : Nat) : (bytes m a n).length = n := by
  rw [bytes, List.length_map, List.length_range]

theorem bytes_append (m : Mem) (a n k : Nat) :
    bytes m a (n + k) = bytes m a n ++ bytes m (a + n) k := by
  simp only [bytes, List.range_add, List.map_append, List.map_map, Function.comp_def, Nat.add_assoc]

theorem bytes_eq_append_iff (h : xs.length = n) :
    bytes m a (n + k) = xs ++ ys ↔ bytes m a n = xs ∧ bytes m (a + n) k = ys := by
  rw [bytes_append]
  refine ⟨fun heq => List.append_inj heq ((length_bytes ..).trans h.symm), ?_⟩
  rintro ⟨rfl, rfl⟩
  rfl

theorem bytes_congr (h : ∀ i < n, m' (b + i) = m (a + i)) : bytes m' b n = bytes m a n := by
  apply List.map_congr_left
  intro i hi
  exact h i (List.mem_range.mp hi)

theorem of_bytes_eq (h : bytes m' b n = bytes m a n) (hi : i < n) : m' (b + i) = m (a + i) := by
  have hget := congrArg (·[i]?) h
  simpa [bytes, hi] using hget

theorem bytes_take (m : Mem) (a : Nat) (h : k ≤ n) : (bytes m a n).take k = bytes m a k := by
  rw [bytes, ← List.map_take, List.take_range, Nat.min_eq_left h]
  rfl

theorem put_apply (m : Mem) (a : Nat) (h : i < bs.length) : put m a bs (a + i) = bs.getD i 0 := by
  rw [put, if_pos (by omega), Nat.add_sub_cancel_left]

theorem put_apart (m : Mem) (h : x < a ∨ a + bs.length ≤ x) : put m a bs x = m x := by
  rw [put, if_neg (by omega)]

theorem bytes_put_self (m : Mem) (a : Nat) (bs : List UInt8) :
    bytes (put m a bs) a bs.length = bs := by
  apply List.ext_getElem (length_bytes ..)
  intro i hi hi'
  simp only [bytes, List.getElem_map, List.getElem_range]
  rw [put_apply m a hi', List.getD_eq_getElem _ _ hi']

theorem bytes_put_right (m : Mem) (a : Nat) (bs cs : List UInt8) :
    bytes (put m a (bs ++ cs)) (a + bs.length) cs.length = cs := by
  have h := bytes_put_self m a (bs ++ cs)
  rw [List.length_append, bytes_append] at h
  exact (List.append_inj h (length_bytes ..)).2

theorem bytes_put_apart (m : Mem) (h : b + k ≤ a ∨ a + bs.length ≤ b) :
    bytes (put m a bs) b k = bytes m b k := by
  apply bytes_congr
  intro i hi
  apply put_apart
  omega

theorem put_put_append (m : Mem) (a : Nat) (bs cs : List UInt8) :
    put (put m a bs) (a + bs.length) cs = put m a (bs ++ cs) := by
  funext x
  by_cases hx : x < a + bs.length
  · rw [put_apart _ (.inl hx)]
    by_cases ha : a ≤ x
    · rw [put, put, if_pos ⟨ha, hx⟩, if_pos (by rw [List.length_append]; omega),
        List.getD_append _ _ _ _ (by omega)]
    · rw [put_apart _ (by omega), put_apart _ (by omega)]
  · by_cases hend : x < a + bs.length + cs.length
    · have hi : x - a - bs.length = x - (a + bs.length) := by omega
      rw [put, if_pos (by omega), put, if_pos (by rw [List.length_append]; omega),
        List.getD_append_right _ _ _ _ (by omega), hi]
    · rw [put_apart _ (by omega), put_apart _ (by omega),
        put_apart _ (by rw [List.length_append]; omega)]

theorem bytes_fill (m : Mem) (a : Nat) (c : UInt8) (h : k ≤ n) :
    bytes (fill m a c n) a k = List.replicate k c := by
  apply List.ext_getElem
  · rw [length_bytes, List.length_replicate]
  · intro i hi hi'
    rw [length_bytes] at hi
    simp only [bytes, List.getElem_map, List.getElem_range, List.getElem_replicate]
    rw [fill_apply, if_pos (by omega)]

theorem bytes_fill_apart (m : Mem) (c : UInt8) (h : b + k ≤ a ∨ a + n ≤ b) :
    bytes (fill m a c n) b k = bytes m b k := by
  apply bytes_congr
  intro i hi
  rw [fill_apply, if_neg (by omega)]

theorem moved_apply (m : Mem) (dst src : Nat) (h : i < n) :
    moved m dst src n (dst + i) = m (src + i) := by
  have hin : dst ≤ dst + i ∧ dst + i < dst + n := by omega
  rw [moved, if_pos hin, Nat.add_sub_cancel_left]

theorem moved_apart (m : Mem) (src : Nat) (h : x < dst ∨ dst + n ≤ x) :
    moved m dst src n x = m x := by
  rw [moved, if_neg (by omega)]

theorem bytes_moved (m : Mem) (dst src : Nat) (h : k ≤ n) :
    bytes (moved m dst src n) dst k = bytes m src k := by
  apply bytes_congr
  intro i hi
  exact moved_apply m dst src (Nat.lt_of_lt_of_le hi h)

/-- Copying upwards is right when the target does not start behind the source. -/
theorem copyUp_eq (m : Mem) (h : dst ≤ src) (n : Nat) : copyUp m dst src n = moved m dst src n := by
  induction n with
  | zero =>
    funext x
    rw [copyUp, moved_apart m src (by omega)]
  | succ n ih =>
    funext x
    rw [copyUp, ih, copyByte, moved, moved, moved]
    by_cases hx : x = dst + n
    -- The byte read last lies behind everything written so far.
    · rw [if_pos hx, if_neg (by omega), if_pos (by omega), hx, Nat.add_sub_cancel_left]
    · rw [if_neg hx]
      by_cases hin : dst ≤ x ∧ x < dst + n
      · rw [if_pos hin, if_pos (by omega)]
      · rw [if_neg hin, if_neg (by omega)]

/-- Copying downwards is right when the target does not start before the source. -/
theorem copyDown_eq (m : Mem) (h : src ≤ dst) (n : Nat) :
    copyDown m dst src n = moved m dst src n := by
  induction n generalizing m with
  | zero =>
    funext x
    rw [copyDown, moved_apart m src (by omega)]
  | succ n ih =>
    funext x
    rw [copyDown, ih, moved, moved]
    by_cases hx : x = dst + n
    · rw [if_neg (by omega), if_pos (by omega), copyByte, if_pos hx, hx, Nat.add_sub_cancel_left]
    · by_cases hin : dst ≤ x ∧ x < dst + n
      · rw [if_pos hin, if_pos (by omega), copyByte, if_neg (by omega)]
      · rw [if_neg hin, if_neg (by omega), copyByte, if_neg hx]

attribute [irreducible] put moved

end ByteMem
