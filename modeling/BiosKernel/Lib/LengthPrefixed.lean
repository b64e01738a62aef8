import Mathlib.Data.Nat.Basic

namespace LengthPrefixed
set_option autoImplicit true

/-- Each item behind a byte with its length. -/
def items : List (List UInt8) → List UInt8
  | [] => []
  | x :: xs => UInt8.ofNat x.length :: x ++ items xs

/-- A length of zero ends the list. -/
def encode (xs : List (List UInt8)) : List UInt8 := items xs ++ [0]

/-- The items of an encoded list, and the bytes behind it. -/
def decode (bs : List UInt8) : Option (List (List UInt8) × List UInt8) :=
  match bs with
  | [] => none
  | n :: bs =>
    if n = 0 then some ([], bs)
    else if bs.length < n.toNat then none
    else do
      let (xs, rest) ← decode (bs.drop n.toNat)
      return (bs.take n.toNat :: xs, rest)
termination_by bs.length
decreasing_by
  rw [List.length_drop, List.length_cons]
  omega

/-- Items that are not empty and whose lengths fit in a byte are read back, whatever follows. -/
theorem decode_encode {xs : List (List UInt8)} (h : ∀ x ∈ xs, x ≠ [] ∧ x.length < 256)
    (rest : List UInt8) : decode (encode xs ++ rest) = some (xs, rest) := by
  induction xs with
  | nil => rw [encode, items, List.nil_append, List.singleton_append, decode, if_pos rfl]
  | cons x xs ih =>
    obtain ⟨⟨hne, hlt⟩, hxs⟩ := List.forall_mem_cons.mp h
    have hlen : (UInt8.ofNat x.length).toNat = x.length :=
      UInt8.toNat_ofNat_of_lt' hlt
    have hzero : UInt8.ofNat x.length ≠ 0 := by
      intro h0
      rw [h0] at hlen
      exact hne (List.length_eq_zero_iff.mp hlen.symm)
    have hbytes : encode (x :: xs) ++ rest =
        UInt8.ofNat x.length :: (x ++ (encode xs ++ rest)) := by
      simp only [encode, items, List.cons_append, List.append_assoc]
    rw [hbytes, decode, if_neg hzero, hlen, if_neg (by rw [List.length_append]; omega),
      List.drop_left, List.take_left, ih hxs]
    rfl

end LengthPrefixed
