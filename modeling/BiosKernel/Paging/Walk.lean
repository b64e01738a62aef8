import BiosKernel.Paging.Tables
import Mathlib.Data.Nat.Bitwise

namespace BiosKernel
open Radix
set_option autoImplicit true

theorem tableIndex_eq (va n : Nat) : tableIndex va n = va / 2 ^ n % 512 := by
  rw [tableIndex, Nat.shiftRight_eq_div_pow]
  exact Nat.and_two_pow_sub_one_eq_mod _ 9

theorem tableIndex_lt (va n : Nat) : tableIndex va n < 512 := by
  rw [tableIndex_eq]
  exact Nat.mod_lt _ (by decide)

theorem and_ones_of_lt (h : i < 512) : i &&& 0b111111111 = i :=
  (Nat.and_two_pow_sub_one_eq_mod i 9).trans (Nat.mod_eq_of_lt h)

theorem shiftLeft_or (a : Nat) (h : b < 512) :
    a <<< (n + 9) ||| b <<< n = (a * 512 + b) <<< n := by
  have hb : b <<< n < 2 ^ (n + 9) := by
    rw [Nat.shiftLeft_eq, Nat.pow_add, Nat.mul_comm]
    exact Nat.mul_lt_mul_of_pos_left h (Nat.two_pow_pos n)
  rw [← Nat.shiftLeft_add_eq_or_of_lt hb, Nat.shiftLeft_eq, Nat.shiftLeft_eq, Nat.shiftLeft_eq,
    Nat.pow_add, Nat.add_mul, Nat.mul_comm (2 ^ n), Nat.mul_assoc]

theorem and_two_pow_ne_zero (x n : Nat) : x &&& 1 <<< n ≠ 0 ↔ x / 2 ^ n % 2 = 1 := by
  have hp := Nat.two_pow_pos n
  rw [Nat.one_shiftLeft, Nat.and_two_pow, Nat.testBit_eq_decide_div_mod_eq]
  by_cases h : x / 2 ^ n % 2 = 1
  · simp only [h, decide_true, Bool.toNat_true, Nat.one_mul, ne_eq, iff_true]
    exact Nat.ne_of_gt hp
  · simp only [h, decide_false, Bool.toNat_false, Nat.zero_mul, ne_eq, not_true]

theorem getAddrFromTableIndexes_eq (ha : a < 512) (hb : b < 512) (hc : c < 512) (hd : d < 512) :
    getAddrFromTableIndexes a b c d = (((a * 512 + b) * 512 + c) * 512 + d) * 4096 +
      if 256 ≤ a then 0xFFFF * 2 ^ 48 else 0 := by
  have h₁ : a <<< 39 ||| b <<< 30 = (a * 512 + b) <<< 30 := shiftLeft_or a hb
  have h₂ : (a * 512 + b) <<< 30 ||| c <<< 21 = ((a * 512 + b) * 512 + c) <<< 21 :=
    shiftLeft_or _ hc
  have h₃ : ((a * 512 + b) * 512 + c) <<< 21 ||| d <<< 12 =
      (((a * 512 + b) * 512 + c) * 512 + d) <<< 12 := shiftLeft_or _ hd
  rw [getAddrFromTableIndexes, and_ones_of_lt ha, and_ones_of_lt hb, and_ones_of_lt hc,
    and_ones_of_lt hd]
  simp only [h₁, h₂, h₃, and_two_pow_ne_zero]
  have hv : (((a * 512 + b) * 512 + c) * 512 + d) <<< 12 =
      (((a * 512 + b) * 512 + c) * 512 + d) * 4096 := Nat.shiftLeft_eq _ 12
  have hsign : (((a * 512 + b) * 512 + c) * 512 + d) * 4096 ||| 0xFFFF000000000000 =
      (((a * 512 + b) * 512 + c) * 512 + d) * 4096 + 0xFFFF * 2 ^ 48 := by
    rw [Nat.or_comm]
    have ho := Nat.two_pow_add_eq_or_of_lt (i := 48)
      (b := (((a * 512 + b) * 512 + c) * 512 + d) * 4096) (by omega) 0xFFFF
    exact ho.symm.trans (by omega)
  rw [hv, hsign]
  by_cases h : 256 ≤ a
  · rw [if_pos h, if_pos (by omega)]
  · rw [if_neg h, if_neg (by omega), Nat.add_zero]

theorem tableIndex_getAddr (ha : a < 512) (hb : b < 512) (hc : c < 512) (hd : d < 512)
    (hx : x < 512) :
    tableIndex (getAddrFromTableIndexes a b c d + 8 * x) 39 = a ∧
    tableIndex (getAddrFromTableIndexes a b c d + 8 * x) 30 = b ∧
    tableIndex (getAddrFromTableIndexes a b c d + 8 * x) 21 = c ∧
    tableIndex (getAddrFromTableIndexes a b c d + 8 * x) 12 = d ∧
    (getAddrFromTableIndexes a b c d + 8 * x) % pageSize / 8 = x := by
  rw [getAddrFromTableIndexes_eq ha hb hc hd]
  simp only [tableIndex_eq, pageSize]
  split <;> omega

/-- Where an entry of an upper level leads. -/
def nextTable (e : Nat) : Option Nat := if present e then some (frameOf e) else none

/-- The indices that lead from the PML4 to a table, the last one first, outside the window. -/
structure Path (q : List Nat) : Prop where
  length : q.length ≤ 3
  index : ∀ i ∈ q, i < 512
  start : q.getLast? ≠ some pml4RecursiveEntryNum

theorem Path.tail (h : Path (i :: p)) : Path p := by
  refine ⟨?_, fun j hj => h.index j (List.mem_cons_of_mem _ hj), ?_⟩
  · have hl := h.length
    rw [List.length_cons] at hl
    omega
  · cases p with
    | nil => intro hh; cases hh
    | cons j p =>
      have hs := h.start
      rw [List.getLast?_cons_cons] at hs
      exact hs

theorem Path.of_suffix (hp : Path p) (hs : q <:+ p) : Path q := by
  induction p with
  | nil =>
    rw [List.suffix_nil.mp hs]
    exact hp
  | cons i p ih =>
    rcases List.suffix_cons_iff.mp hs with he | hs
    · rw [he]
      exact hp
    · exact ih hp.tail hs

theorem Path.nil : Path [] := ⟨by simp, by simp, by simp⟩

/-- Where the table at a path is seen through the recursive window. -/
def windowAddr : List Nat → Nat
  | [] => getAddrFromTableIndexes 511 511 511 511
  | [i] => getAddrFromTableIndexes 511 511 511 i
  | [j, i] => getAddrFromTableIndexes 511 511 i j
  | k :: j :: i :: _ => getAddrFromTableIndexes 511 i j k

namespace Mmu

variable {s : Mmu}

def tableAt (s : Mmu) (q : List Nat) : Option Nat := follow nextTable s.mem s.cr3 q

structure SelfMapped (s : Mmu) : Prop where
  self : nextTable (s.mem s.cr3 pml4RecursiveEntryNum) = some s.cr3
  small : large (s.mem s.cr3 pml4RecursiveEntryNum) = false

theorem hardwareWalk_eq (s : Mmu) (a b c d : Nat)
    (hb : ∀ n, s.tableAt [a] = some n → present (s.mem n b) = true → large (s.mem n b) = false)
    (hc : ∀ n, s.tableAt [b, a] = some n → present (s.mem n c) = true →
      large (s.mem n c) = false) :
    hardwareWalk s.mem s.cr3 a b c d = s.tableAt [d, c, b, a] := by
  simp only [tableAt, follow, nextTable, Option.bind_some] at hb hc ⊢
  rw [hardwareWalk]
  cases ha : present (s.mem s.cr3 a) with
  | false => rfl
  | true =>
    rw [ha] at hb hc
    have hb := hb _ rfl
    simp only [Bool.not_true, Bool.false_eq_true, ↓reduceIte, Option.bind_some] at hc ⊢
    cases hpb : present (s.mem (frameOf (s.mem s.cr3 a)) b) with
    | false => rfl
    | true =>
      rw [hpb] at hc
      have hc := hc _ rfl
      simp only [Bool.not_true, Bool.false_eq_true, ↓reduceIte, Option.bind_some, hb hpb]
      cases hpc : present (s.mem (frameOf (s.mem (frameOf (s.mem s.cr3 a)) b)) c) with
      | false => rfl
      | true =>
        simp only [Bool.not_true, Bool.false_eq_true, ↓reduceIte, Option.bind_some, hc hpc]
        split
        · next h => rw [if_neg (by simpa using h)]
        · next h => rw [if_pos (by simpa using h)]

theorem translate_getAddr (s : Mmu) (ha : a < 512) (hb : b < 512) (hc : c < 512) (hd : d < 512)
    (hx : x < 512) : s.translate (getAddrFromTableIndexes a b c d + 8 * x) =
      hardwareWalk s.mem s.cr3 a b c d := by
  obtain ⟨h4, h3, h2, h1, _⟩ := tableIndex_getAddr ha hb hc hd hx
  rw [translate, h4, h3, h2, h1]

/-- A path may start with any number of turns through the recursive entry. -/
theorem SelfMapped.tableAt_append (h : s.SelfMapped) (q : List Nat) :
    s.tableAt (q ++ [511]) = s.tableAt q := by
  induction q with
  | nil => exact h.self
  | cons i q ih =>
    rw [tableAt] at ih ⊢
    rw [List.cons_append, follow, ih]
    rfl

/-- The window shows the table at the path, as long as no entry on the way maps a large page. -/
theorem SelfMapped.translate_window (h : s.SelfMapped) (hq : Path q) (hx : x < 512)
    (hl : ∀ p j n, (j :: p) <:+ q.tail → s.tableAt p = some n → present (s.mem n j) = true →
      large (s.mem n j) = false) :
    s.translate (windowAddr q + 8 * x) = s.tableAt q := by
  have h511 : 511 < 512 := by decide
  have hone (p : List Nat) : s.tableAt (p ++ [511]) = s.tableAt p := h.tableAt_append p
  have htwo (p : List Nat) : s.tableAt (p ++ [511, 511]) = s.tableAt p := by
    rw [← hone p, ← hone (p ++ [511]), List.append_assoc]
    rfl
  have hself (n : Nat) (hn : s.tableAt [] = some n) (_ : present (s.mem n 511) = true) :
      large (s.mem n 511) = false := by
    cases hn
    exact h.small
  match q, hq with
  | [], _ =>
    rw [windowAddr, s.translate_getAddr h511 h511 h511 h511 hx, hardwareWalk_eq]
    · exact (htwo [511, 511]).trans (htwo [])
    · intro n hn
      exact hself n ((hone []).symm.trans hn)
    · intro n hn
      exact hself n ((htwo []).symm.trans hn)
  | [i], hq =>
    rw [windowAddr, s.translate_getAddr h511 h511 h511 (hq.index i (by simp)) hx, hardwareWalk_eq]
    · exact (htwo [i, 511]).trans (hone [i])
    · intro n hn
      exact hself n ((hone []).symm.trans hn)
    · intro n hn
      exact hself n ((htwo []).symm.trans hn)
  | [j, i], hq =>
    rw [windowAddr, s.translate_getAddr h511 h511 (hq.index i (by simp)) (hq.index j (by simp)) hx,
      hardwareWalk_eq]
    · exact htwo [j, i]
    · intro n hn
      exact hself n ((hone []).symm.trans hn)
    · intro n hn
      exact hl [] i n (List.suffix_refl _) ((htwo []).symm.trans hn)
  | [k, j, i], hq =>
    rw [windowAddr, s.translate_getAddr h511 (hq.index i (by simp)) (hq.index j (by simp))
      (hq.index k (by simp)) hx, hardwareWalk_eq]
    · exact hone [k, j, i]
    · intro n hn
      exact hl [] i n (List.suffix_cons j [i]) ((hone []).symm.trans hn)
    · intro n hn
      exact hl [i] j n (List.suffix_refl _) ((hone [i]).symm.trans hn)
  | _ :: _ :: _ :: _ :: _, hq =>
    have hlen := hq.length
    simp only [List.length_cons] at hlen
    omega

theorem windowAddr_index (hq : Path q) (hx : x < 512) :
    (windowAddr q + 8 * x) % pageSize / 8 = x := by
  have h511 : 511 < 512 := by decide
  match q, hq with
  | [], _ => exact (tableIndex_getAddr h511 h511 h511 h511 hx).2.2.2.2
  | [i], hq =>
    exact (tableIndex_getAddr h511 h511 h511 (hq.index i (by simp)) hx).2.2.2.2
  | [j, i], hq =>
    exact (tableIndex_getAddr h511 h511 (hq.index i (by simp)) (hq.index j (by simp)) hx).2.2.2.2
  | k :: j :: i :: _, hq =>
    exact (tableIndex_getAddr h511 (hq.index i (by simp)) (hq.index j (by simp))
      (hq.index k (by simp)) hx).2.2.2.2

end Mmu

end BiosKernel
