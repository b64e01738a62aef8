import BiosKernel.Libc.Printf

namespace BiosKernel
open Checked Positional
set_option autoImplicit true

theorem toInt_shiftRight_one (i : Int64) : (i >>> 1).toInt = i.toInt / 2 := by
  have hshift : (i >>> 1).toBitVec = i.toBitVec.sshiftRight 1 := Int64.toBitVec_shiftRight i 1
  have hint : (i >>> 1).toInt = (i.toBitVec.sshiftRight 1).toInt := congrArg BitVec.toInt hshift
  rw [hint, BitVec.toInt_sshiftRight, Int.shiftRight_eq_div_pow]
  rfl

theorem ofNat_shiftRight_one (hn : n < 2 ^ 63) : Int64.ofNat n >>> 1 = Int64.ofNat (n / 2) := by
  apply Int64.toInt_inj.mp
  rw [toInt_shiftRight_one, Int64.toInt_ofNat_of_lt hn, Int64.toInt_ofNat_of_lt (by omega)]
  rfl

theorem ofNat_and_one (n : Nat) : Int64.ofNat n &&& 1 ≠ 0 ↔ n % 2 = 1 := by
  have hnat : (Int64.ofNat n &&& 1).toBitVec.toNat = n % 2 := by
    have hone : (1 : Int64).toBitVec.toNat = 1 := rfl
    rw [Int64.toBitVec_and, BitVec.toNat_and, hone, Nat.and_one_is_mod, Int64.toBitVec_ofNat',
      BitVec.toNat_ofNat]
    omega
  have hzero : Int64.ofNat n &&& 1 = 0 ↔ n % 2 = 0 := by
    rw [← hnat, ← Int64.toBitVec_inj, ← BitVec.toNat_inj]
    rfl
  rw [ne_eq, hzero]
  omega

theorem ofNat_pos_iff (hn : n < 2 ^ 63) : Int64.ofNat n > 0 ↔ 0 < n := by
  rw [gt_iff_lt, Int64.lt_iff_toInt_lt, Int64.toInt_ofNat_of_lt hn]
  exact Int.natCast_pos

theorem numeral_two (n : Nat) : numeral 2 n =
    (if 0 < n / 2 then numeral 2 (n / 2) else []) ++ [if n % 2 = 1 then 49 else 48] := by
  have hdigit : digitChar (n % 2) = if n % 2 = 1 then 49 else 48 := by
    rcases Nat.mod_two_eq_zero_or_one n with h | h
    · rw [h]
      rfl
    · rw [h]
      rfl
  by_cases hhalf : 0 < n / 2
  · rw [if_pos hhalf, numeral, numeral, if_neg (by omega), if_neg (by omega),
      digits_succ (by decide) (by omega), hdigit]
  · rw [if_neg hhalf]
    obtain rfl | rfl : n = 0 ∨ n = 1 := by omega
    · rfl
    · rfl

theorem binaryLoop_eq (hn : n < 2 ^ 63) (hrounds : n < 2 ^ rounds) (ptr : CString) :
    binaryLoop (rounds + 1) (Int64.ofNat n) ptr = .ok (numeral 2 n ++ ptr) := by
  induction rounds generalizing n ptr with
  | zero =>
    obtain rfl : n = 0 := by omega
    rfl
  | succ rounds ih =>
    rw [binaryLoop, numeral_two]
    simp only [ofNat_and_one, ofNat_shiftRight_one hn, ofNat_pos_iff (show n / 2 < 2 ^ 63 by omega)]
    split
    · rw [ih (by omega) (by omega), List.append_assoc]
      rfl
    · rfl

/-- The loop of `%b` ends behind the first digit of a negative number. -/
theorem binaryLoop_neg {i : Int64} (h : i < 0) (rounds : Nat) (ptr : CString) :
    binaryLoop (rounds + 1) i ptr = .ok ((if i &&& 1 ≠ 0 then 49 else 48) :: ptr) := by
  have hshift : ¬ i >>> 1 > 0 := by
    rw [gt_iff_lt, Int64.lt_iff_toInt_lt, toInt_shiftRight_one]
    have hneg : i.toInt < 0 := Int64.lt_iff_toInt_lt.mp h
    have hzero : (0 : Int64).toInt = 0 := rfl
    omega
  rw [binaryLoop]
  exact if_neg hshift

/-- Wherever the conversion stands in a format, `printf` writes the text for the argument. -/
def Emits (conversion : UInt8) (arg : PrintfArg) (text : CString) : Prop :=
  text.length ≤ intMax ∧
    ∀ rest args, Writes (percent :: conversion :: rest) (arg :: args) text rest args

theorem emits_of_text (hc : c ∈ conversions) (htext : conversionText c arg = .ok text)
    (hne : text ≠ []) (hlen : text.length ≤ intMax) : Emits c arg text :=
  ⟨hlen, writes_conversion hc htext (.inr hne)⟩

theorem Emits.unique (h : Emits c arg text) (h' : Emits c arg text') : text = text' := by
  have hprinted {text : CString} (h : Emits c arg text) :
      printfLoop 2 [percent, c] [arg] 0 [] = .ok ⟨text, (0 + text.length : Nat)⟩ := by
    rw [h.2 [] [] 1 0 [] (by have := h.1; omega), printfLoop_end]
    rfl
  have heq := (hprinted h).symm.trans (hprinted h')
  injection heq with heq
  exact congrArg Printed.out heq

/-- The digits that `printf` writes of a 64-bit value, behind the prefix, stand for it. -/
structure ShowsValue (v : UInt64) : Prop where
  hexadecimal : ∃ ds, Emits 120 (.int64 v.toInt64) ds ∧ Denotes 16 ds v.toNat
  pointer : ∃ ds, Emits 112 (.int64 v.toInt64) (48 :: 120 :: ds) ∧ Denotes 16 ds v.toNat
  binary : ∃ ds, Emits 98 (.int64 v.toInt64) (48 :: 98 :: ds) ∧ Denotes 2 ds v.toNat

theorem length_numeral_lt (hb : 1 < b) (hn : n < 2 ^ 63) : (numeral b n).length < 65 := by
  rw [numeral]
  split
  · decide
  · rw [length_digits]
    exact length_digits_lt hb hn

theorem toInt64_eq (v : UInt64) : v.toInt64 = Int64.ofNat v.toNat := by
  rw [← UInt64.toInt64_ofNat', UInt64.ofNat_toNat]

theorem showsValue_of_lt (h : v.toNat < 2 ^ 63) : ShowsValue v := by
  have hlen (b : Nat) (hb : 1 < b) (front : CString) (hp : front.length ≤ 2) :
      (front ++ numeral b v.toNat).length ≤ intMax := by
    have := length_numeral_lt hb h
    rw [List.length_append, intMax]
    omega
  have hbuffer : itoaBuffer v.toInt64 16 = .ok (numeral 16 v.toNat) := by
    rw [itoaBuffer, toInt64_eq, itoa64_ofNat (by decide) (by decide) h]
    rfl
  refine ⟨⟨numeral 16 v.toNat, ?_, denotes_numeral (by decide) (by decide) _⟩,
    ⟨numeral 16 v.toNat, ?_, denotes_numeral (by decide) (by decide) _⟩,
    ⟨numeral 2 v.toNat, ?_, denotes_numeral (by decide) (by decide) _⟩⟩
  · exact emits_of_text (by decide) hbuffer (numeral_ne_nil (by decide) _)
      (hlen 16 (by decide) [] (by decide))
  · refine emits_of_text (by decide) ?_ (List.cons_ne_nil _ _)
      (hlen 16 (by decide) [48, 120] (by decide))
    rw [conversionText, if_neg (by decide), if_pos rfl, hbuffer]
    rfl
  · refine emits_of_text (by decide) ?_ (List.cons_ne_nil _ _)
      (hlen 2 (by decide) [48, 98] (by decide))
    rw [conversionText, if_neg (by decide), if_neg (by decide), if_pos rfl, toInt64_eq,
      binaryLoop_eq h h, List.append_nil]
    rfl

theorem emits_binary_of_le {v : UInt64} (h : 2 ^ 63 ≤ v.toNat) : ∃ d ∈ [(48 : UInt8), 49],
    Emits 98 (.int64 v.toInt64) [48, 98, d] := by
  have hneg : v.toInt64 < 0 := by
    have hlt := v.toNat_lt
    have hzero : (0 : Int64).toInt = 0 := rfl
    rw [Int64.lt_iff_toInt_lt, toInt64_eq, Int64.toInt_ofNat', Int.bmod_def, Int64.size]
    omega
  refine ⟨if v.toInt64 &&& 1 ≠ 0 then 49 else 48, ?_, ?_⟩
  · split <;> decide
  · refine emits_of_text (by decide) ?_ (List.cons_ne_nil _ _) (show 3 ≤ intMax by decide)
    rw [conversionText, if_neg (by decide), if_neg (by decide), if_pos rfl, binaryLoop_neg hneg]
    rfl

theorem ShowsValue.lt (hshows : ShowsValue v) : v.toNat < 2 ^ 63 := by
  by_contra h
  obtain ⟨ds, hds, hdenotes⟩ := hshows.binary
  obtain ⟨d, hd, hemits⟩ := emits_binary_of_le (Nat.le_of_not_lt h)
  have heq := hds.unique hemits
  simp only [List.cons.injEq, true_and] at heq
  subst heq
  have hbit : ∀ d ∈ [(48 : UInt8), 49], value 2 [d] = some (d.toNat - 48) ∧ d.toNat ≤ 49 := by
    decide +kernel
  have hvalue := Option.some.inj ((hbit d hd).1.symm.trans hdenotes.2)
  have hle := (hbit d hd).2
  omega

/-- Exactly the values whose top bit is not set are shown as they are. -/
theorem showsValue_iff (v : UInt64) : ShowsValue v ↔ v.toNat < 2 ^ 63 :=
  ⟨ShowsValue.lt, showsValue_of_lt⟩

/-- The address of the PML4 in the recursive window, and its three texts. -/
theorem not_showsValue_window : ¬ ShowsValue 0xFFFFFFFFFFFFF000 ∧
    printf (some [37, 120]) [.int64 (UInt64.toInt64 0xFFFFFFFFFFFFF000)] =
      .ok ⟨[49, 48, 48, 48], 4⟩ ∧
    printf (some [37, 112]) [.int64 (UInt64.toInt64 0xFFFFFFFFFFFFF000)] =
      .ok ⟨[48, 120, 49, 48, 48, 48], 6⟩ ∧
    printf (some [37, 98]) [.int64 (UInt64.toInt64 0xFFFFFFFFFFFFF000)] =
      .ok ⟨[48, 98, 48], 3⟩ :=
  ⟨fun h => absurd h.lt (by decide), by decide +kernel, by decide +kernel, by decide +kernel⟩

end BiosKernel
