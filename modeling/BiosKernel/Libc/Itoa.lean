import BiosKernel.Lib.Checked
import BiosKernel.Lib.Positional
import BiosKernel.Libc.Convert
import Mathlib.Data.Nat.Digits.Lemmas

namespace BiosKernel
open Checked Positional
set_option autoImplicit true

/-- The byte that `itoa` stores for a remainder. -/
def itoaDigit (rem : UInt64) : UInt8 :=
  if rem > 9 then ((rem - 10) + 97).toUInt8 else (rem + 48).toUInt8

/-- The loop of `itoa` over the digits, from the last one on. -/
def itoaLoop (base : Int64) : Nat → Int64 → CString → Result CString
  | 0, _, _ => .error .endless
  | rounds + 1, num, str =>
    if num ≠ 0 then
      let num := if num < 0 then num * -1 else num
      let rem := (num % base).toUInt64
      itoaLoop base rounds (num / base) (str ++ [itoaDigit rem])
    else .ok str

/-- The loop of `itoa` that swaps the bytes at `start` and `stop`. -/
def swapLoop : Nat → CString → Nat → Nat → Result CString
  | 0, _, _, _ => .error .endless
  | rounds + 1, str, start, stop =>
    if start < stop then
      let temp := str.getD start 0
      swapLoop rounds ((str.set start (str.getD stop 0)).set stop temp) (start + 1) (stop - 1)
    else .ok str

/-- `itoa` with its `int64_t`: the string that it writes, or none where it returns `NULL`. A number
has 64 digits at most. For the base 0 there is a message as well. -/
def itoa64 (num : Int64) (base : Int32) : Result (Option CString) :=
  if base = 0 then .ok none
  else if base < 2 ∨ base > 36 then .ok none
  else if num = 0 then .ok (some [48])
  else do
    let str := if num < 0 ∧ base = 10 then [45] else []
    let num := if num < 0 ∧ base = 10 then -num else num
    let str ← itoaLoop base.toInt64 65 num str
    let start := if str.at0 = 45 then 1 else 0
    let str ← swapLoop (str.length + 1) str start (str.length - 1)
    return some str

theorem swapLoop_eq (pre mid post : CString) (h : mid.length < rounds) :
    swapLoop rounds (pre ++ (mid ++ post)) pre.length (pre.length + mid.length - 1) =
      .ok (pre ++ (mid.reverse ++ post)) := by
  induction rounds generalizing pre mid post with
  | zero => exact absurd h (Nat.not_lt_zero _)
  | succ rounds ih =>
    rw [swapLoop]
    cases mid with
    | nil => rw [if_neg (by simp)]; rfl
    | cons x mid =>
      rcases List.eq_nil_or_concat mid with rfl | ⟨mid, y, rfl⟩
      · rw [if_neg (by simp)]
        rfl
      · -- the two ends change places, and the rest is turned around between them
        have hfirst : (pre ++ (x :: mid.concat y ++ post)).getD pre.length 0 = x := by simp
        have hlast : (pre ++ (x :: mid.concat y ++ post)).getD
            (pre.length + (x :: mid.concat y).length - 1) 0 = y := by simp
        have hswap : ((pre ++ (x :: mid.concat y ++ post)).set pre.length y).set
            (pre.length + (x :: mid.concat y).length - 1) x =
              (pre ++ [y]) ++ (mid ++ (x :: post)) := by simp
        have hstop : pre.length + (x :: mid.concat y).length - 1 - 1 =
            (pre ++ [y]).length + mid.length - 1 := by simp
        have hlen : (pre ++ [y]).length = pre.length + 1 := by simp
        rw [if_pos (by simp), hfirst, hlast]
        dsimp only
        rw [hswap, hstop, ← hlen, ih _ _ _ (by simp at h; omega)]
        simp

theorem itoaDigit_eq (h : d < 36) : itoaDigit (UInt64.ofNat d) = digitChar d := by
  revert d
  decide

theorem ofNat_emod_toUInt64 (hn : n < 2 ^ 63) (hb : b < 2 ^ 63) :
    (Int64.ofNat n % Int64.ofNat b).toUInt64 = UInt64.ofNat (n % b) := by
  have hmod : Int64.ofNat n % Int64.ofNat b = Int64.ofNat (n % b) := by
    apply Int64.toInt_inj.mp
    have hle := Nat.mod_le n b
    rw [Int64.toInt_mod, Int64.toInt_ofNat_of_lt hn, Int64.toInt_ofNat_of_lt hb,
      Int64.toInt_ofNat_of_lt (by omega)]
    rfl
  rw [hmod]
  rfl

theorem ofNat_div (hn : n < 2 ^ 63) (hb : b < 2 ^ 63) :
    Int64.ofNat n / Int64.ofNat b = Int64.ofNat (n / b) := by
  have hmin : Int64.ofNat n ≠ Int64.minValue := by
    intro h
    have hint := congrArg Int64.toInt h
    rw [Int64.toInt_ofNat_of_lt hn] at hint
    have hneg : Int64.minValue.toInt < 0 := by decide
    omega
  apply Int64.toInt_inj.mp
  have hle := Nat.div_le_self n b
  rw [Int64.toInt_div_of_ne_left _ _ hmin, Int64.toInt_ofNat_of_lt hn, Int64.toInt_ofNat_of_lt hb,
    Int64.toInt_ofNat_of_lt (by omega)]
  rfl

theorem ofNat_eq_zero_iff (hn : n < 2 ^ 63) : Int64.ofNat n = 0 ↔ n = 0 := by
  rw [← Int64.toInt_inj, Int64.toInt_ofNat_of_lt hn]
  exact Int.natCast_eq_zero

theorem not_ofNat_neg (hn : n < 2 ^ 63) : ¬ Int64.ofNat n < 0 := by
  rw [Int64.lt_iff_toInt_lt, Int64.toInt_ofNat_of_lt hn]
  exact Int.not_lt.mpr (Int.natCast_nonneg n)

/-- The loop stores the digits of a number that is not negative, the last one first. -/
theorem itoaLoop_eq (hb : 1 < b) (h36 : b ≤ 36) (hn : n < 2 ^ 63)
    (hrounds : (Nat.digits b n).length < rounds) (str : CString) :
    itoaLoop (Int64.ofNat b) rounds (Int64.ofNat n) str =
      .ok (str ++ (digits b n).reverse) := by
  induction rounds generalizing n str with
  | zero => exact absurd hrounds (Nat.not_lt_zero _)
  | succ rounds ih =>
    rw [itoaLoop]
    rcases Nat.eq_zero_or_pos n with rfl | hpos
    · rw [if_neg (fun h => h rfl), digits, Nat.digits_zero]
      simp
    · have hne : Int64.ofNat n ≠ 0 := by
        rw [ne_eq, ofNat_eq_zero_iff hn]
        omega
      have hle := Nat.div_le_self n b
      rw [Nat.digits_def' hb hpos, List.length_cons] at hrounds
      rw [if_pos hne, if_neg (not_ofNat_neg hn)]
      dsimp only
      rw [ofNat_emod_toUInt64 hn (by omega), ofNat_div hn (by omega),
        itoaDigit_eq (Nat.lt_of_lt_of_le (Nat.mod_lt n (by omega)) h36),
        ih (by omega) (by omega), digits_succ hb hpos]
      simp

theorem toInt_neg_ofNat (hn : n < 2 ^ 63) : (-Int64.ofNat n).toInt = -n := by
  rw [Int64.toInt_neg, Int64.toInt_ofNat_of_lt hn]
  exact Int.bmod_eq_of_le (by omega) (by omega)

theorem neg_ofNat_lt (hpos : 0 < n) (hn : n < 2 ^ 63) : -Int64.ofNat n < 0 := by
  rw [Int64.lt_iff_toInt_lt, toInt_neg_ofNat hn]
  exact Int.neg_neg_of_pos (Int.natCast_pos.mpr hpos)

theorem ne_zero_of_neg {num : Int64} (h : num < 0) : num ≠ 0 := by
  rintro rfl
  exact absurd h (by decide)

/-- A negative number is negated in the first round, if that is possible. -/
theorem itoaLoop_neg (base : Int64) (hpos : 0 < n) (hn : n < 2 ^ 63) (rounds : Nat)
    (str : CString) :
    itoaLoop base rounds (-Int64.ofNat n) str = itoaLoop base rounds (Int64.ofNat n) str := by
  cases rounds with
  | zero => rfl
  | succ rounds =>
    have hneg := neg_ofNat_lt hpos hn
    have hne : Int64.ofNat n ≠ 0 := by
      rw [ne_eq, ofNat_eq_zero_iff hn]
      omega
    have hmul : -Int64.ofNat n * -1 = Int64.ofNat n := by rw [Int64.neg_mul_neg, Int64.mul_one]
    rw [itoaLoop, itoaLoop, if_pos (ne_zero_of_neg hneg), if_pos hne, if_pos hneg,
      if_neg (not_ofNat_neg hn), hmul]

theorem int64_cases (num : Int64) : num = Int64.minValue ∨ (∃ n < 2 ^ 63, num = Int64.ofNat n) ∨
    ∃ n, 0 < n ∧ n < 2 ^ 63 ∧ num = -Int64.ofNat n := by
  have hlow := num.le_toInt
  have hhigh := num.toInt_lt
  by_cases hmin : num.toInt = -2 ^ 63
  · left
    exact Int64.toInt_inj.mp hmin
  · right
    by_cases hneg : num.toInt < 0
    · right
      refine ⟨num.toInt.natAbs, by omega, by omega, ?_⟩
      apply Int64.toInt_inj.mp
      rw [toInt_neg_ofNat (by omega)]
      omega
    · left
      refine ⟨num.toInt.natAbs, by omega, ?_⟩
      apply Int64.toInt_inj.mp
      rw [Int64.toInt_ofNat_of_lt (by omega)]
      omega

theorem at0_reverse_digits (hb : 1 < b) (h36 : b ≤ 36) (hn : 0 < n) :
    CString.at0 (digits b n).reverse ≠ 45 := by
  have hd : n % b < 36 := Nat.lt_of_lt_of_le (Nat.mod_lt n (by omega)) h36
  rw [digits_succ hb hn, List.reverse_append]
  intro h
  have hvalue := digitValue_digitChar hd
  rw [show digitChar (n % b) = 45 from h] at hvalue
  cases hvalue

theorem base_eq {base : Int32} (h2 : 2 ≤ base) (h36 : base ≤ 36) :
    1 < base.toInt.toNat ∧ base.toInt.toNat ≤ 36 ∧
      base.toInt64 = Int64.ofNat base.toInt.toNat := by
  have hlow : 2 ≤ base.toInt := Int32.le_iff_toInt_le.mp h2
  have hhigh : base.toInt ≤ 36 := Int32.le_iff_toInt_le.mp h36
  refine ⟨by omega, by omega, ?_⟩
  apply Int64.toInt_inj.mp
  rw [Int32.toInt_toInt64, Int64.toInt_ofNat_of_lt (by omega)]
  omega

theorem length_digits_lt (hb : 1 < b) (hn : n < 2 ^ 63) : (Nat.digits b n).length < 65 := by
  have hpow : 2 ^ 63 ≤ b ^ 63 := Nat.pow_le_pow_left hb 63
  have hle := (Nat.digits_length_le_iff (k := 63) hb n).mpr (by omega)
  omega

theorem itoa64_finish (hb : 1 < b) (h36 : b ≤ 36) (hpos : 0 < n) (hn : n < 2 ^ 63)
    (sign : CString) (hsign : sign = [] ∨ sign = [45]) :
    (do
      let str ← itoaLoop (Int64.ofNat b) 65 (Int64.ofNat n) sign
      let start := if str.at0 = 45 then 1 else 0
      let str ← swapLoop (str.length + 1) str start (str.length - 1)
      return some str : Result (Option CString)) = .ok (some (sign ++ digits b n)) := by
  rw [itoaLoop_eq hb h36 hn (length_digits_lt hb hn), ok_bind]
  have hstart : (if CString.at0 (sign ++ (digits b n).reverse) = 45 then 1 else 0) =
      sign.length := by
    rcases hsign with rfl | rfl
    · exact if_neg (at0_reverse_digits hb h36 hpos)
    · rfl
  have hrounds : (digits b n).reverse.length < (sign ++ (digits b n).reverse).length + 1 := by
    rw [List.length_append]
    omega
  have hswap := swapLoop_eq sign (digits b n).reverse [] hrounds
  rw [List.append_nil, List.append_nil, List.reverse_reverse, List.length_append] at hswap
  dsimp only
  rw [hstart, List.length_append, hswap]
  rfl

theorem itoa64_eq {base : Int32} (h2 : 2 ≤ base) (h36 : base ≤ 36) (num : Int64) :
    itoa64 num base = if num = 0 then .ok (some [48]) else do
      let str := if num < 0 ∧ base = 10 then [45] else []
      let num := if num < 0 ∧ base = 10 then -num else num
      let str ← itoaLoop base.toInt64 65 num str
      let start := if str.at0 = 45 then 1 else 0
      let str ← swapLoop (str.length + 1) str start (str.length - 1)
      return some str := by
  have hzero : base ≠ 0 := by
    rintro rfl
    exact absurd h2 (by decide)
  have hbounds : ¬ (base < 2 ∨ base > 36) := by
    rintro (h | h)
    · exact absurd h2 (Int32.not_le.mpr h)
    · exact absurd h36 (Int32.not_le.mpr h)
  rw [itoa64, if_neg hzero, if_neg hbounds]

theorem itoa64_ofNat (h2 : 2 ≤ base) (h36 : base ≤ 36) (hn : n < 2 ^ 63) :
    itoa64 (Int64.ofNat n) base = .ok (some (numeral base.toInt.toNat n)) := by
  obtain ⟨hb, hb36, hbase⟩ := base_eq h2 h36
  rw [itoa64_eq h2 h36, numeral]
  rcases Nat.eq_zero_or_pos n with rfl | hpos
  · rfl
  · have hne : n ≠ 0 := Nat.ne_of_gt hpos
    have hsign : ¬ (Int64.ofNat n < 0 ∧ base = 10) := fun h => not_ofNat_neg hn h.1
    rw [if_neg (mt (ofNat_eq_zero_iff hn).mp hne), if_neg hsign, if_neg hsign, hbase, if_neg hne]
    exact itoa64_finish hb hb36 hpos hn [] (.inl rfl)

/-- Only in the base 10 does a negative number have a sign. -/
theorem itoa64_neg (h2 : 2 ≤ base) (h36 : base ≤ 36) (hpos : 0 < n) (hn : n < 2 ^ 63) :
    itoa64 (-Int64.ofNat n) base =
      .ok (some ((if base = 10 then [45] else []) ++ numeral base.toInt.toNat n)) := by
  obtain ⟨hb, hb36, hbase⟩ := base_eq h2 h36
  have hneg := neg_ofNat_lt hpos hn
  rw [itoa64_eq h2 h36, if_neg (ne_zero_of_neg hneg), hbase, numeral, if_neg (Nat.ne_of_gt hpos)]
  by_cases h10 : base = 10
  · rw [if_pos ⟨hneg, h10⟩, if_pos ⟨hneg, h10⟩, if_pos h10, Int64.neg_neg]
    exact itoa64_finish hb hb36 hpos hn [45] (.inr rfl)
  · have hsign : ¬ (-Int64.ofNat n < 0 ∧ base = 10) := fun h => h10 h.2
    rw [if_neg hsign, if_neg hsign, if_neg h10]
    dsimp only
    rw [itoaLoop_neg _ hpos hn]
    exact itoa64_finish hb hb36 hpos hn [] (.inl rfl)

theorem itoa64_eq_itoa (h2 : 2 ≤ base) (h36 : base ≤ 36) (hmin : num ≠ Int64.minValue) :
    itoa64 num base = .ok (some (itoa num.toInt base.toInt.toNat)) := by
  have h10 : base.toInt.toNat = 10 ↔ base = 10 := by
    rw [← Int32.toInt_inj]
    have hlow : 2 ≤ base.toInt := Int32.le_iff_toInt_le.mp h2
    exact ⟨fun h => show base.toInt = 10 by omega, fun h => by rw [h]; rfl⟩
  rcases int64_cases num with h | ⟨n, hn, rfl⟩ | ⟨n, hpos, hn, rfl⟩
  · exact absurd h hmin
  · have hsign : ¬ ((n : Int) < 0 ∧ base.toInt.toNat = 10) := by omega
    rw [itoa64_ofNat h2 h36 hn, itoa, Int64.toInt_ofNat_of_lt hn, if_neg hsign, numeral]
    simp only [Int.natCast_eq_zero, Int.natAbs_natCast, List.nil_append]
    rfl
  · have hne : ¬ (-(n : Int) = 0) := by omega
    have hsign : (-(n : Int) < 0 ∧ base.toInt.toNat = 10) ↔ base = 10 := by
      rw [← h10]
      omega
    rw [itoa64_neg h2 h36 hpos hn, itoa, toInt_neg_ofNat hn, if_neg hne, numeral,
      if_neg (Nat.ne_of_gt hpos), Int.natAbs_neg, Int.natAbs_natCast]
    simp only [hsign]
    rfl

theorem itoa_ten (n : Int) : itoa n 10 = decimal n := by
  rw [itoa, decimal, numeral]
  by_cases h0 : n = 0
  · subst h0
    rfl
  · rw [if_neg h0, if_neg (Int.natAbs_ne_zero.mpr h0)]
    simp only [and_true]
    rfl

theorem itoa64_decimal (hmin : num ≠ Int64.minValue) :
    itoa64 num 10 = .ok (some (decimal num.toInt)) := by
  rw [itoa64_eq_itoa (by decide) (by decide) hmin, ← itoa_ten]
  rfl

end BiosKernel
