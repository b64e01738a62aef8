import BiosKernel.Libc.Itoa

namespace BiosKernel
open Checked Positional
set_option autoImplicit true

theorem readDigit_ten (h : readDigit 10 v c = some w) :
    isdigit c = true ∧ w = v * 10 + (c.toNat - 48) := by
  obtain ⟨d, hd, hw⟩ := Option.bind_eq_some_iff.mp h
  rw [digitValue] at hd
  split at hw
  · rename_i hlt
    split at hd
    · rename_i hc
      cases hd
      cases hw
      exact ⟨decide_eq_true hc, rfl⟩
    · split at hd
      · rename_i hc
        cases hd
        have hlow : 97 ≤ c.toNat := UInt8.le_iff_toNat_le.mp hc.1
        omega
      · cases hd
  · cases hw

theorem atoiLoop_eq {s : CString} (h : value 10 s = some v) :
    (∀ c ∈ s, isdigit c = true) ∧
      s.foldl (fun num c => num * 10 + (Int64.ofNat c.toNat - 48)) 0 = Int64.ofNat v := by
  induction s using List.reverseRecOn generalizing v with
  | nil =>
    cases h
    exact ⟨fun _ hc => absurd hc List.not_mem_nil, rfl⟩
  | append_singleton s c ih =>
    rw [value_concat] at h
    obtain ⟨u, hu, hw⟩ := Option.bind_eq_some_iff.mp h
    obtain ⟨hall, hfold⟩ := ih hu
    obtain ⟨hc, rfl⟩ := readDigit_ten hw
    have hlow : 48 ≤ c.toNat := UInt8.le_iff_toNat_le.mp (of_decide_eq_true hc).1
    have hsub : Int64.ofNat c.toNat - 48 = Int64.ofNat (c.toNat - 48) :=
      (Int64.ofNat_sub _ _ hlow).symm
    refine ⟨List.forall_mem_append.mpr ⟨hall, List.forall_mem_singleton.mpr hc⟩, ?_⟩
    rw [List.foldl_append, hfold, List.foldl_cons, List.foldl_nil, hsub, Int64.ofNat_add,
      Int64.ofNat_mul]
    rfl

theorem not_isspace_of_isdigit (h : isdigit c = true) : isspace c = false := by
  rw [isspace, decide_eq_false_iff_not]
  rintro (rfl | rfl | rfl | rfl | rfl | rfl) <;> exact absurd h (by decide)

theorem ne_sign_of_isdigit (h : isdigit c = true) : c ≠ 45 ∧ c ≠ 43 := by
  constructor
  · rintro rfl
    exact absurd h (by decide)
  · rintro rfl
    exact absurd h (by decide)

theorem atoi_digits {s : CString} (h : value 10 s = some v) : atoi s = Int64.ofNat v := by
  obtain ⟨hall, hfold⟩ := atoiLoop_eq h
  have htake : s.takeWhile isdigit = s := List.takeWhile_eq_self_iff.mpr hall
  cases s with
  | nil => exact hfold
  | cons c s =>
    have hc := hall c List.mem_cons_self
    obtain ⟨hminus, hplus⟩ := ne_sign_of_isdigit hc
    have hspace : (c :: s).dropWhile isspace = c :: s :=
      List.dropWhile_cons_of_neg (by rw [not_isspace_of_isdigit hc]; decide)
    have hfirst : CString.at0 (c :: s) = c := rfl
    rw [atoi, hspace]
    simp only [hfirst, hminus, hplus, or_self, if_false]
    rw [htake, hfold]
    exact (Int64.mul_comm _ _).trans (Int64.mul_one _)

theorem atoi_neg {s : CString} (h : value 10 s = some v) : atoi (45 :: s) = -Int64.ofNat v := by
  obtain ⟨hall, hfold⟩ := atoiLoop_eq h
  have htake : s.takeWhile isdigit = s := List.takeWhile_eq_self_iff.mpr hall
  have hspace : (45 :: s).dropWhile isspace = 45 :: s := List.dropWhile_cons_of_neg (by decide)
  have hfirst : CString.at0 (45 :: s) = 45 := rfl
  rw [atoi, hspace]
  simp only [hfirst, true_or, if_true, List.tail_cons]
  rw [htake, hfold, Int64.mul_comm, Int64.mul_neg, Int64.mul_one]

theorem atoi_decimal (n : Int) : atoi (decimal n) = Int64.ofInt n := by
  have hvalue : value 10 (numeral 10 n.natAbs) = some n.natAbs :=
    (denotes_numeral (by decide) (by decide) n.natAbs).2
  rw [decimal]
  by_cases hneg : n < 0
  · rw [if_pos hneg, List.singleton_append, atoi_neg hvalue, ← Int64.ofInt_eq_ofNat,
      ← Int64.ofInt_neg]
    congr 1
    omega
  · rw [if_neg hneg, List.nil_append, atoi_digits hvalue, ← Int64.ofInt_eq_ofNat]
    congr 1
    omega

/-- The smallest number stays negative when it is negated, and its last digit is no digit. -/
theorem itoa64_minValue : itoa64 Int64.minValue 10 =
    .ok (some (decimal (-922337203685477580) ++ [79])) := by
  decide +kernel

/-- `itoa` writes a number so that `atoi` reads it again, and its digits in every base stand for
it. -/
structure RoundTrip (num : Int64) : Prop where
  decimal : ∃ s, itoa64 num 10 = .ok (some s) ∧ IsDecimal s num.toInt ∧ atoi s = num
  digits : 0 ≤ num → ∀ base : Int32, 2 ≤ base → base ≤ 36 →
    ∃ s, itoa64 num base = .ok (some s) ∧ Denotes base.toInt.toNat s num.toInt.toNat

theorem RoundTrip.ne_minValue (h : RoundTrip num) : num ≠ Int64.minValue := by
  rintro rfl
  obtain ⟨s, hs, _, hatoi⟩ := h.decimal
  rw [itoa64_minValue] at hs
  cases hs
  exact absurd hatoi (by decide +kernel)

/-- The round trip works for every number but the smallest one. -/
theorem roundTrip_iff (num : Int64) : RoundTrip num ↔ num ≠ Int64.minValue := by
  constructor
  · exact RoundTrip.ne_minValue
  · intro hmin
    refine ⟨⟨_, itoa64_decimal hmin, isDecimal_decimal _, ?_⟩, ?_⟩
    · rw [atoi_decimal, Int64.ofInt_toInt]
    · intro hnonneg base h2 h36
      rcases int64_cases num with h | ⟨n, hn, rfl⟩ | ⟨n, hpos, hn, rfl⟩
      · exact absurd h hmin
      · obtain ⟨hb, hb36, _⟩ := base_eq h2 h36
        refine ⟨_, itoa64_ofNat h2 h36 hn, ?_⟩
        rw [Int64.toInt_ofNat_of_lt hn]
        exact denotes_numeral hb hb36 n
      · exact absurd hnonneg (Int64.not_le.mpr (neg_ofNat_lt hpos hn))

/-- What is written for -2^63 ends with a letter, and `atoi` reads it without its last digit. -/
theorem not_roundTrip_minValue : ¬ RoundTrip Int64.minValue ∧
    itoa64 Int64.minValue 10 = .ok (some (decimal (-922337203685477580) ++ [79])) ∧
    atoi (decimal (-922337203685477580) ++ [79]) = -922337203685477580 :=
  ⟨fun h => h.ne_minValue rfl, itoa64_minValue, by decide +kernel⟩

end BiosKernel
