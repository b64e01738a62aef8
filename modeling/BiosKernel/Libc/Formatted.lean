import BiosKernel.Libc.Printf

namespace BiosKernel
open Checked Positional
set_option autoImplicit true

/-- The text of an argument for `%c`, `%s`, `%d` and `%u`, if it is of the right type. -/
def representation (conversion : UInt8) : PrintfArg → Option CString
  | .int i =>
    if conversion = 99 then some [i.toUInt32.toUInt8]
    else if conversion = 100 then some (decimal i.toInt)
    else none
  | .string s => if conversion = 115 then some s.text else none
  | .uint32 i => if conversion = 117 then some (decimal i.toNat) else none
  | .int64 _ => none

/-- The text that a format stands for, if the arguments match it. Behind a percent sign that begins
nothing it is taken as it is. -/
def formatted : CString → List PrintfArg → Option CString
  | [], _ => some []
  | c :: format, args =>
    if c ≠ percent then (formatted format args).map (c :: ·)
    else
      match format with
      | [] => some [percent]
      | d :: format =>
        if d = percent then (formatted format args).map (percent :: ·)
        else if d ∈ conversions then do
          let arg ← args.head?
          let s ← representation d arg
          let rest ← formatted format args.tail
          return s ++ rest
        else some (percent :: d :: format)

theorem formatted_literal (h : c ≠ percent) (format : CString) (args : List PrintfArg) :
    formatted (c :: format) args = (formatted format args).map (c :: ·) := by
  rw [formatted.eq_def]
  exact if_pos h

theorem formatted_double (format : CString) (args : List PrintfArg) :
    formatted (percent :: percent :: format) args =
      (formatted format args).map (percent :: ·) := by
  rw [formatted.eq_def]
  rfl

theorem formatted_conversion (h : c ∈ conversions) (format : CString) (args : List PrintfArg) :
    formatted (percent :: c :: format) args = do
      let arg ← args.head?
      let s ← representation c arg
      let rest ← formatted format args.tail
      return s ++ rest := by
  have hpercent : c ≠ percent := by
    rintro rfl
    exact absurd h (by decide)
  rw [formatted.eq_def]
  exact (if_neg hpercent).trans (if_pos h)

theorem formatted_unsupported (h : CString.at0 format ∉ percent :: conversions)
    (args : List PrintfArg) : formatted (percent :: format) args = some (percent :: format) := by
  cases format with
  | nil => rw [formatted.eq_def]; rfl
  | cons c format =>
    have hc : c ∉ percent :: conversions := h
    rw [List.mem_cons, not_or] at hc
    rw [formatted.eq_def]
    exact (if_neg hc.1).trans (if_neg hc.2)

theorem itoaBuffer_decimal {num : Int64} (hmin : -2 ^ 63 < num.toInt) :
    itoaBuffer num 10 = .ok (decimal num.toInt) := by
  have hne : num ≠ Int64.minValue := by
    rintro rfl
    exact absurd hmin (by decide)
  rw [itoaBuffer, itoa64_decimal hne]

theorem conversionText_eq (h : representation c arg = some text) :
    conversionText c arg = .ok text ∧ (c = 115 ∨ text ≠ []) := by
  cases arg with
  | int i =>
    rw [representation] at h
    rw [conversionText]
    split at h
    · rename_i hc
      cases h
      rw [if_pos hc]
      exact ⟨rfl, .inr (List.cons_ne_nil _ _)⟩
    · rename_i hc
      split at h
      · rename_i hd
        cases h
        have hlow := i.le_toInt
        rw [if_neg hc, if_pos hd, itoaBuffer_decimal (by rw [Int32.toInt_toInt64]; omega),
          Int32.toInt_toInt64]
        exact ⟨rfl, .inr (decimal_ne_nil _)⟩
      · cases h
  | string s =>
    rw [representation] at h
    split at h
    · rename_i hs
      cases h
      rw [conversionText, if_pos hs]
      exact ⟨rfl, .inl hs⟩
    · cases h
  | uint32 i =>
    rw [representation] at h
    split at h
    · rename_i hu
      cases h
      have hint : (Int64.ofNat i.toNat).toInt = i.toNat :=
        Int64.toInt_ofNat_of_lt (Nat.lt_trans i.toNat_lt (by decide))
      rw [conversionText, if_pos hu, itoaBuffer_decimal (by rw [hint]; omega), hint]
      exact ⟨rfl, .inr (decimal_ne_nil _)⟩
    · cases h
  | int64 i => cases h

theorem formatted_append (h : ∀ c ∈ literal, c ≠ percent) (rest : CString)
    (args : List PrintfArg) :
    formatted (literal ++ rest) args = (formatted rest args).map (literal ++ ·) := by
  induction literal with
  | nil => simp
  | cons c literal ih =>
    rw [List.forall_mem_cons] at h
    rw [List.cons_append, formatted_literal h.1, ih h.2, Option.map_map]
    rfl

theorem literal_split (c : UInt8) (format : CString) :
    ∃ run rest, format = run ++ rest ∧ (∀ c ∈ run, c ≠ percent) ∧
      literalLength (c :: format) = (c :: run).length := by
  refine ⟨format.takeWhile fun c => c ≠ 0 ∧ c ≠ percent,
    format.dropWhile fun c => c ≠ 0 ∧ c ≠ percent, List.takeWhile_append_dropWhile.symm, ?_, ?_⟩
  · intro c hc
    have hkept := List.mem_takeWhile_imp hc
    exact (of_decide_eq_true hkept).2
  · rw [literalLength, List.tail_cons, List.length_cons, Nat.add_comm]

/-- What one round does with a format: it writes the text of its first piece. -/
theorem exists_writes (hne : format ≠ []) (h0 : 0 ∉ format)
    (h : formatted format args = some text) :
    ∃ piece rest args' tail, text = piece ++ tail ∧ formatted rest args' = some tail ∧ 0 ∉ rest ∧
      rest.length < format.length ∧ Writes format args piece rest args' := by
  obtain ⟨c, format, rfl⟩ := List.exists_cons_of_ne_nil hne
  rw [List.mem_cons, not_or] at h0
  by_cases hc : c = percent
  · subst hc
    by_cases hconv : CString.at0 format ∈ percent :: conversions
    · cases format with
      | nil => exact absurd hconv (by decide)
      | cons d format =>
        rw [List.mem_cons, not_or] at h0
        rcases List.mem_cons.mp hconv with hd | hd
        · obtain rfl : d = percent := hd
          obtain ⟨run, rest, rfl, hrun, hlen⟩ := literal_split percent format
          rw [formatted_double, formatted_append hrun, Option.map_map] at h
          obtain ⟨tail, htail, rfl⟩ := Option.map_eq_some_iff.mp h
          refine ⟨percent :: run, rest, args, tail, rfl, htail,
            fun hz => h0.2.2 (List.mem_append_right _ hz), ?_, writes_double hlen args⟩
          simp only [List.length_cons, List.length_append]
          omega
        · have hd : d ∈ conversions := hd
          rw [formatted_conversion hd] at h
          obtain ⟨arg, harg, h⟩ := Option.bind_eq_some_iff.mp h
          obtain ⟨s, hs, h⟩ := Option.bind_eq_some_iff.mp h
          obtain ⟨tail, htail, htext⟩ := Option.bind_eq_some_iff.mp h
          obtain ⟨args, rfl⟩ := List.head?_eq_some_iff.mp harg
          obtain ⟨hconversion, hempty⟩ := conversionText_eq hs
          cases htext
          refine ⟨s, format, args, tail, rfl, htail, h0.2.2, ?_,
            writes_conversion hd hconversion hempty format args⟩
          simp only [List.length_cons]
          omega
    · rw [formatted_unsupported hconv] at h
      cases h
      exact ⟨percent :: format, [], args, [], (List.append_nil _).symm, rfl, List.not_mem_nil,
        Nat.succ_pos _, writes_unsupported h0.2 hconv args⟩
  · obtain ⟨run, rest, rfl, hrun, hlen⟩ := literal_split c format
    rw [formatted_literal hc, formatted_append hrun, Option.map_map] at h
    obtain ⟨tail, htail, rfl⟩ := Option.map_eq_some_iff.mp h
    refine ⟨c :: run, rest, args, tail, rfl, htail,
      fun hz => h0.2 (List.mem_append_right _ hz), ?_,
      writes_literal (fun hz => h0.1 hz.symm) hc hlen args⟩
    simp only [List.length_cons, List.length_append]
    omega

theorem printfLoop_formatted (h0 : 0 ∉ format) (hrounds : format.length < rounds)
    (h : formatted format args = some text) (hroom : written + text.length ≤ intMax)
    (out : CString) :
    printfLoop rounds format args written out =
      .ok ⟨out ++ text, (written + text.length : Nat)⟩ := by
  induction rounds generalizing format args text written out with
  | zero => exact absurd hrounds (Nat.not_lt_zero _)
  | succ rounds ih =>
    by_cases hne : format = []
    · subst hne
      cases h
      rw [printfLoop_end, List.append_nil]
      rfl
    · obtain ⟨piece, rest, args', tail, rfl, htail, h0', hlt, hwrites⟩ := exists_writes hne h0 h
      rw [List.length_append] at hroom ⊢
      rw [hwrites rounds written out (by omega), ih h0' (by omega) htail (by omega),
        List.append_assoc, Nat.add_assoc]

/-- `printf` writes the text that its format stands for, and returns its length. -/
theorem printf_formatted (h0 : 0 ∉ format) (h : formatted format args = some text)
    (hlen : text.length ≤ intMax) :
    printf (some format) args = .ok ⟨text, text.length⟩ := by
  have hroom : 0 + text.length ≤ intMax := by omega
  have hloop := printfLoop_formatted h0 (Nat.lt_succ_self _) h hroom []
  rw [Nat.zero_add] at hloop
  exact hloop

/-- "%d%% of %s%c%u %z %d" with -5, "it", '!' and 7. Behind "%z" nothing is converted. -/
theorem printf_formatted_mixed :
    let format : CString := [37, 100, 37, 37, 32, 111, 102, 32, 37, 115, 37, 99, 37, 117, 32, 37,
      122, 32, 37, 100]
    printf (some format) [.int (-5), .string [105, 116], .int 33, .uint32 7] =
      .ok ⟨[45, 53, 37, 32, 111, 102, 32, 105, 116, 33, 55, 32, 37, 122, 32, 37, 100], 17⟩ :=
  printf_formatted (by decide) (by decide) (by decide)

end BiosKernel
