import BiosKernel.Libc.ScanRun

namespace BiosKernel
open Checked
set_option autoImplicit true

theorem ScanField.nextIdx_eq {f : ScanField} (h : TokenAt f.space f.token s)
    (hshort : (f.text ++ s).length < 2 ^ 31)
    (hscan : scanSpecifier f.specifier scratch (f.text ++ s) maxrem f.dst = .ok (some (n, d))) :
    n = f.text.length := by
  obtain ⟨gap, dst, space, token⟩ := f
  have hlen : ((space ++ token).length : Int) = space.length + token.length := by
    rw [List.length_append, Int.natCast_add]
  rw [text, List.append_assoc] at hshort hscan
  rw [text, hlen]
  cases dst with
  | chars old =>
    obtain ⟨_, dst, hnext, _⟩ := scanSpecifier_chars_iff.mp hscan
    exact h.nextIdx_of_short hshort hnext
  | int old =>
    obtain ⟨g, hbuffer⟩ := itoaScratch_eq scratch old
    obtain ⟨dst, hnext, _⟩ := (scanSpecifier_int_iff hbuffer).mp hscan
    exact h.nextIdx_of_short hshort hnext

theorem nextIdxs_eq {written position : Nat} (h : Separated fields rest)
    (hshort : (inputOf fields rest).length < 2 ^ 31) (hw : written + fields.length ≤ intMax)
    (hrounds : (formatOf fields).length < rounds)
    (hposition : str.drop position = inputOf fields rest)
    (hrun : sscanfLoop scratch str rounds (formatOf fields) (fields.map ScanField.dst) done position
      written = .ok r) (hvalue : 0 ≤ r.value) :
    r.nextIdxs = done.map Prod.snd ++ fields.map fun f => (f.text.length : Int) := by
  induction fields generalizing rounds written position done with
  | nil =>
    obtain ⟨_, hnil, _⟩ := scansFrom_nil hrounds done position written
    rw [hnil] at hrun
    cases hrun
    rfl
  | cons f fields ih =>
    rw [List.length_cons] at hw
    have hpos := List.length_pos_of_ne_nil h.text_ne
    have hbehind := drop_behind hposition
    obtain ⟨_, n, d, hscan, hrun⟩ := of_sscanfLoop_field (by omega) hrounds hrun hvalue
    rw [inputOf_cons] at hposition hshort
    rw [hposition] at hscan
    obtain rfl := ScanField.nextIdx_eq h.tokenAt hshort hscan
    rw [int32_succ (by omega) hpos, ← Int.natCast_add] at hrun
    rw [List.length_append] at hshort
    rw [ih h.2.2 (by omega) (by omega) (lt_roundsAfter hrounds) hbehind hrun, List.map_append,
      List.append_assoc]
    rfl

theorem Separated.length_le (h : Separated fields rest) :
    fields.length ≤ (inputOf fields rest).length := by
  induction fields with
  | nil => exact Nat.zero_le _
  | cons f fields ih =>
    have hpos := List.length_pos_of_ne_nil h.text_ne
    have hle := ih h.2.2
    rw [inputOf_cons, List.length_append, List.length_cons]
    omega

/-- Each destination holds what its specifier is meant to leave there, and the number of specifiers
is returned. In an input whose offsets do not fit in an `int` each specifier must have taken its own
token, too. -/
def Scans (scratch : Nat → CString) (fields : List ScanField) (rest : CString) : Prop :=
  ∃ r, sscanf scratch (inputOf fields rest) (formatOf fields) (fields.map ScanField.dst) = .ok r ∧
    List.Forall₂ ScanField.Holds fields r.dsts ∧ r.value = fields.length ∧
    (2 ^ 31 ≤ (inputOf fields rest).length →
      r.nextIdxs = fields.map fun f => (f.text.length : Int))

theorem scans_iff_scansFrom (h : Separated fields rest) :
    Scans scratch fields rest ↔
      ScansFrom scratch (inputOf fields rest) ((formatOf fields).length + 1) fields [] 0 0 := by
  have hmax : intMax = 2 ^ 31 - 1 := rfl
  constructor
  · rintro ⟨⟨dsts, value, nextIdxs⟩, hrun, hholds, hvalue, hlong⟩
    dsimp only at hholds hvalue hlong
    have hnext : nextIdxs = fields.map fun f => (f.text.length : Int) := by
      by_cases hshort : (inputOf fields rest).length < 2 ^ 31
      · have hle := h.length_le
        have hw : 0 + fields.length ≤ intMax := by omega
        exact nextIdxs_eq h hshort hw (Nat.lt_succ_self _) List.drop_zero hrun
          (hvalue ▸ Int.natCast_nonneg _)
      · exact hlong (Nat.le_of_not_lt hshort)
    subst hnext hvalue
    refine ⟨dsts, ?_, hholds⟩
    rw [Nat.zero_add]
    exact hrun
  · rintro ⟨dsts, hrun, hholds⟩
    rw [Nat.zero_add] at hrun
    exact ⟨_, hrun, hholds, rfl, fun _ => rfl⟩

/-- Every token is stored exactly, except in these cases: a single byte is not terminated, so that
what was behind the first byte before becomes a part of it; a token fills `dst_str`; or a number of
bytes does not fit in an `int`. -/
theorem scans_iff (scratch : Nat → CString) (h : Separated fields rest) :
    Scans scratch fields rest ↔ FieldsExact 0 fields rest := by
  rw [scans_iff_scansFrom h]
  exact scansFrom_iff h (Nat.zero_le _) (Nat.lt_succ_self _) List.drop_zero []

/-- "ab 42" for `%s %d`. -/
theorem scans_two :
    Scans (fun _ => [1, 2, 3, 4]) [⟨0, .chars [120, 121, 122], [], [97, 98]⟩,
      ⟨1, .int 7, [32], [52, 50]⟩] [] :=
  (scans_iff _ (by decide +kernel)).mpr (by decide +kernel)

/-- "a" for `%s` over "xyz" gives "ayz". -/
theorem not_scans_single :
    Separated [⟨0, .chars [120, 121, 122], [], [97]⟩] [] ∧
      ¬ Scans (fun _ => []) [⟨0, .chars [120, 121, 122], [], [97]⟩] [] := by
  refine ⟨by decide +kernel, ?_⟩
  rintro ⟨r, hrun, hholds, _⟩
  have hresult : sscanf (fun _ => []) [97] [percent, 115] [.chars [120, 121, 122]] =
      .ok ⟨[.chars [97, 121, 122]], 1, [1]⟩ := by decide
  obtain rfl := Except.ok.inj (hrun.symm.trans hresult)
  cases hholds with
  | cons hd _ =>
    have hne : CString.text [97, 121, 122] ≠ [97] := by decide
    exact hne hd

end BiosKernel
