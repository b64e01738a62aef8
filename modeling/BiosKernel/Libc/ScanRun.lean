import BiosKernel.Libc.ScanFields

namespace BiosKernel
open Checked MachineInt Positional
set_option autoImplicit true

/-- The specifiers that were scanned before are part of the result, and an `int` is returned. -/
structure Scanned.Extends (r : Scanned) (done : List (ScanDst × Int)) : Prop where
  dsts : ∃ dsts, r.dsts = done.map Prod.fst ++ dsts
  nextIdxs : ∃ nextIdxs, r.nextIdxs = done.map Prod.snd ++ nextIdxs
  value : r.value < 2 ^ 31

theorem Scanned.extends_of {value : Int} (h : value < 2 ^ 31) (done : List (ScanDst × Int))
    (args : List ScanDst) : (Scanned.of done args value).Extends done :=
  ⟨⟨args, rfl⟩, ⟨[], (List.append_nil _).symm⟩, h⟩

theorem Scanned.Extends.of_append {r : Scanned} (h : r.Extends (done ++ more)) :
    r.Extends done := by
  obtain ⟨⟨dsts, hdsts⟩, ⟨nextIdxs, hnextIdxs⟩, hvalue⟩ := h
  rw [List.map_append, List.append_assoc] at hdsts hnextIdxs
  exact ⟨⟨_, hdsts⟩, ⟨_, hnextIdxs⟩, hvalue⟩

theorem sscanfLoop_extends
    (h : sscanfLoop scratch str rounds format args done position written = .ok r)
    (hw : written < 2 ^ 31) : r.Extends done := by
  induction rounds generalizing format args done position written with
  | zero => cases h
  | succ rounds ih =>
    rw [sscanfLoop] at h
    dsimp only at h
    generalize (if format.at0 = percent then format.tail else format) = literal at h
    split at h
    · cases h
      exact Scanned.extends_of hw _ _
    · split at h
      · split at h
        · cases h
          exact Scanned.extends_of (by decide) _ _
        · exact ih h hw
      · split at h
        · split at h
          · cases h
          · split at h
            · cases h
            · obtain ⟨scan, _, h⟩ := of_bind_eq_ok h
              split at h
              · cases h
                exact Scanned.extends_of (by decide) _ _
              · exact (ih h (int32_lt _)).of_append
        · exact ih h hw

theorem maxrem_eq {written : Nat} (h : written ≤ intMax) :
    (int32 (intMax - written) % 2 ^ 64).toNat = intMax - written := by
  have hmax : intMax = 2 ^ 31 - 1 := rfl
  rw [hmax] at h ⊢
  rw [int32_eq (by omega) (by omega)]
  omega

theorem sscanfLoop_gap {written : Nat} (hw : written ≤ intMax) (gap : Nat) (rounds : Nat)
    (s : CString) (args : List ScanDst) (done : List (ScanDst × Int)) (position : Int) :
    sscanfLoop scratch str (rounds + 1) (List.replicate (gap + 1) 32 ++ percent :: s) args done
        position written =
      if gap + 1 + written ≤ intMax then
        sscanfLoop scratch str rounds (percent :: s) args done position written
      else .ok (.of done args (-1)) := by
  have hfirst : CString.at0 (List.replicate (gap + 1) 32 ++ percent :: s) = 32 := rfl
  have hblank : (32 : UInt8) ≠ percent := by decide
  have hlen : literalLength (List.replicate (gap + 1) 32 ++ percent :: s) = gap + 1 := by
    have htail : (List.replicate (gap + 1) 32 ++ percent :: s).tail =
        List.replicate gap 32 ++ percent :: s := rfl
    have hall : ∀ c ∈ List.replicate gap (32 : UInt8), decide (c ≠ 0 ∧ c ≠ percent) = true := by
      intro c hc
      rw [(List.mem_replicate.mp hc).2]
      decide
    rw [literalLength, htail, List.takeWhile_append_of_pos hall,
      List.takeWhile_cons_of_neg (by decide), List.append_nil, List.length_replicate,
      Nat.add_comm]
  have hdrop : (List.replicate (gap + 1) 32 ++ percent :: s).drop (gap + 1) = percent :: s :=
    List.drop_left' List.length_replicate
  rw [sscanfLoop]
  dsimp only
  rw [hfirst, if_neg (by decide), if_pos (.inl hblank), if_neg hblank, hlen, hdrop,
    maxrem_eq hw]
  by_cases hroom : gap + 1 + written ≤ intMax
  · rw [if_pos hroom, if_neg (by omega)]
  · rw [if_neg hroom, if_pos (by omega)]

theorem sscanfLoop_specifier {written : Nat} (hw : written ≤ intMax)
    (hspecifier : specifier ∈ specifiers) (rounds : Nat) (s : CString) (dst : ScanDst)
    (args : List ScanDst) (done : List (ScanDst × Int)) (position : Nat) :
    sscanfLoop scratch str (rounds + 1) (percent :: specifier :: s) (dst :: args) done position
        written =
      scanSpecifier specifier (scratch done.length) (str.drop position) (intMax - written) dst >>=
        fun scan => match scan with
          | none => .ok (.of done (dst :: args) (-1))
          | some (nextIdx, dst) =>
            sscanfLoop scratch str rounds s args (done ++ [(dst, nextIdx)]) (position + nextIdx)
              (int32 (written + if 0 < nextIdx then 1 else 0)) := by
  have hfirst : CString.at0 (percent :: specifier :: s) = percent := rfl
  have hsecond : CString.at0 (List.tail (percent :: specifier :: s)) = specifier := rfl
  have hpercent : specifier ≠ percent := by
    rintro rfl
    exact absurd hspecifier (by decide)
  rw [sscanfLoop]
  dsimp only
  rw [hfirst, hsecond, if_neg (by decide), if_neg (not_literal hpercent), if_pos hspecifier,
    maxrem_eq hw, List.head?_cons]
  dsimp only
  rw [if_neg (Int.not_lt.mpr (Int.natCast_nonneg _)), Int.toNat_natCast]
  rfl

def formatOf (fields : List ScanField) : CString := fields.flatMap ScanField.format

def inputOf (fields : List ScanField) (rest : CString) : CString :=
  fields.flatMap ScanField.text ++ rest

theorem inputOf_cons (f : ScanField) (fields : List ScanField) (rest : CString) :
    inputOf (f :: fields) rest = f.text ++ inputOf fields rest := by
  rw [inputOf, List.flatMap_cons, List.append_assoc]
  rfl

/-- Tokens of printable characters with white space between them: one for each field, and then what
may follow. -/
def Separated : List ScanField → CString → Prop
  | [], rest => ∀ c ∈ rest, isspace c = true ∨ isValidChar c = true
  | f :: fields, rest =>
    (∀ c ∈ f.space, isspace c = true) ∧ IsToken f.token (inputOf fields rest) ∧
      Separated fields rest

instance decidableSeparated : ∀ fields rest, Decidable (Separated fields rest)
  | [], rest => List.decidableBAll (fun c => isspace c = true ∨ isValidChar c = true) rest
  | f :: fields, rest =>
    have := decidableSeparated fields rest
    have := List.decidableBAll (isspace · = true) f.space
    inferInstanceAs (Decidable (_ ∧ _ ∧ _))

/-- The condition for each field, where `written` others stand before the first one. -/
def FieldsExact : Nat → List ScanField → CString → Prop
  | _, [], _ => True
  | written, f :: fields, rest =>
    written < intMax ∧ f.gap + written ≤ intMax ∧
      f.Exact (intMax - written) (inputOf (f :: fields) rest).length ∧
      FieldsExact (written + 1) fields rest

instance decidableFieldsExact : ∀ written fields rest, Decidable (FieldsExact written fields rest)
  | _, [], _ => inferInstanceAs (Decidable True)
  | written, _ :: fields, rest =>
    have := decidableFieldsExact (written + 1) fields rest
    inferInstanceAs (Decidable (_ ∧ _ ∧ _ ∧ _))

theorem not_isValidChar_of_isspace (h : isspace c = true) : isValidChar c = false := by
  rcases of_decide_eq_true h with rfl | rfl | rfl | rfl | rfl | rfl <;> decide

theorem Separated.not_mem (h : Separated fields rest) : 0 ∉ inputOf fields rest := by
  induction fields with
  | nil =>
    intro h0
    rcases h 0 h0 with hc | hc <;> exact absurd hc (by decide)
  | cons f fields ih =>
    obtain ⟨hspace, htoken, hfields⟩ := h
    rw [inputOf_cons, ScanField.text, List.mem_append, List.mem_append]
    rintro ((h0 | h0) | h0)
    · exact absurd (hspace 0 h0) (by decide)
    · exact absurd (htoken.valid 0 h0) (by decide)
    · exact ih hfields h0

theorem Separated.tokenAt {f : ScanField} (h : Separated (f :: fields) rest) :
    TokenAt f.space f.token (inputOf fields rest) := by
  have hnul := h.not_mem
  rw [inputOf_cons, ScanField.text, List.append_assoc] at hnul
  exact ⟨h.2.1, fun c hc => not_isValidChar_of_isspace (h.1 c hc), hnul⟩

theorem Separated.text_ne {f : ScanField} (h : Separated (f :: fields) rest) : f.text ≠ [] :=
  List.append_ne_nil_of_right_ne_nil _ h.2.1.ne

theorem drop_behind {f : ScanField} {str : CString} {position : Nat}
    (h : str.drop position = inputOf (f :: fields) rest) :
    str.drop (position + f.text.length) = inputOf fields rest := by
  rw [← List.drop_drop, h, inputOf_cons, List.drop_left]

theorem length_formatOf_cons (f : ScanField) (fields : List ScanField) :
    (formatOf (f :: fields)).length = f.gap + 2 + (formatOf fields).length := by
  rw [formatOf, List.flatMap_cons, List.length_append, ScanField.format, List.length_append,
    List.length_replicate]
  rfl

theorem ScanField.specifier_mem (f : ScanField) : f.specifier ∈ specifiers := by
  rw [ScanField.specifier]
  split <;> decide

/-- The rounds that are left behind the spaces and the specifier of a field. -/
def roundsAfter (f : ScanField) (rounds : Nat) : Nat :=
  if f.gap = 0 then rounds - 1 else rounds - 2

theorem lt_roundsAfter {f : ScanField} (h : (formatOf (f :: fields)).length < rounds) :
    (formatOf fields).length < roundsAfter f rounds := by
  rw [length_formatOf_cons] at h
  rw [roundsAfter]
  split <;> omega

section Field

variable {scratch : Nat → CString} {str : CString} {f : ScanField} {fields : List ScanField}
  {written position rounds : Nat} {done : List (ScanDst × Int)}

theorem sscanfLoop_format (hw : written ≤ intMax)
    (hrounds : (formatOf (f :: fields)).length < rounds) (args : List ScanDst) :
    sscanfLoop scratch str rounds (formatOf (f :: fields)) args done position written =
      if f.gap + written ≤ intMax then
        sscanfLoop scratch str (roundsAfter f rounds + 1)
          (percent :: f.specifier :: formatOf fields) args done position written
      else .ok (.of done args (-1)) := by
  have hformat : formatOf (f :: fields) =
      List.replicate f.gap 32 ++ percent :: f.specifier :: formatOf fields := by
    rw [formatOf, List.flatMap_cons, ScanField.format, List.append_assoc]
    rfl
  rw [length_formatOf_cons] at hrounds
  rw [hformat, roundsAfter]
  cases hgap : f.gap with
  | zero =>
    obtain ⟨left, rfl⟩ : ∃ left, rounds = left + 1 := ⟨rounds - 1, by omega⟩
    rw [if_pos (by omega)]
    rfl
  | succ gap =>
    obtain ⟨left, rfl⟩ : ∃ left, rounds = left + 1 + 1 := ⟨rounds - 2, by omega⟩
    exact sscanfLoop_gap hw _ _ _ _ _ _

/-- What a field does to a run: its specifier has room and scans something, or -1 is returned. -/
theorem of_sscanfLoop_field (hw : written ≤ intMax)
    (hrounds : (formatOf (f :: fields)).length < rounds)
    (hrun : sscanfLoop scratch str rounds (formatOf (f :: fields)) ((f :: fields).map ScanField.dst)
      done position written = .ok r) (hvalue : 0 ≤ r.value) :
    f.gap + written ≤ intMax ∧
      ∃ n d, scanSpecifier f.specifier (scratch done.length) (str.drop position)
          (intMax - written) f.dst = .ok (some (n, d)) ∧
        sscanfLoop scratch str (roundsAfter f rounds) (formatOf fields) (fields.map ScanField.dst)
          (done ++ [(d, n)]) (position + n) (int32 (written + if 0 < n then 1 else 0)) = .ok r := by
  have hneg : ¬ (0 : Int) ≤ -1 := by decide
  rw [sscanfLoop_format hw hrounds] at hrun
  by_cases hroom : f.gap + written ≤ intMax
  · rw [if_pos hroom, List.map_cons, sscanfLoop_specifier hw f.specifier_mem] at hrun
    obtain ⟨scan, hscan, hrun⟩ := of_bind_eq_ok hrun
    cases scan with
    | none =>
      cases hrun
      exact absurd hvalue hneg
    | some taken => exact ⟨hroom, taken.1, taken.2, hscan, hrun⟩
  · rw [if_neg hroom] at hrun
    cases hrun
    exact absurd hvalue hneg

theorem sscanfLoop_field (hw : written ≤ intMax)
    (hrounds : (formatOf (f :: fields)).length < rounds) (hgap : f.gap + written ≤ intMax)
    (hscan : scanSpecifier f.specifier (scratch done.length) (str.drop position)
      (intMax - written) f.dst = .ok (some (n, d))) :
    sscanfLoop scratch str rounds (formatOf (f :: fields)) ((f :: fields).map ScanField.dst) done
        position written =
      sscanfLoop scratch str (roundsAfter f rounds) (formatOf fields) (fields.map ScanField.dst)
        (done ++ [(d, n)]) (position + n) (int32 (written + if 0 < n then 1 else 0)) := by
  rw [sscanfLoop_format hw hrounds, if_pos hgap, List.map_cons,
    sscanfLoop_specifier hw f.specifier_mem, hscan]
  rfl

end Field

/-- From a state in which others have been scanned, each specifier takes its token. -/
def ScansFrom (scratch : Nat → CString) (str : CString) (rounds : Nat) (fields : List ScanField)
    (done : List (ScanDst × Int)) (position written : Nat) : Prop :=
  ∃ dsts, sscanfLoop scratch str rounds (formatOf fields) (fields.map ScanField.dst) done position
        written =
      .ok ⟨done.map Prod.fst ++ dsts, (written + fields.length : Nat),
        done.map Prod.snd ++ fields.map fun f => (f.text.length : Int)⟩ ∧
    List.Forall₂ ScanField.Holds fields dsts

theorem scansFrom_nil (hrounds : 0 < rounds) (done : List (ScanDst × Int))
    (position written : Nat) : ScansFrom scratch str rounds [] done position written := by
  obtain ⟨left, rfl⟩ : ∃ left, rounds = left + 1 := ⟨rounds - 1, by omega⟩
  refine ⟨[], ?_, .nil⟩
  rw [sscanfLoop]
  refine (if_pos rfl).trans ?_
  rw [Scanned.of, List.map_nil, List.map_nil, List.append_nil (done.map Prod.snd)]
  rfl

theorem Scanned.of_append_singleton (done : List (ScanDst × Int)) (d : ScanDst) (n : Int)
    (dsts : List ScanDst) (nextIdxs : List Int) (value : Int) :
    (⟨(done ++ [(d, n)]).map Prod.fst ++ dsts, value, (done ++ [(d, n)]).map Prod.snd ++ nextIdxs⟩ :
      Scanned) = ⟨done.map Prod.fst ++ d :: dsts, value, done.map Prod.snd ++ n :: nextIdxs⟩ := by
  simp

theorem int32_succ {written n : Nat} (h : written < intMax) (hn : 0 < n) :
    int32 (written + if 0 < (n : Int) then 1 else 0) = (written + 1 : Nat) := by
  have hmax : intMax = 2 ^ 31 - 1 := rfl
  rw [if_pos (Int.natCast_pos.mpr hn), int32_eq] <;> omega

theorem scansFrom_cons {written position : Nat} {f : ScanField} (hf : f.text ≠ [])
    (hw : written ≤ intMax) (hrounds : (formatOf (f :: fields)).length < rounds)
    (done : List (ScanDst × Int)) :
    ScansFrom scratch str rounds (f :: fields) done position written ↔
      written < intMax ∧ f.gap + written ≤ intMax ∧
        ∃ d, scanSpecifier f.specifier (scratch done.length) (str.drop position)
            (intMax - written) f.dst = .ok (some (f.text.length, d)) ∧ f.Holds d ∧
          ScansFrom scratch str (roundsAfter f rounds) fields (done ++ [(d, (f.text.length : Int))])
            (position + f.text.length) (written + 1) := by
  have hmax : intMax = 2 ^ 31 - 1 := rfl
  have hpos := List.length_pos_of_ne_nil hf
  constructor
  · rintro ⟨dsts, hrun, hholds⟩
    obtain ⟨hgap, n, d, hscan, hrun⟩ := of_sscanfLoop_field hw hrounds hrun (Int.natCast_nonneg _)
    obtain ⟨⟨more, hmore⟩, ⟨idxs, hidxs⟩, hvalue⟩ := sscanfLoop_extends hrun (int32_lt _)
    rw [List.map_append, List.append_assoc] at hmore hidxs
    obtain rfl : dsts = d :: more := List.append_cancel_left hmore
    obtain ⟨rfl, _⟩ := List.cons.inj (List.append_cancel_left hidxs)
    have hlt : written < intMax := by
      dsimp only at hvalue
      rw [List.length_cons] at hvalue
      omega
    cases hholds with
    | cons hd hholds =>
      refine ⟨hlt, hgap, d, hscan, hd, more, ?_, hholds⟩
      rw [int32_succ hlt hpos, ← Int.natCast_add] at hrun
      rw [hrun, Scanned.of_append_singleton, List.length_cons, Nat.add_right_comm]
      rfl
  · rintro ⟨hlt, hgap, d, hscan, hd, dsts, hrun, hholds⟩
    refine ⟨d :: dsts, ?_, .cons hd hholds⟩
    rw [sscanfLoop_field hw hrounds hgap hscan, int32_succ hlt hpos, ← Int.natCast_add, hrun,
      Scanned.of_append_singleton, List.length_cons, Nat.add_right_comm]
    rfl

theorem scansFrom_iff {written position : Nat} (h : Separated fields rest) (hw : written ≤ intMax)
    (hrounds : (formatOf fields).length < rounds)
    (hposition : str.drop position = inputOf fields rest) (done : List (ScanDst × Int)) :
    ScansFrom scratch str rounds fields done position written ↔
      FieldsExact written fields rest := by
  induction fields generalizing rounds written position done with
  | nil => exact iff_of_true (scansFrom_nil hrounds done position written) trivial
  | cons f fields ih =>
    have hleft := lt_roundsAfter hrounds
    have hbehind := drop_behind hposition
    rw [inputOf_cons] at hposition
    rw [scansFrom_cons h.text_ne hw hrounds, FieldsExact, hposition, inputOf_cons]
    constructor
    · rintro ⟨hlt, hgap, d, hscan, hd, hrun⟩
      exact ⟨hlt, hgap, (ScanField.scan_iff h.tokenAt _ _).mp ⟨d, hscan, hd⟩,
        (ih h.2.2 hlt hleft hbehind _).mp hrun⟩
    · rintro ⟨hlt, hgap, hexact, hfields⟩
      obtain ⟨d, hscan, hd⟩ := (ScanField.scan_iff h.tokenAt (scratch done.length) _).mpr hexact
      exact ⟨hlt, hgap, d, hscan, hd, (ih h.2.2 hlt hleft hbehind _).mpr hfields⟩

end BiosKernel
