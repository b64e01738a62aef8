import BiosKernel.Libc.RoundTrip
import BiosKernel.Libc.ScanToken

namespace BiosKernel
open Checked MachineInt Positional
set_option autoImplicit true

/-- The characters of a token behind its sign. -/
def unsigned (token : CString) : CString :=
  if token.at0 = 45 ∨ token.at0 = 43 then token.tail else token

/-- An optional sign and at least one digit. -/
def IsInteger (token : CString) : Prop :=
  unsigned token ≠ [] ∧ ∀ c ∈ unsigned token, isdigit c = true

instance (token : CString) : Decidable (IsInteger token) :=
  have := List.decidableBAll (isdigit · = true) (unsigned token)
  inferInstanceAs (Decidable (unsigned token ≠ [] ∧ ∀ c ∈ unsigned token, isdigit c = true))

/-- The characters that a single byte leaves of a number in `dst_str`. -/
def leftover (old : Int32) : CString := (decimal old.toInt).tail

/-- The digit stays what it is before the characters that are left there, in an `int`. -/
def LeftoverHarmless (digit : UInt8) (old : Int32) : Prop :=
  2 ^ 32 ∣ (digit.toNat - 48) * (10 ^ (leftover old).length - 1) +
    (value 10 (leftover old)).getD 0

instance (digit : UInt8) (old : Int32) : Decidable (LeftoverHarmless digit old) :=
  inferInstanceAs (Decidable (_ ∣ _))

theorem isInteger_singleton : IsInteger [c] ↔ isdigit c = true := by
  by_cases h : c = 45 ∨ c = 43
  · have hempty : unsigned [c] = [] := if_pos h
    rw [IsInteger, hempty]
    constructor
    · rintro ⟨hne, _⟩
      exact absurd rfl hne
    · intro hdigit
      obtain ⟨hminus, hplus⟩ := ne_sign_of_isdigit hdigit
      exact absurd h (not_or.mpr ⟨hminus, hplus⟩)
  · have hself : unsigned [c] = [c] := if_neg h
    rw [IsInteger, hself, List.forall_mem_singleton]
    exact and_iff_right (List.cons_ne_nil _ _)

theorem dropWhile_append_nul {p : UInt8 → Bool} (h : p 0 = false) (t g : CString) :
    (t ++ 0 :: g).dropWhile p = t.dropWhile p ++ 0 :: g := by
  rw [List.dropWhile_append]
  split
  · rename_i hempty
    rw [List.isEmpty_iff.mp hempty, List.nil_append]
    exact List.dropWhile_cons_of_neg (ne_true_of_eq_false h)
  · rfl

theorem takeWhile_append_nul {p : UInt8 → Bool} (h : p 0 = false) (t g : CString) :
    (t ++ 0 :: g).takeWhile p = t.takeWhile p := by
  rw [List.takeWhile_append]
  split
  · rename_i hall
    rw [List.takeWhile_cons_of_neg (ne_true_of_eq_false h), List.append_nil]
    exact ((List.takeWhile_sublist p).eq_of_length hall).symm
  · rfl

theorem atoi_append_nul (t g : CString) : atoi (t ++ 0 :: g) = atoi t := by
  rw [atoi, atoi, dropWhile_append_nul (by decide)]
  cases t.dropWhile isspace with
  | nil => rfl
  | cons c s =>
    have hfirst : CString.at0 (c :: s ++ 0 :: g) = CString.at0 (c :: s) := rfl
    rw [hfirst]
    congr 2
    split
    · exact takeWhile_append_nul (by decide) s g
    · exact takeWhile_append_nul (by decide) (c :: s) g

theorem digitValue_of_decimal (h : 48 ≤ c ∧ c ≤ 57) :
    digitValue c = some (c.toNat - 48) ∧ c.toNat - 48 < 10 := by
  have hle : c.toNat ≤ 57 := UInt8.le_iff_toNat_le.mp h.2
  exact ⟨if_pos h, by omega⟩

theorem exists_value_leftover (old : Int32) : ∃ t, value 10 (leftover old) = some t := by
  apply exists_value
  intro c hc
  suffices hmem : c ∈ numeral 10 old.toInt.natAbs from
    ⟨_, digitValue_of_decimal (numeral_decimal _ c hmem)⟩
  rw [leftover, decimal] at hc
  split at hc
  · exact hc
  · exact List.mem_of_mem_tail hc

theorem toInt32_ofNat_eq_iff (x y : Nat) :
    (Int64.ofNat (x + y)).toInt32 = (Int64.ofNat y).toInt32 ↔ 2 ^ 32 ∣ x := by
  rw [← Int64.ofInt_eq_ofNat, ← Int64.ofInt_eq_ofNat, Int64.toInt32_ofInt, Int64.toInt32_ofInt,
    ← Int32.toInt_inj, Int32.toInt_ofInt, Int32.toInt_ofInt,
    Int.bmod_eq_bmod_iff_bmod_sub_eq_zero, ← Int.dvd_iff_bmod_eq_zero, Int.natCast_add,
    Int.add_sub_cancel, Int.natCast_dvd_natCast]
  rfl

theorem atoi_leftover (h : isdigit c = true) (old : Int32) :
    (atoi (c :: leftover old)).toInt32 = (atoi [c]).toInt32 ↔ LeftoverHarmless c old := by
  obtain ⟨hc, hlt⟩ := digitValue_of_decimal (of_decide_eq_true h)
  obtain ⟨t, ht⟩ := exists_value_leftover old
  have hone : value 10 [c] = some (c.toNat - 48) := by
    rw [value_cons hc hlt (rfl : value 10 [] = some 0)]
    simp
  have hpos : 0 < 10 ^ (leftover old).length := Nat.pow_pos (by decide)
  have hsplit : (c.toNat - 48) * 10 ^ (leftover old).length + t =
      (c.toNat - 48) * (10 ^ (leftover old).length - 1) + t + (c.toNat - 48) := by
    rw [Nat.mul_sub, Nat.mul_one]
    have := Nat.le_mul_of_pos_right (c.toNat - 48) hpos
    omega
  rw [LeftoverHarmless, atoi_digits (value_cons hc hlt ht), atoi_digits hone, ht, hsplit,
    toInt32_ofNat_eq_iff, Option.getD_some]

theorem text_stored {token : CString} (hne : token ≠ []) (h : 0 ∉ token) (old : CString) :
    CString.text (stored token old) = token ↔ 2 ≤ token.length ∨ old.getD 1 0 = 0 := by
  have hpos := List.length_pos_of_ne_nil hne
  rw [stored]
  by_cases hone : token.length = 1
  · have hsecond : CString.at0 old.tail = old.getD 1 0 := by
      rcases old with _ | ⟨_, _ | ⟨_, _⟩⟩ <;> rfl
    have hshort : ¬ 2 ≤ token.length := by omega
    rw [if_pos hone, CString.text_append h, List.append_right_eq_self, CString.text_eq_nil_iff,
      hsecond]
    exact (or_iff_right hshort).symm
  · have hlong : 2 ≤ token.length := by omega
    rw [if_neg hone, CString.text_append h]
    exact iff_of_true (List.append_nil _) (.inl hlong)

theorem atoi_stored {token : CString} (hne : token ≠ []) (old : Int32) (g : CString) :
    (IsInteger token →
        (atoi (stored token (decimal old.toInt ++ 0 :: g))).toInt32 = (atoi token).toInt32) ↔
      2 ≤ token.length ∨ ¬ IsInteger token ∨ LeftoverHarmless token.at0 old := by
  have hpos := List.length_pos_of_ne_nil hne
  rw [stored]
  by_cases hone : token.length = 1
  · have hshort : ¬ 2 ≤ token.length := by omega
    obtain ⟨c, rfl⟩ := List.length_eq_one_iff.mp hone
    rw [if_pos hone, List.tail_append_of_ne_nil (decimal_ne_nil _), ← List.append_assoc,
      atoi_append_nul, List.singleton_append, ← leftover, isInteger_singleton,
      or_iff_right hshort, ← imp_iff_not_or]
    exact forall_congr' fun hdigit => atoi_leftover hdigit old
  · have hlong : 2 ≤ token.length := by omega
    rw [if_neg hone, atoi_append_nul]
    exact iff_of_true (fun _ => rfl) (.inl hlong)

theorem atoi_scratch (old : Int32) (g : CString) :
    (atoi (decimal old.toInt ++ 0 :: g)).toInt32 = old := by
  rw [atoi_append_nul, atoi_decimal, Int64.toInt32_ofInt, Int32.ofInt_toInt]

theorem itoaScratch_eq (scratch : CString) (old : Int32) :
    ∃ g, itoaScratch scratch old.toInt64 = .ok (decimal old.toInt ++ 0 :: g) := by
  rw [itoaScratch, itoa64_decimal (Int32.toInt64_ne_minValue old), Int32.toInt_toInt64]
  exact ⟨_, rfl⟩

theorem scanSpecifier_chars_iff {str old : CString} :
    scanSpecifier 115 scratch str maxrem (.chars old) = .ok (some (n, d)) ↔
      strlen old ≤ maxrem ∧
        ∃ dst, getNextValidString none str (strlen str) old = .ok (n, dst) ∧ d = .chars dst := by
  rw [scanSpecifier, if_neg (by decide), if_pos rfl]
  by_cases hmax : maxrem < strlen old
  · rw [if_pos hmax]
    constructor
    · intro h
      cases h
    · rintro ⟨hle, _⟩
      exact absurd hmax (Nat.not_lt.mpr hle)
  · rw [if_neg hmax, and_iff_right (Nat.le_of_not_lt hmax)]
    constructor
    · intro h
      obtain ⟨⟨_, dst⟩, hnext, h⟩ := of_bind_eq_ok h
      cases h
      exact ⟨dst, hnext, rfl⟩
    · rintro ⟨dst, hnext, rfl⟩
      rw [hnext]
      rfl

theorem scanSpecifier_int_iff {str scratch buffer : CString} {old : Int32}
    (hbuffer : itoaScratch scratch old.toInt64 = .ok buffer) :
    scanSpecifier 100 scratch str maxrem (.int old) = .ok (some (n, d)) ↔
      ∃ dst, getNextValidString (some bufferSize) str (strlen str) buffer = .ok (n, dst) ∧
        d = .int (atoi dst).toInt32 := by
  rw [scanSpecifier, if_pos rfl, hbuffer, ok_bind]
  constructor
  · intro h
    obtain ⟨⟨_, dst⟩, hnext, h⟩ := of_bind_eq_ok h
    cases h
    exact ⟨dst, hnext, rfl⟩
  · rintro ⟨dst, hnext, rfl⟩
    rw [hnext]
    rfl

/-- A specifier of the format, with the spaces before it and what its destination holds, and its
token, with the white space before it. -/
structure ScanField where
  gap : Nat
  dst : ScanDst
  space : CString
  token : CString

namespace ScanField

def specifier (f : ScanField) : UInt8 :=
  match f.dst with
  | .chars _ => 115
  | .int _ => 100

def format (f : ScanField) : CString := List.replicate f.gap 32 ++ [percent, f.specifier]

def text (f : ScanField) : CString := f.space ++ f.token

/-- The destination holds what the field is meant to leave there. -/
def Holds (f : ScanField) (d : ScanDst) : Prop :=
  match f.dst, d with
  | .chars _, .chars s => CString.text s = f.token
  | .int _, .int i => IsInteger f.token → i = (atoi f.token).toInt32
  | _, _ => False

/-- When the field is scanned as it is meant, where `len` bytes are left of the input. The token is
found if the white space before it is shorter than `len` as an `int`. -/
def Exact (f : ScanField) (maxrem len : Nat) : Prop :=
  f.text.length < 2 ^ 31 ∧
    match f.dst with
    | .chars old => strlen old ≤ maxrem ∧
        if f.space.length < int32 len then 2 ≤ f.token.length ∨ old.getD 1 0 = 0
        else f.space = [] ∧ CString.text old = f.token
    | .int old =>
        if f.space.length < int32 len then
          f.token.length < bufferSize ∧
            (2 ≤ f.token.length ∨ ¬ IsInteger f.token ∨ LeftoverHarmless f.token.at0 old)
        else f.space = [] ∧ (IsInteger f.token → old = (atoi f.token).toInt32)

instance (f : ScanField) (maxrem len : Nat) : Decidable (f.Exact maxrem len) :=
  match f with
  | ⟨_, .chars _, _, _⟩ => inferInstanceAs (Decidable (_ ∧ _ ∧ ite _ _ _))
  | ⟨_, .int _, _, _⟩ => inferInstanceAs (Decidable (_ ∧ ite _ _ _))

theorem scan_iff {f : ScanField} (h : TokenAt f.space f.token s) (scratch : CString)
    (maxrem : Nat) :
    (∃ d, scanSpecifier f.specifier scratch (f.text ++ s) maxrem f.dst =
        .ok (some (f.text.length, d)) ∧ f.Holds d) ↔ f.Exact maxrem (f.text ++ s).length := by
  obtain ⟨gap, dst, space, token⟩ := f
  have hlen : ((space ++ token).length : Int) = space.length + token.length := by
    rw [List.length_append, Int.natCast_add]
  have hsize : (space ++ token).length = space.length + token.length := List.length_append
  rw [Exact, text, hlen, List.append_assoc, hsize]
  cases dst with
  | chars old =>
    have hnul : 0 ∉ token := fun h0 =>
      h.nul (List.mem_append_right _ (List.mem_append_left _ h0))
    have htaken := h.taken_iff none old fun dst => CString.text dst = token
    simp only [Option.all_none, true_and, text_stored h.ne hnul] at htaken
    dsimp only
    rw [and_left_comm, ← htaken]
    constructor
    · rintro ⟨_, hscan, hholds⟩
      obtain ⟨hmax, dst, hnext, rfl⟩ := scanSpecifier_chars_iff.mp hscan
      exact ⟨hmax, dst, hnext, hholds⟩
    · rintro ⟨hmax, dst, hnext, htext⟩
      exact ⟨.chars dst, scanSpecifier_chars_iff.mpr ⟨hmax, dst, hnext, rfl⟩, htext⟩
  | int old =>
    obtain ⟨g, hbuffer⟩ := itoaScratch_eq scratch old
    have hroom : lastIndex token < bufferSize ↔ token.length < bufferSize := by
      rw [lastIndex]
      split
      · rename_i hone
        rw [hone]
        decide
      · rfl
    have htaken := h.taken_iff (some bufferSize) (decimal old.toInt ++ 0 :: g) fun dst =>
      IsInteger token → (atoi dst).toInt32 = (atoi token).toInt32
    simp only [Option.all_some, decide_eq_true_eq, hroom, atoi_stored h.ne, atoi_scratch]
      at htaken
    dsimp only
    rw [← htaken]
    constructor
    · rintro ⟨_, hscan, hholds⟩
      obtain ⟨dst, hnext, rfl⟩ := (scanSpecifier_int_iff hbuffer).mp hscan
      exact ⟨dst, hnext, hholds⟩
    · rintro ⟨dst, hnext, hatoi⟩
      exact ⟨.int (atoi dst).toInt32, (scanSpecifier_int_iff hbuffer).mpr ⟨dst, hnext, rfl⟩,
        hatoi⟩

end ScanField

end BiosKernel
