import BiosKernel.Shell.Grammar
import BiosKernel.Shell.Totality

namespace BiosKernel
set_option autoImplicit true

/-- How many numbers can be written with the digits of the text. -/
def weight (base : Nat) (s : CString) : Nat := base ^ s.countP isxdigit

section
variable {base : Nat} (hbase : 10 ≤ base)
include hbase

theorem weight_le (h : s <:+ line) : weight base s ≤ weight base line :=
  Nat.pow_le_pow_right (by omega) h.sublist.countP_le

theorem weight_pos : 0 < weight base s := Nat.pow_pos (by omega)

end

theorem natAbs_bmod_le (x : Int) : (x.bmod (2 ^ 32)).natAbs ≤ x.natAbs := by
  rw [Int.bmod]
  split <;> omega

theorem digitNumber_lt : (isdigit c = true → Numeral.digitNumber c < 10) ∧
    (isxdigit c = true → Numeral.digitNumber c < 16) := by
  have hall : ∀ n : Fin 256, (isdigit (.ofFin n) = true → Numeral.digitNumber (.ofFin n) < 10) ∧
      (isxdigit (.ofFin n) = true → Numeral.digitNumber (.ofFin n) < 16) := by decide +kernel
  exact hall c.toFin

theorem Numeral.natAbs_number_lt (n : Numeral) :
    n.number.natAbs < n.base ^ n.digits.length := by
  have hlt : ∀ d ∈ n.digits.reverse.map digitNumber, d < n.base := by
    intro d hd
    obtain ⟨c, hc, rfl⟩ := List.mem_map.mp hd
    have hvalid := n.valid c (List.mem_reverse.mp hc)
    rw [base]
    split at hvalid
    · rename_i hhex
      rw [if_pos hhex]
      exact digitNumber_lt.2 hvalid
    · rename_i hhex
      rw [if_neg hhex]
      exact digitNumber_lt.1 hvalid
  have hbase : 1 < n.base := by
    rw [base]
    split <;> decide
  have hdigits := Nat.ofDigits_lt_base_pow_length hbase hlt
  rw [List.length_map, List.length_reverse] at hdigits
  rw [number]
  split <;> omega

theorem Numeral.text_of_unsigned {n : Numeral} (hneg : n.neg = decide (s.at0 = 45))
    (h : afterSign s = n.unsigned ++ rest) : s = n.text ++ rest := by
  rw [afterSign] at h
  rw [text, hneg]
  split at h
  · rename_i hsign
    rw [if_pos (decide_eq_true hsign), List.cons_append, ← h]
    exact CString.eq_cons_of_at0 hsign (by decide)
  · rename_i hsign
    rwa [if_neg (by rwa [decide_eq_true_eq])]

theorem exists_numeral (h : (scanNumber s).1.digits ≠ []) :
    ∃ n : Numeral, n.toLiteral = (scanNumber s).1 ∧ s = n.text ++ (scanNumber s).2 := by
  by_cases hx : (afterSign s).at0 = 48 ∧ CString.at0 (afterSign s).tail = 120
  · rw [scanNumber, if_pos hx] at h ⊢
    have hvalid (c : UInt8) := List.mem_takeWhile_imp (p := isxdigit) (x := c)
      (l := (afterSign s).tail.tail)
    refine ⟨⟨_, h, hvalid⟩, rfl, Numeral.text_of_unsigned rfl ?_⟩
    have htail := CString.eq_cons_of_at0 hx.1 (by decide)
    rw [CString.eq_cons_of_at0 hx.2 (by decide)] at htail
    refine htail.trans (congrArg (48 :: 120 :: ·) ?_)
    exact List.takeWhile_append_dropWhile.symm
  · rw [scanNumber, if_neg hx] at h ⊢
    have hvalid (c : UInt8) := List.mem_takeWhile_imp (p := isdigit) (x := c) (l := afterSign s)
    refine ⟨⟨_, h, hvalid⟩, rfl, Numeral.text_of_unsigned rfl ?_⟩
    exact List.takeWhile_append_dropWhile.symm

namespace Numeral

theorem unsigned_sublist (n : Numeral) : n.unsigned.Sublist n.text := by
  rw [text]
  split
  · exact List.sublist_cons_self _ _
  · exact List.Sublist.refl _

theorem digits_sublist (n : Numeral) : n.digits.Sublist n.text := by
  refine List.Sublist.trans ?_ n.unsigned_sublist
  rw [unsigned]
  split
  · exact (List.sublist_cons_self _ _).trans (List.sublist_cons_self _ _)
  · exact List.Sublist.refl _

theorem length_digits_le (n : Numeral) : n.digits.length ≤ n.text.countP isxdigit := by
  have hall : ∀ c ∈ n.digits, isxdigit c = true := by
    intro c hc
    have hvalid := n.valid c hc
    split at hvalid
    · exact hvalid
    · exact isxdigit_of_isdigit hvalid
  rw [← List.countP_eq_length.mpr hall]
  exact n.digits_sublist.countP_le

theorem base_le (n : Numeral) (hb : 10 ≤ b) (hhex : 120 ∈ n.text → 16 ≤ b) : n.base ≤ b := by
  rw [base]
  split
  · rename_i hx
    refine hhex (n.unsigned_sublist.subset ?_)
    rw [unsigned, if_pos hx]
    exact List.mem_cons_of_mem _ List.mem_cons_self
  · exact hb

end Numeral

section
variable {base : Nat} (hbase : 10 ≤ base)
include hbase

theorem scanNumber_magnitude (hhex : 120 ∈ s → 16 ≤ base) :
    ((scanNumber s).1.value.toInt.natAbs + 1) * weight base (scanNumber s).2 ≤ weight base s := by
  by_cases hdigits : (scanNumber s).1.digits = []
  · have hzero : (scanNumber s).1.value = 0 := by
      generalize (scanNumber s).1 = l at hdigits ⊢
      obtain ⟨neg, hex, digits⟩ := l
      cases hdigits
      cases neg <;> cases hex <;> rfl
    rw [hzero]
    exact (Nat.one_mul _).le.trans (weight_le hbase (scanNumber_suffix s))
  · obtain ⟨n, hn, htext⟩ := exists_numeral hdigits
    have hle := n.base_le hbase fun h => hhex (htext ▸ List.mem_append_left _ h)
    have hvalue : n.toLiteral.value.toInt.natAbs ≤ n.number.natAbs := by
      rw [n.value_eq, Int32.toInt_ofInt]
      exact natAbs_bmod_le _
    have hweight : weight base s =
        base ^ n.text.countP isxdigit * weight base (scanNumber s).2 := by
      conv => lhs; rw [htext]
      rw [weight, List.countP_append, Nat.pow_add, weight]
    rw [← hn, hweight]
    refine Nat.mul_le_mul_right _ ?_
    calc n.toLiteral.value.toInt.natAbs + 1
      _ ≤ n.base ^ n.digits.length := Nat.lt_of_le_of_lt hvalue n.natAbs_number_lt
      _ ≤ base ^ n.digits.length := Nat.pow_le_pow_left hle _
      _ ≤ base ^ n.text.countP isxdigit :=
        Nat.pow_le_pow_right (by omega) n.length_digits_le

end

theorem operands_magnitude {a b v : Int32} {w₀ w₁ w₂ w : Nat} (hl : (a.toInt.natAbs + 1) * w₁ ≤ w₀)
    (hr : (b.toInt.natAbs + 1) * w₂ ≤ w₁) (hw : w ≤ w₂)
    (hv : v.toInt.natAbs + 1 ≤ (a.toInt.natAbs + 1) * (b.toInt.natAbs + 1)) :
    (v.toInt.natAbs + 1) * w ≤ w₀ :=
  calc (v.toInt.natAbs + 1) * w
    _ ≤ (a.toInt.natAbs + 1) * (b.toInt.natAbs + 1) * w₂ := Nat.mul_le_mul hv hw
    _ = (a.toInt.natAbs + 1) * ((b.toInt.natAbs + 1) * w₂) := Nat.mul_assoc ..
    _ ≤ (a.toInt.natAbs + 1) * w₁ := Nat.mul_le_mul_left _ hr
    _ ≤ w₀ := hl

theorem natAbs_op_le (a b : Int32) (op : Op) :
    (op.apply a b).toInt.natAbs + 1 ≤ (a.toInt.natAbs + 1) * (b.toInt.natAbs + 1) := by
  have hexpand : (a.toInt.natAbs + 1) * (b.toInt.natAbs + 1) =
      a.toInt.natAbs * b.toInt.natAbs + a.toInt.natAbs + b.toInt.natAbs + 1 := by ring
  rw [hexpand]
  cases op with
  | add =>
    have hle := natAbs_bmod_le (a.toInt + b.toInt)
    rw [Op.apply, Int32.toInt_add]
    omega
  | sub =>
    have hle := natAbs_bmod_le (a.toInt - b.toInt)
    rw [Op.apply, Int32.toInt_sub]
    omega
  | mul =>
    have hle := natAbs_bmod_le (a.toInt * b.toInt)
    rw [Int.natAbs_mul] at hle
    rw [Op.apply, Int32.toInt_mul]
    omega
  | div =>
    have hle := natAbs_bmod_le (a.toInt.tdiv b.toInt)
    have hdiv := Int.natAbs_tdiv_le_natAbs a.toInt b.toInt
    rw [Op.apply, Int32.toInt_div]
    omega

theorem Tree.value_div_eq (h : (div l r).value = some v) :
    ∃ a b, l.value = some a ∧ r.value = some b ∧ Op.div.apply a b = v := by
  obtain ⟨a, b, ha, hb, hdiv⟩ := value_div h
  refine ⟨a, b, ha, hb, ?_⟩
  split at hdiv
  · rename_i hzero
    rw [hzero]
    exact (Int32.div_zero).trans (Option.some.inj hdiv)
  · rw [ExprT.divide] at hdiv
    split at hdiv
    · cases hdiv
    · exact Option.some.inj hdiv

/-- What a part of the text is worth can be written with the digits that it has. -/
theorem Reads.magnitude (h : Reads phase s t rest) (hbase : 10 ≤ base)
    (hhex : 120 ∈ s → 16 ≤ base) (hv : t.value = some v) :
    (v.toInt.natAbs + 1) * weight base rest ≤ weight base s := by
  have hskip (s : CString) : weight base (skipSpaces s) ≤ weight base s :=
    weight_le hbase (skipSpaces_suffix s)
  have htail {c : UInt8} {s s' : CString} (h : skipSpaces s = c :: s') :
      weight base s' ≤ weight base s := weight_le hbase (suffix_of_skipSpaces h)
  -- the operator is no digit
  have hoperator {c : UInt8} {s' : CString} : weight base s' ≤ weight base (c :: s') :=
    weight_le hbase (List.suffix_cons c s')
  have hbin {l r v s₀ s₁ rest} (op : Op) {c : UInt8} (hl : (l.toInt.natAbs + 1) *
      weight base (c :: s₁) ≤ weight base s₀) (hr : (r.toInt.natAbs + 1) * weight base rest ≤
      weight base s₁) (hop : op.apply l r = v) :
      (v.toInt.natAbs + 1) * weight base rest ≤ weight base s₀ :=
    operands_magnitude hl (hr.trans hoperator) (Nat.le_refl _) (hop ▸ natAbs_op_le l r op)
  induction h generalizing v with
  | @num s h =>
    cases hv
    refine (scanNumber_magnitude hbase fun hx => ?_).trans (hskip s)
    exact hhex ((skipSpaces_suffix s).subset hx)
  | closed ho _ hc ih =>
    have hinner := ih (fun hx => hhex ((suffix_of_skipSpaces ho).subset hx)) hv
    exact (Nat.mul_le_mul_left _ (htail hc)).trans (hinner.trans (htail ho))
  | unclosed ho _ _ ih =>
    have hinner := ih (fun hx => hhex ((suffix_of_skipSpaces ho).subset hx)) hv
    exact (Nat.mul_le_mul_left _ (hskip _)).trans (hinner.trans (htail ho))
  | firstFactor _ ih => exact (Nat.mul_le_mul_left _ (hskip _)).trans (ih hhex hv)
  | mul hl _ ihl ihr =>
    obtain ⟨a, b, ha, hb, hop⟩ := Tree.value_mul hv
    have hr := ihr (fun hx => hhex (hl.operand_suffix.subset hx)) hb
    exact (Nat.mul_le_mul_left _ (hskip _)).trans (hbin .mul (ihl hhex ha) hr hop)
  | div hl _ _ ihl ihr =>
    obtain ⟨a, b, ha, hb, hop⟩ := Tree.value_div_eq hv
    have hr := ihr (fun hx => hhex (hl.operand_suffix.subset hx)) hb
    exact (Nat.mul_le_mul_left _ (hskip _)).trans (hbin .div (ihl hhex ha) hr hop)
  | term _ _ _ ih => exact ih hhex hv
  | divZero hl _ _ ihl ihr =>
    obtain ⟨a, b, ha, hb, hop⟩ := Tree.value_div_eq hv
    have hr := ihr (fun hx => hhex (hl.operand_suffix.subset hx)) hb
    exact hbin .div (ihl hhex ha) hr hop
  | firstTerm _ ih => exact (Nat.mul_le_mul_left _ (hskip _)).trans (ih hhex hv)
  | add hl _ ihl ihr =>
    obtain ⟨a, b, ha, hb, hop⟩ := Tree.value_add hv
    have hr := ihr (fun hx => hhex (hl.operand_suffix.subset hx)) hb
    exact (Nat.mul_le_mul_left _ (hskip _)).trans (hbin .add (ihl hhex ha) hr hop)
  | sub hl _ ihl ihr =>
    obtain ⟨a, b, ha, hb, hop⟩ := Tree.value_sub hv
    have hr := ihr (fun hx => hhex (hl.operand_suffix.subset hx)) hb
    exact (Nat.mul_le_mul_left _ (hskip _)).trans (hbin .sub (ihl hhex ha) hr hop)
  | eval _ _ _ ih => exact ih hhex hv

end BiosKernel
