import BiosKernel.Shell.Magnitude

namespace BiosKernel
open Checked
set_option autoImplicit true

/-- The error flag that `bc_main` looks at. -/
def bcErr (line : CString) : Result Nat := (·.2.err) <$> bcEval line

theorem bcErr_eq_ok_iff (line : CString) (err : Nat) : bcErr line = .ok err ↔
    ∃ t rest v, Reads .eval line t rest ∧ t.value = some v ∧ t.err errNone = err := by
  constructor
  · intro h
    cases heval : bcEval line with
    | error fault =>
      rw [bcErr, heval] at h
      cases h
    | ok x =>
      rw [bcErr, heval] at h
      cases h
      obtain ⟨t, hreads, hvalue, herr⟩ := (ExprT.eval_eq_ok_iff _ _ _).mp heval
      exact ⟨t, x.2.exp, x.1, hreads, hvalue, herr.symm⟩
  · rintro ⟨t, rest, v, hreads, hvalue, rfl⟩
    have heval : bcEval line = .ok (v, ⟨rest, t.err errNone⟩) :=
      (ExprT.eval_eq_ok_iff _ _ _).mpr ⟨t, hreads, hvalue, rfl⟩
    rw [bcErr, heval]
    rfl

namespace Tree

/-- No quotient that is read has the least number above −1. -/
def TrapFree : Tree → Prop
  | num _ => True
  | closed t => t.TrapFree
  | unclosed t => t.TrapFree
  | mul l r => l.TrapFree ∧ r.TrapFree
  | div l r =>
    l.TrapFree ∧ r.TrapFree ∧ ¬(l.value = some Int32.minValue ∧ r.value = some (-1))
  | add l r => l.TrapFree ∧ r.TrapFree
  | sub l r => l.TrapFree ∧ r.TrapFree

theorem isSome_value_bind {a b : Option Int32} (f : Int32 → Int32 → Int32) :
    (a.bind fun x => b.bind fun y => some (f x y)).isSome = true ↔
      a.isSome = true ∧ b.isSome = true := by
  cases a <;> cases b <;> simp

theorem isSome_quotient {a b : Int32} :
    (if b = 0 then some 0 else (ExprT.divide a b).toOption).isSome = true ↔
      ¬(a = Int32.minValue ∧ b = -1) := by
  by_cases hb : b = 0
  · rw [if_pos hb, hb]
    exact ⟨fun _ h => absurd h.2 (by decide), fun _ => rfl⟩
  · rw [if_neg hb, ExprT.divide]
    by_cases htrap : a = Int32.minValue ∧ b = -1
    · rw [if_pos (.inr htrap)]
      exact ⟨fun h => absurd h Bool.false_ne_true, fun h => absurd htrap h⟩
    · rw [if_neg (not_or.mpr ⟨hb, htrap⟩)]
      exact ⟨fun _ => htrap, fun _ => rfl⟩

theorem isSome_value_iff (t : Tree) : t.value.isSome = true ↔ t.TrapFree := by
  induction t with
  | num l => exact ⟨fun _ => trivial, fun _ => rfl⟩
  | closed t ih => exact ih
  | unclosed t ih => exact ih
  | mul l r ihl ihr => exact (isSome_value_bind _).trans (and_congr ihl ihr)
  | add l r ihl ihr => exact (isSome_value_bind _).trans (and_congr ihl ihr)
  | sub l r ihl ihr => exact (isSome_value_bind _).trans (and_congr ihl ihr)
  | div l r ihl ihr =>
    rw [TrapFree, ← ihl, ← ihr, value]
    cases l.value with
    | none => exact ⟨fun h => absurd h Bool.false_ne_true, fun h => h.1⟩
    | some a =>
      cases r.value with
      | none => exact ⟨fun h => absurd h Bool.false_ne_true, fun h => h.2.1⟩
      | some b =>
        simp only [Option.isSome_some, true_and, Option.some.injEq]
        exact isSome_quotient

end Tree

/-- The line is evaluated without a division that the processor traps on. -/
def TrapFree (line : CString) : Prop := bcEval line ≠ .error .divideError

/-- No division that is read anywhere in the text traps. -/
def DividesSafely (line : CString) : Prop :=
  ∀ s l s' r rest, s <:+ line → Reads .termLoop s l (47 :: s') → Reads .factor s' r rest →
    ¬(l.value = some Int32.minValue ∧ r.value = some (-1))

theorem DividesSafely.suffix (h : DividesSafely line) (hs : s <:+ line) : DividesSafely s :=
  fun s' l s'' r rest hs' => h s' l s'' r rest (hs'.trans hs)

theorem Reads.trapFree (h : Reads phase s t rest) (hsafe : DividesSafely s) : t.TrapFree := by
  induction h with
  | num h => trivial
  | closed ho _ _ ih => exact ih (hsafe.suffix (suffix_of_skipSpaces ho))
  | unclosed ho _ _ ih => exact ih (hsafe.suffix (suffix_of_skipSpaces ho))
  | firstFactor _ ih => exact ih hsafe
  | mul hl _ ihl ihr => exact ⟨ihl hsafe, ihr (hsafe.suffix hl.operand_suffix)⟩
  | div hl hr _ ihl ihr =>
    exact ⟨ihl hsafe, ihr (hsafe.suffix hl.operand_suffix), hsafe _ _ _ _ _ List.suffix_rfl hl hr⟩
  | term _ _ _ ih => exact ih hsafe
  | divZero hl hr _ ihl ihr =>
    exact ⟨ihl hsafe, ihr (hsafe.suffix hl.operand_suffix), hsafe _ _ _ _ _ List.suffix_rfl hl hr⟩
  | firstTerm _ ih => exact ih hsafe
  | add hl _ ihl ihr => exact ⟨ihl hsafe, ihr (hsafe.suffix hl.operand_suffix)⟩
  | sub hl _ ihl ihr => exact ⟨ihl hsafe, ihr (hsafe.suffix hl.operand_suffix)⟩
  | eval _ _ _ ih => exact ih hsafe

/-- Behind every division sign of the line there is a number, and no parenthesis, and its value as
an `int` has the property. -/
def Divisors (p : Int32 → Prop) (line : CString) : Prop :=
  ∀ s, 47 :: s <:+ line → (skipSpaces s).at0 ≠ 40 ∧ p (scanNumber (skipSpaces s)).1.value

theorem divisors_iff : Divisors p line ↔ ∀ t ∈ line.tails, CString.at0 t = 47 →
    (skipSpaces t.tail).at0 ≠ 40 ∧ p (scanNumber (skipSpaces t.tail)).1.value := by
  constructor
  · intro h t ht hat
    refine h t.tail ?_
    rw [← CString.eq_cons_of_at0 hat (by decide)]
    exact (List.mem_tails _ _).mp ht
  · intro h s hs
    exact h _ ((List.mem_tails _ _).mpr hs) rfl

instance [DecidablePred p] : Decidable (Divisors p line) := decidable_of_iff _ divisors_iff.symm

theorem Divisors.suffix (h : Divisors p line) (hs : s <:+ line) : Divisors p s :=
  fun s' hs' => h s' (hs'.trans hs)

theorem Divisors.mono (h : Divisors p line) (hpq : ∀ v, p v → q v) : Divisors q line :=
  fun s hs => ⟨(h s hs).1, hpq _ (h s hs).2⟩

theorem Reads.value_of_number (h : Reads .factor s t rest) (hs : (skipSpaces s).at0 ≠ 40) :
    t.value = some (scanNumber (skipSpaces s)).1.value := by
  cases h with
  | num _ => rfl
  | closed ho _ _ =>
    rw [ho] at hs
    exact absurd rfl hs
  | unclosed ho _ _ =>
    rw [ho] at hs
    exact absurd rfl hs

theorem Divisors.dividesSafely (h : Divisors (· ≠ -1) line) : DividesSafely line := by
  intro s l s' r rest hs hl hr hboth
  obtain ⟨hopen, hne⟩ := h s' (hl.suffix.trans hs)
  rw [hr.value_of_number hopen] at hboth
  exact hne (Option.some.inj hboth.2)

/-- The line has at most nine digits, and at most seven if there is an `x` in it. The letters from
`a` to `f` count as digits. -/
def FewDigits (line : CString) : Prop :=
  line.countP isxdigit ≤ if 120 ∈ line then 7 else 9

instance (line : CString) : Decidable (FewDigits line) := inferInstanceAs (Decidable (_ ≤ _))

theorem FewDigits.dividesSafely (h : FewDigits line) : DividesSafely line := by
  intro s l s' r rest hs hl hr hboth
  -- nothing that is written with so few digits comes to 2^31
  have hsmall : ∃ base, 10 ≤ base ∧ (120 ∈ line → 16 ≤ base) ∧ weight base line ≤ 2 ^ 31 := by
    rw [FewDigits] at h
    split at h
    · refine ⟨16, by decide, fun _ => Nat.le_refl _, ?_⟩
      exact (Nat.pow_le_pow_right (by decide) h).trans (by decide)
    · rename_i hx
      refine ⟨10, by decide, fun hmem => absurd hmem hx, ?_⟩
      exact (Nat.pow_le_pow_right (by decide) h).trans (by decide)
  obtain ⟨base, hbase, hhex, hweight⟩ := hsmall
  have hmagnitude := hl.magnitude hbase (fun hx => hhex (hs.subset hx)) hboth.1
  have hmin : Int32.minValue.toInt.natAbs = 2 ^ 31 := by decide
  have hpos := weight_pos hbase (s := 47 :: s')
  have hle := weight_le hbase hs
  rw [hmin] at hmagnitude
  have hmul := Nat.le_mul_of_pos_right (2 ^ 31 + 1) hpos
  omega

end BiosKernel
