import BiosKernel.Shell.Reporting

namespace BiosKernel
open Checked ExprT
set_option autoImplicit true

/-- What may stand before a term: nothing, or an expression and the sign of a sum. -/
inductive BeforeTerm : CString → Prop
  | first (n : Nat) : BeforeTerm (spaces n)
  | sum (op : Op) (n i j : Nat) (hop : op.level = .expr) (h : Renders .expr e s) :
      BeforeTerm (spaces n ++ (s ++ (spaces i ++ op.symbol :: spaces j)))

/-- What may stand before a factor: nothing more, or a term and the sign of a product. -/
inductive BeforeFactor : CString → Prop
  | first (h : BeforeTerm u) : BeforeFactor u
  | product (op : Op) (i j : Nat) (hop : op.level = .term) (hu : BeforeTerm u)
      (h : Renders .term e s) : BeforeFactor (u ++ (s ++ (spaces i ++ op.symbol :: spaces j)))

/-- A parenthesis where a factor is expected is not closed: there is none for it in the whole rest
of the line, or an expression in it is followed by something else, or so it is with a parenthesis
inside it. -/
inductive LeftOpen : CString → Prop
  | never (hu : BeforeFactor u) (h : ∀ p, p <+: s → p.count 41 ≤ p.count 40) :
      LeftOpen (u ++ 40 :: s)
  | stuck (n : Nat) (hu : BeforeFactor u) (h : Renders .expr e s) (hf : Level.expr.Follows rest)
      (hc : (skipSpaces rest).at0 ≠ 41) (ha : (skipSpaces rest).at0 ≠ 43)
      (hs : (skipSpaces rest).at0 ≠ 45) : LeftOpen (u ++ 40 :: (spaces n ++ (s ++ rest)))
  | inside (hu : BeforeFactor u) (h : LeftOpen s) : LeftOpen (u ++ 40 :: s)

/-- A divisor that neither is zero nor makes the quotient of the least number trap. -/
def PlainDivisor (v : Int32) : Prop := v ≠ 0 ∧ v ≠ -1

instance (v : Int32) : Decidable (PlainDivisor v) := inferInstanceAs (Decidable (_ ∧ _))

theorem Divisors.behind (h : Divisors p (u ++ s)) : Divisors p s :=
  h.suffix (List.suffix_append u s)

theorem Divisors.factor (h : Divisors PlainDivisor (47 :: (spaces j ++ (s ++ rest))))
    (hr : Renders .factor r s) (hf : NumberEnds rest) : PlainDivisor r.value := by
  obtain ⟨hopen, hplain⟩ := h _ List.suffix_rfl
  rw [skipSpaces_spaces] at hopen hplain
  cases hr with
  | @num m =>
    rw [(m.skipSpaces_text rest).1, m.scanNumber_text hf, m.value_eq] at hplain
    exact hplain
  | paren i j h =>
    rw [List.cons_append, skipSpaces_cons (by decide)] at hopen
    exact absurd rfl hopen

theorem Renders.defined (h : Renders level e s) (hd : Divisors PlainDivisor (s ++ rest))
    (hf : NumberEnds rest) : e.Defined := by
  induction h generalizing rest with
  | num => trivial
  | @paren e s i j h ih =>
    simp only [List.cons_append, List.append_assoc, List.nil_append] at hd
    exact ih (hd.suffix (List.suffix_cons ..)).behind (Level.follows_close j rest).1
  | factor h ih => exact ih hd hf
  | @product l s r s' op i j hop hl hr ihl ihr =>
    simp only [List.cons_append, List.append_assoc] at hd
    have hr' : Divisors PlainDivisor (op.symbol :: (spaces j ++ (s' ++ rest))) := hd.behind.behind
    refine ⟨ihl hd ((op.numberEnds _).spaces i), ?_, ?_⟩
    · exact ihr (hr'.suffix (List.suffix_cons ..)).behind hf
    · rintro rfl
      have hplain := hr'.factor hr hf
      exact ⟨hplain.1, fun h => hplain.2 h.2⟩
  | term h ih => exact ih hd hf
  | @sum l s r s' op i j hop hl hr ihl ihr =>
    simp only [List.cons_append, List.append_assoc] at hd
    have hr' : Divisors PlainDivisor (op.symbol :: (spaces j ++ (s' ++ rest))) := hd.behind.behind
    refine ⟨ihl hd ((op.numberEnds _).spaces i), ?_, Op.defined_of_level hop _ _⟩
    exact ihr (hr'.suffix (List.suffix_cons ..)).behind hf

theorem factor_spaces (n : Nat) (s : CString) (e : Nat) :
    factor ev ⟨spaces n ++ s, e⟩ = factor ev ⟨s, e⟩ := by
  have hskip : (⟨spaces n ++ s, e⟩ : ExprT).skip = (⟨s, e⟩ : ExprT).skip :=
    congrArg (ExprT.mk · e) (skipSpaces_spaces n s)
  rw [factor, factor, hskip]

theorem term_spaces (n : Nat) (s : CString) (e : Nat) :
    term ev ⟨spaces n ++ s, e⟩ = term ev ⟨s, e⟩ := by
  rw [term, term, factor_spaces]

theorem BeforeTerm.noted (hu : BeforeTerm u) (hd : Divisors PlainDivisor (u ++ s))
    (hdepth : (u ++ s).length ≤ depth) (h : Noted (term (evalAt depth) ⟨s, errNone⟩)) :
    Noted (evalBody (evalAt depth) ⟨u ++ s, errNone⟩) := by
  cases hu with
  | first n =>
    rw [← term_spaces n] at h
    exact h.bind fun v e he => evalLoop_noted he
  | @sum e core op n i j hop hrenders =>
    simp only [List.append_assoc, List.cons_append] at hd hdepth ⊢
    have hfollow := Level.follows_symbol hop i (spaces j ++ s)
    obtain ⟨t, hreads, hden⟩ := hrenders.reads (hrenders.defined hd.behind hfollow.1) hfollow n
    rw [Level.ReadsTo, op.skip_symbol] at hreads
    obtain ⟨rounds, -, heval⟩ := rounds_succ (hreads.runs (e := errNone) hdepth hden.value)
    rw [hden.err] at heval
    rw [heval]
    rw [← term_spaces j] at h
    exact evalLoop_symbol_noted hop h

theorem BeforeFactor.noted (hu : BeforeFactor u) (hd : Divisors PlainDivisor (u ++ s))
    (hdepth : (u ++ s).length ≤ depth) (h : Noted (factor (evalAt depth) ⟨s, errNone⟩)) :
    Noted (evalBody (evalAt depth) ⟨u ++ s, errNone⟩) := by
  cases hu with
  | first hu => exact hu.noted hd hdepth (h.bind fun v e he => termLoop_noted he)
  | @product u e core op i j hop hu hrenders =>
    simp only [List.append_assoc, List.cons_append] at hd hdepth ⊢
    refine hu.noted hd hdepth ?_
    have hfollow := (op.numberEnds (spaces j ++ s)).spaces i
    obtain ⟨t, hreads, hden⟩ := hrenders.reads (hrenders.defined hd.behind hfollow) hfollow 0
    rw [Level.ReadsTo, op.skip_symbol] at hreads
    have hle : (core ++ (spaces i ++ op.symbol :: (spaces j ++ s))).length ≤ depth :=
      ((List.suffix_append ..).length_le).trans hdepth
    obtain ⟨rounds, -, hterm⟩ := rounds_succ (hreads.runs (e := errNone) hle hden.value)
    rw [hden.err] at hterm
    rw [← factor_spaces j] at h
    have hnoted : Noted (termLoop (evalAt depth) (rounds + 1) e.value
        ⟨op.symbol :: (spaces j ++ s), errNone⟩) := termLoop_symbol_noted hop h
    rw [← hterm] at hnoted
    exact hnoted

theorem count_dropWhile {p : UInt8 → Bool} (hc : p c = false) (s : CString) :
    (s.dropWhile p).count c = s.count c := by
  have hzero : (s.takeWhile p).count c = 0 := by
    rw [List.count_eq_zero]
    intro hmem
    rw [List.mem_takeWhile_imp hmem] at hc
    cases hc
  conv => rhs; rw [← List.takeWhile_append_dropWhile (p := p) (l := s)]
  rw [List.count_append, hzero, Nat.zero_add]

theorem count_tail {s : CString} (hs : s.at0 = d) (hd : d ≠ 0) (hc : d ≠ c) :
    s.tail.count c = s.count c := by
  conv => rhs; rw [CString.eq_cons_of_at0 hs hd]
  rw [List.count_cons_of_ne hc]

theorem count_scanNumber (hc : c = 40 ∨ c = 41) (s : CString) :
    (scanNumber s).2.count c = s.count c := by
  have hsign : (afterSign s).count c = s.count c := by
    rw [afterSign]
    split
    · rename_i hs
      exact count_tail hs (by decide) (by rcases hc with rfl | rfl <;> decide)
    · rfl
  have hdigit : isdigit c = false ∧ isxdigit c = false ∧ 48 ≠ c ∧ 120 ≠ c := by
    rcases hc with rfl | rfl <;> decide
  rw [scanNumber]
  split
  · rename_i hx
    rw [count_dropWhile hdigit.2.1, count_tail hx.2 (by decide) hdigit.2.2.2,
      count_tail hx.1 (by decide) hdigit.2.2.1, hsign]
  · rw [count_dropWhile hdigit.1, hsign]

theorem count_skipSpaces (hc : c = 40 ∨ c = 41) (s : CString) :
    (skipSpaces s).count c = s.count c :=
  count_dropWhile (by rcases hc with rfl | rfl <;> decide) s

theorem Reads.balanced (h : Reads phase s t rest) (hclosed : t.Closed) :
    s.count 40 + rest.count 41 = s.count 41 + rest.count 40 := by
  have hskip (s : CString) : (skipSpaces s).count 40 = s.count 40 ∧
      (skipSpaces s).count 41 = s.count 41 :=
    ⟨count_skipSpaces (.inl rfl) s, count_skipSpaces (.inr rfl) s⟩
  have hparen {s s' : CString} {c : UInt8} (h : skipSpaces s = c :: s') :
      s.count 40 = s'.count 40 + (if c = 40 then 1 else 0) ∧
        s.count 41 = s'.count 41 + (if c = 41 then 1 else 0) := by
    rw [← (hskip s).1, ← (hskip s).2, h, List.count_cons, List.count_cons]
    simp
  have hbin {s s' rest : CString} {c : UInt8} (hc : c ≠ 40 ∧ c ≠ 41)
      (hl : s.count 40 + (c :: s').count 41 = s.count 41 + (c :: s').count 40)
      (hr : s'.count 40 + rest.count 41 = s'.count 41 + rest.count 40) :
      s.count 40 + rest.count 41 = s.count 41 + rest.count 40 := by
    rw [List.count_cons_of_ne hc.1, List.count_cons_of_ne hc.2] at hl
    omega
  induction h with
  | @num s h =>
    rw [count_scanNumber (.inl rfl), count_scanNumber (.inr rfl), (hskip s).1, (hskip s).2,
      Nat.add_comm]
  | closed ho _ hc ih =>
    obtain ⟨ho40, ho41⟩ := hparen ho
    obtain ⟨hc40, hc41⟩ := hparen hc
    have hinner := ih hclosed
    have hne : (40 : UInt8) ≠ 41 := by decide
    rw [if_pos rfl] at ho40 hc41
    rw [if_neg hne] at ho41
    rw [if_neg hne.symm] at hc40
    omega
  | unclosed _ _ _ _ => exact hclosed.elim
  | @firstFactor s t rest _ ih => rw [(hskip rest).1, (hskip rest).2, ih hclosed]
  | @mul _ _ _ _ rest _ _ ihl ihr =>
    rw [(hskip rest).1, (hskip rest).2]
    exact hbin (by decide) (ihl hclosed.1) (ihr hclosed.2)
  | @div _ _ _ _ rest _ _ _ ihl ihr =>
    rw [(hskip rest).1, (hskip rest).2]
    exact hbin (by decide) (ihl hclosed.1) (ihr hclosed.2)
  | term _ _ _ ih => exact ih hclosed
  | divZero _ _ _ ihl ihr => exact hbin (by decide) (ihl hclosed.1) (ihr hclosed.2)
  | @firstTerm s t rest _ ih => rw [(hskip rest).1, (hskip rest).2, ih hclosed]
  | @add _ _ _ _ rest _ _ ihl ihr =>
    rw [(hskip rest).1, (hskip rest).2]
    exact hbin (by decide) (ihl hclosed.1) (ihr hclosed.2)
  | @sub _ _ _ _ rest _ _ ihl ihr =>
    rw [(hskip rest).1, (hskip rest).2]
    exact hbin (by decide) (ihl hclosed.1) (ihr hclosed.2)
  | eval _ _ _ ih => exact ih hclosed

theorem Tree.mishaps_ne_nil {t : Tree} (h : ¬t.Closed) : t.mishaps ≠ [] := by
  have hboth {p q : Prop} {ms ms' : List Mishap} (hl : ¬p → ms ≠ []) (hr : ¬q → ms' ≠ [])
      (h : ¬(p ∧ q)) : ms ++ ms' ≠ [] := by
    rw [Ne, List.append_eq_nil_iff]
    rintro ⟨hnil, hnil'⟩
    exact h ⟨Classical.not_not.mp fun hp => hl hp hnil, Classical.not_not.mp fun hq => hr hq hnil'⟩
  induction t with
  | num l => exact absurd trivial h
  | closed t ih => exact ih h
  | unclosed t ih => exact List.append_ne_nil_of_right_ne_nil _ (List.cons_ne_nil _ _)
  | mul l r ihl ihr => exact hboth ihl ihr h
  | add l r ihl ihr => exact hboth ihl ihr h
  | sub l r ihl ihr => exact hboth ihl ihr h
  | div l r ihl ihr =>
    exact hboth ihl (fun hr => List.append_ne_nil_of_left_ne_nil (ihr hr) _) h

theorem Tree.err_ne_of_open {t : Tree} (h : ¬t.Closed) : t.err errNone ≠ errNone := by
  rw [t.err_eq]
  have hne := t.mishaps_ne_nil h
  cases hms : t.mishaps with
  | nil => exact absurd hms hne
  | cons m ms => exact lastErr_ne m.err_ne ms

/-- A closing parenthesis behind what was read with all of them closed is one too many. -/
theorem Reads.not_closing (h : Reads .eval s t rest) (hclosed : t.Closed)
    (hs : ∀ p, p <+: s → p.count 41 ≤ p.count 40) : (skipSpaces rest).at0 ≠ 41 := by
  intro hat
  have hrest := CString.eq_cons_of_at0 hat (by decide)
  obtain ⟨p, hp⟩ := (suffix_of_skipSpaces hrest).trans h.suffix
  have hbalanced := h.balanced hclosed
  have hle := hs p ⟨_, hp⟩
  rw [← count_skipSpaces (.inl rfl) rest, ← count_skipSpaces (.inr rfl) rest, hrest, ← hp,
    List.count_append, List.count_append, List.count_cons_self,
    List.count_cons_of_ne (by decide)] at hbalanced
  omega

theorem LeftOpen.noted (h : LeftOpen line) (hd : Divisors PlainDivisor line)
    (hdepth : line.length ≤ depth) : Noted (evalBody (evalAt depth) ⟨line, errNone⟩) := by
  have hopen (s : CString) : skipSpaces (40 :: s) = 40 :: s := skipSpaces_cons (by decide)
  induction h generalizing depth with
  | never hu hs =>
    refine hu.noted hd hdepth (factor_paren_noted (hopen _) fun v e heval => ?_)
    obtain ⟨t, hreads, -, herr⟩ := evalAt_explains heval
    by_cases hclosed : t.Closed
    · exact .inr (hreads.not_closing hclosed hs)
    · exact .inl (herr ▸ t.err_ne_of_open hclosed)
  | @stuck u e s rest n hu hrenders hf hc ha hs =>
    refine hu.noted hd hdepth (factor_paren_noted (hopen _) fun v e' heval => .inr ?_)
    cases depth with
    | zero => cases heval
    | succ depth =>
      have hdefined := hrenders.defined (hd.behind.suffix (List.suffix_cons ..)).behind hf.1
      have hle : (spaces n ++ (s ++ rest)).length ≤ depth := by
        rw [List.length_append, List.length_cons] at hdepth
        omega
      obtain ⟨t, hreads, hden⟩ := hrenders.reads hdefined hf n
      have hrun : evalBody (evalAt depth) ⟨spaces n ++ (s ++ rest), errNone⟩ =
          .ok (e.value, ⟨skipSpaces rest, t.err errNone⟩) :=
        (Reads.eval hreads ha hs).runs hle hden.value
      cases heval.symm.trans hrun
      have hskip := skipSpaces_skipSpaces rest
      rw [skip, hskip]
      exact hc
  | @inside u s hu h ih =>
    refine hu.noted hd hdepth (factor_paren_noted (hopen _) fun v e heval => .inl ?_)
    cases depth with
    | zero => cases heval
    | succ depth =>
      have hle : s.length ≤ depth := by
        rw [List.length_append, List.length_cons] at hdepth
        omega
      exact ih (hd.behind.suffix (List.suffix_cons ..)) hle v e heval

theorem Reads.mishaps_leftOpen (h : Reads phase s t rest) (hd : Divisors PlainDivisor s) :
    ∀ m ∈ t.mishaps, m = .leftOpen := by
  have hboth {ms ms' : List Mishap} (hl : ∀ m ∈ ms, m = .leftOpen)
      (hr : ∀ m ∈ ms', m = .leftOpen) : ∀ m ∈ ms ++ ms', m = .leftOpen :=
    List.forall_mem_append.mpr ⟨hl, hr⟩
  have hquotient {s l s' r rest} (hl : Reads .termLoop s l (47 :: s'))
      (hr : Reads .factor s' r rest) (hd : Divisors PlainDivisor s) : r.value ≠ some 0 := by
    obtain ⟨hopen, hplain⟩ := hd s' hl.suffix
    rw [hr.value_of_number hopen]
    exact fun h => hplain.1 (Option.some.inj h)
  induction h with
  | num h => exact List.forall_mem_nil _
  | closed ho _ _ ih => exact ih (hd.suffix (suffix_of_skipSpaces ho))
  | unclosed ho _ _ ih =>
    exact hboth (ih (hd.suffix (suffix_of_skipSpaces ho))) (List.forall_mem_singleton.mpr rfl)
  | firstFactor _ ih => exact ih hd
  | mul hl _ ihl ihr => exact hboth (ihl hd) (ihr (hd.suffix hl.operand_suffix))
  | div hl hr _ ihl ihr =>
    rw [Tree.mishaps, if_neg (hquotient hl hr hd), List.append_nil]
    exact hboth (ihl hd) (ihr (hd.suffix hl.operand_suffix))
  | term _ _ _ ih => exact ih hd
  | divZero hl hr h0 ihl ihr => exact absurd h0 (hquotient hl hr hd)
  | firstTerm _ ih => exact ih hd
  | add hl _ ihl ihr => exact hboth (ihl hd) (ihr (hd.suffix hl.operand_suffix))
  | sub hl _ ihl ihr => exact hboth (ihl hd) (ihr (hd.suffix hl.operand_suffix))
  | eval _ _ _ ih => exact ih hd

theorem LeftOpen.bcErr (h : LeftOpen line) (hd : Divisors PlainDivisor line) :
    bcErr line = .ok errSyntax := by
  obtain ⟨t, rest, hreads⟩ := exists_reads line
  have htrap := hreads.trapFree (hd.mono fun v hv => hv.2).dividesSafely
  obtain ⟨v, hvalue⟩ := Option.isSome_iff_exists.mp (t.isSome_value_iff.mpr htrap)
  have heval := (ExprT.eval_eq_ok_iff ⟨line, errNone⟩ v ⟨rest, _⟩).mpr ⟨t, hreads, hvalue, rfl⟩
  have herr := h.noted hd (Nat.le_refl _) v _ heval
  rw [bcErr_eq_ok_iff]
  refine ⟨t, rest, v, hreads, hvalue, ?_⟩
  rw [t.err_eq] at herr ⊢
  exact lastErr_eq herr (hreads.mishaps_leftOpen hd)

end BiosKernel
