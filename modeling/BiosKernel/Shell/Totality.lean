import BiosKernel.Shell.Reading

namespace BiosKernel
set_option autoImplicit true

/-- What begins with so few bytes is read. -/
def ReadsBelow (n : Nat) : Prop := ∀ s : CString, s.length < n → ∃ t rest, Reads .eval s t rest

theorem ReadsBelow.factor (h : ReadsBelow n) (hs : s.length ≤ n) :
    ∃ t rest, Reads .factor s t rest := by
  by_cases hopen : (skipSpaces s).at0 = 40
  · have ho := CString.eq_cons_of_at0 hopen (by decide)
    have hlt := length_of_skipSpaces ho
    obtain ⟨t, rest, hreads⟩ := h _ (Nat.lt_of_lt_of_le hlt hs)
    by_cases hclose : (skipSpaces rest).at0 = 41
    · exact ⟨_, _, .closed ho hreads (CString.eq_cons_of_at0 hclose (by decide))⟩
    · exact ⟨_, _, .unclosed ho hreads hclose⟩
  · exact ⟨_, _, .num hopen⟩

theorem ReadsBelow.term (h : ReadsBelow n) (hl : Reads .termLoop s l rest)
    (hm : rest.length ≤ m) (hn : m ≤ n) : ∃ t rest', Reads .term s t rest' := by
  induction m generalizing l rest with
  | zero =>
    obtain rfl := List.eq_nil_of_length_eq_zero (Nat.le_zero.mp hm)
    exact ⟨l, [], .term hl (by decide) (by decide)⟩
  | succ m ih =>
    have hoperand {c : UInt8} (hc : rest.at0 = c) (h0 : c ≠ 0) :
        rest = c :: rest.tail ∧ rest.tail.length ≤ m :=
      ⟨CString.eq_cons_of_at0 hc h0, by rw [List.length_tail]; omega⟩
    by_cases hmul : rest.at0 = 42
    · obtain ⟨hcons, hle⟩ := hoperand hmul (by decide)
      obtain ⟨r, rest', hr⟩ := h.factor (s := rest.tail) (by omega)
      have hshort := (length_skipSpaces_le rest').trans hr.length_le
      exact ih (.mul (hcons ▸ hl) hr) (by omega) (by omega)
    · by_cases hdiv : rest.at0 = 47
      · obtain ⟨hcons, hle⟩ := hoperand hdiv (by decide)
        obtain ⟨r, rest', hr⟩ := h.factor (s := rest.tail) (by omega)
        have hshort := (length_skipSpaces_le rest').trans hr.length_le
        by_cases hzero : r.value = some 0
        · exact ⟨_, _, .divZero (hcons ▸ hl) hr hzero⟩
        · exact ih (.div (hcons ▸ hl) hr hzero) (by omega) (by omega)
      · exact ⟨l, rest, .term hl hmul hdiv⟩

theorem ReadsBelow.firstTerm (h : ReadsBelow n) (hs : s.length ≤ n) :
    ∃ t rest, Reads .term s t rest := by
  obtain ⟨t, rest, hfactor⟩ := h.factor hs
  have hle := (length_skipSpaces_le rest).trans hfactor.length_le
  exact h.term (.firstFactor hfactor) (Nat.le_refl _) (hle.trans hs)

theorem ReadsBelow.eval (h : ReadsBelow n) (hl : Reads .evalLoop s l rest)
    (hm : rest.length ≤ m) (hn : m ≤ n) : ∃ t rest', Reads .eval s t rest' := by
  induction m generalizing l rest with
  | zero =>
    obtain rfl := List.eq_nil_of_length_eq_zero (Nat.le_zero.mp hm)
    exact ⟨l, [], .eval hl (by decide) (by decide)⟩
  | succ m ih =>
    have hoperand {c : UInt8} (hc : rest.at0 = c) (h0 : c ≠ 0) :
        rest = c :: rest.tail ∧ rest.tail.length ≤ m :=
      ⟨CString.eq_cons_of_at0 hc h0, by rw [List.length_tail]; omega⟩
    by_cases hadd : rest.at0 = 43
    · obtain ⟨hcons, hle⟩ := hoperand hadd (by decide)
      obtain ⟨r, rest', hr⟩ := h.firstTerm (s := rest.tail) (by omega)
      have hshort := (length_skipSpaces_le rest').trans hr.length_le
      exact ih (.add (hcons ▸ hl) hr) (by omega) (by omega)
    · by_cases hsub : rest.at0 = 45
      · obtain ⟨hcons, hle⟩ := hoperand hsub (by decide)
        obtain ⟨r, rest', hr⟩ := h.firstTerm (s := rest.tail) (by omega)
        have hshort := (length_skipSpaces_le rest').trans hr.length_le
        exact ih (.sub (hcons ▸ hl) hr) (by omega) (by omega)
      · exact ⟨l, rest, .eval hl hadd hsub⟩

theorem readsBelow (n : Nat) : ReadsBelow n := by
  induction n with
  | zero =>
    intro s hs
    exact absurd hs (Nat.not_lt_zero _)
  | succ n ih =>
    intro s hs
    have hle := Nat.le_of_lt_succ hs
    obtain ⟨t, rest, hterm⟩ := ih.firstTerm hle
    have hrest := (length_skipSpaces_le rest).trans hterm.length_le
    exact ih.eval (.firstTerm hterm) (Nat.le_refl _) (hrest.trans hle)

/-- Every line is read as something, up to some place. -/
theorem exists_reads (line : CString) : ∃ t rest, Reads .eval line t rest :=
  readsBelow (line.length + 1) line (Nat.lt_succ_self _)

theorem skipSpaces_suffix (s : CString) : skipSpaces s <:+ s := List.dropWhile_suffix _

theorem suffix_of_skipSpaces (h : skipSpaces s = c :: s') : s' <:+ s :=
  (List.suffix_cons c s').trans (h ▸ skipSpaces_suffix s)

theorem Reads.suffix (h : Reads phase s t rest) : rest <:+ s := by
  induction h with
  | num h => exact (scanNumber_suffix _).trans (skipSpaces_suffix _)
  | closed ho _ hc ih => exact (suffix_of_skipSpaces hc).trans (ih.trans (suffix_of_skipSpaces ho))
  | unclosed ho _ _ ih => exact (skipSpaces_suffix _).trans (ih.trans (suffix_of_skipSpaces ho))
  | firstFactor _ ih => exact (skipSpaces_suffix _).trans ih
  | mul _ _ ihl ihr =>
    exact (skipSpaces_suffix _).trans (ihr.trans ((List.suffix_cons _ _).trans ihl))
  | div _ _ _ ihl ihr =>
    exact (skipSpaces_suffix _).trans (ihr.trans ((List.suffix_cons _ _).trans ihl))
  | term _ _ _ ih => exact ih
  | divZero _ _ _ ihl ihr => exact ihr.trans ((List.suffix_cons _ _).trans ihl)
  | firstTerm _ ih => exact (skipSpaces_suffix _).trans ih
  | add _ _ ihl ihr =>
    exact (skipSpaces_suffix _).trans (ihr.trans ((List.suffix_cons _ _).trans ihl))
  | sub _ _ ihl ihr =>
    exact (skipSpaces_suffix _).trans (ihr.trans ((List.suffix_cons _ _).trans ihl))
  | eval _ _ _ ih => exact ih

theorem Reads.operand_suffix (h : Reads phase s t (c :: s')) : s' <:+ s :=
  (List.suffix_cons c s').trans h.suffix

end BiosKernel
