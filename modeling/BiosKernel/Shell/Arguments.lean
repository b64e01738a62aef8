import BiosKernel.Shell.Residue

namespace BiosKernel
open Checked
set_option autoImplicit true

/-- Two pointers to the same string, or both `NULL`. -/
def SameText (p q : Option CString) : Prop := p.map CString.text = q.map CString.text

theorem SameText.cases (h : SameText p q) :
    (p = none ∧ q = none) ∨ ∃ s t, p = some s ∧ q = some t ∧ s.text = t.text := by
  cases p with
  | none =>
    cases q with
    | none => exact .inl ⟨rfl, rfl⟩
    | some t => cases h
  | some s =>
    cases q with
    | none => cases h
    | some t => exact .inr ⟨s, t, rfl, rfl, Option.some.inj h⟩

theorem SameText.strlen (h : SameText p q) : p.elim 0 strlen = q.elim 0 strlen := by
  obtain ⟨rfl, rfl⟩ | ⟨s, t, rfl, rfl, hst⟩ := h.cases
  · rfl
  · exact congrArg List.length hst

theorem SameText.deref_bind {f : CString → ShellResult β} (h : SameText p q)
    (hf : ∀ s t, s.text = t.text → f s = f t) : (deref p >>= f) = (deref q >>= f) := by
  obtain ⟨rfl, rfl⟩ | ⟨s, t, rfl, rfl, hst⟩ := h.cases
  · rfl
  · exact hf s t hst

theorem SameText.bind {f : CString → Option β} (h : SameText p q)
    (hf : ∀ s t, s.text = t.text → f s = f t) : p.bind f = q.bind f := by
  obtain ⟨rfl, rfl⟩ | ⟨s, t, rfl, rfl, hst⟩ := h.cases
  · rfl
  · exact hf s t hst

theorem strjoinLoop_congr {i : Int} {n : Nat}
    (h : ∀ k, i ≤ k → k < i + n → SameText (argv k) (argv' k)) :
    strjoinLoop argv delim i n = strjoinLoop argv' delim i n := by
  induction n generalizing i with
  | zero => rfl
  | succ n ih =>
    have hrest := ih (i := i + 1) fun k hlo hhi => h k (by omega) (by omega)
    rw [strjoinLoop, strjoinLoop, hrest]
    apply (h i (Int.le_refl i) (by omega)).bind
    intro s t hst
    rw [hst]

theorem strjoin_congr {n : Int} (hn : 1 ≤ n)
    (h : ∀ k, 0 ≤ k → k < n → SameText (argv k) (argv' k)) :
    strjoin n argv delim = strjoin n argv' delim := by
  have hloop : strjoinLoop argv delim 0 (n - 1).toNat = strjoinLoop argv' delim 0 (n - 1).toNat :=
    strjoinLoop_congr fun k hlo hhi => h k hlo (by omega)
  rw [strjoin, strjoin, hloop]
  congr 1
  funext front
  apply (h (n - 1) (by omega) (by omega)).bind
  intro s t hst
  rw [hst]

theorem strcmp_text (a b : CString) : strcmp a.text b = strcmp a b := by
  induction a generalizing b with
  | nil => rfl
  | cons c a ih =>
    by_cases hc : c = 0
    · subst hc
      rw [strcmp, if_neg fun h => h.1 rfl]
      rfl
    · rw [CString.text_cons hc, strcmp, strcmp, ih]

theorem strcmp_congr {s t : CString} (h : s.text = t.text) (b : CString) :
    strcmp s b = strcmp t b := by
  rw [← strcmp_text s, h, strcmp_text]

theorem eq_of_strcmp (ha : 0 ∉ a) (hb : 0 ∉ b) (h : strcmp a b = 0) : a = b := by
  induction a generalizing b with
  | nil =>
    have hat : b.at0.toNat = 0 := by
      rw [strcmp] at h
      omega
    exact ((CString.at0_eq_zero_iff hb).mp (UInt8.toNat_inj.mp hat)).symm
  | cons c a ih =>
    obtain ⟨hc, ha⟩ := not_or.mp (mt List.mem_cons.mpr ha)
    rw [strcmp] at h
    split at h
    · rename_i hsame
      have hcons := CString.eq_cons_of_at0 hsame.2.symm hsame.1
      rw [hcons] at hb
      rw [hcons, ih ha (fun hm => hb (List.mem_cons_of_mem _ hm)) h]
    · rename_i hdiffer
      have heq : c = b.at0 := UInt8.toNat_inj.mp (by omega)
      exact absurd ⟨Ne.symm hc, heq⟩ hdiffer

theorem at0_text (s : CString) : s.text.at0 = s.at0 := by
  cases s with
  | nil => rfl
  | cons c s =>
    by_cases hc : c = 0
    · subst hc
      rfl
    · rw [CString.text_cons hc]
      rfl

theorem collapseSeperators_text (s : CString) (lastWasSlash : Bool) :
    collapseSeperators s.text lastWasSlash = collapseSeperators s lastWasSlash := by
  induction s generalizing lastWasSlash with
  | nil => rfl
  | cons c s ih =>
    by_cases hc : c = 0
    · subst hc
      rw [collapseSeperators, if_pos (.inl rfl)]
      rfl
    · rw [CString.text_cons hc, collapseSeperators, collapseSeperators, ih, ih]

theorem preprocessPath_congr {s t : CString} (h : s.text = t.text) :
    preprocessPath s = preprocessPath t := by
  rw [preprocessPath, preprocessPath, ← at0_text s, ← at0_text t, ← collapseSeperators_text s,
    ← collapseSeperators_text t, h]

theorem argumentPath_congr (currWd : CString) {s t : CString} (h : s.text = t.text) :
    argumentPath currWd s = argumentPath currWd t := by
  have hjoined : preprocessPath (currWd.takeWhile (· ≠ 0) ++ pathSeperator :: s) =
      preprocessPath (currWd.takeWhile (· ≠ 0) ++ pathSeperator :: t) := by
    apply preprocessPath_congr
    have hwd : 0 ∉ currWd.takeWhile (· ≠ 0) := fun hm =>
      absurd (List.mem_takeWhile_imp (p := fun c => decide (c ≠ 0)) hm) (by decide)
    rw [CString.text_append hwd, CString.text_append hwd, CString.text_cons (by decide),
      CString.text_cons (by decide), h]
  rw [argumentPath, argumentPath, ← at0_text s, ← at0_text t, h, preprocessPath_congr h, hjoined]

theorem takeWhile_text {p : UInt8 → Bool} (hp : p 0 = false) (s : CString) :
    s.text.takeWhile p = s.takeWhile p := by
  induction s with
  | nil => rfl
  | cons c s ih =>
    by_cases hc : c = 0
    · subst hc
      exact (List.takeWhile_cons_of_neg (Bool.not_eq_true _ ▸ hp)).symm
    · rw [CString.text_cons hc, List.takeWhile_cons, List.takeWhile_cons, ih]

theorem text_tail {s : CString} (h : s.at0 ≠ 0) : s.text.tail = CString.text s.tail := by
  cases s with
  | nil => rfl
  | cons c s =>
    have hc : c ≠ 0 := h
    rw [CString.text_cons hc]
    rfl

theorem atoi_text (s : CString) : atoi s.text = atoi s := by
  rw [atoi, atoi, ← text_dropWhile]
  generalize s.dropWhile isspace = s
  rw [at0_text]
  by_cases hsign : CString.at0 s = 45 ∨ CString.at0 s = 43
  · have h0 : CString.at0 s ≠ 0 := by
      intro h0
      rw [h0] at hsign
      exact absurd hsign (by decide)
    rw [if_pos hsign, if_pos hsign, text_tail h0, takeWhile_text (by decide)]
  · rw [if_neg hsign, if_neg hsign, takeWhile_text (by decide)]

/-- The same string but for the white space around it. -/
def SameTrimmed (p q : Option CString) : Prop :=
  p.map (fun s => trimmed s.text) = q.map fun s => trimmed s.text

theorem printfNumber_congr {s t : CString} (hex : Bool) (h : trimmed s.text = trimmed t.text) :
    (printfNumber hex s).1 = (printfNumber hex t).1 := by
  have htext : (trimwhitespace s).2.text = (trimwhitespace t).2.text := by
    rw [text_trimwhitespace, text_trimwhitespace, h]
  have hatoi : atoi (trimwhitespace s).2 = atoi (trimwhitespace t).2 := by
    rw [← atoi_text, htext, atoi_text]
  cases hs : trimwhitespace s with
  | mk buffer s' =>
    cases ht : trimwhitespace t with
    | mk buffer' t' =>
      rw [hs, ht] at htext hatoi
      dsimp only at htext hatoi
      rw [printfNumber, printfNumber, hs, ht]
      dsimp only
      rw [isnumber, isnumber, htext, hatoi]
      split
      · rfl
      · rfl

theorem shcmdEcho_congr {argc : Nat}
    (h : ∀ i : Int, 0 ≤ i → i < argc → SameText (argv i) (argv' i)) :
    shcmdEcho argc argv = shcmdEcho argc argv' := by
  rw [shcmdEcho, shcmdEcho]
  by_cases h0 : argc = 0
  · rw [if_pos h0, if_pos h0]
  · by_cases h1 : argc = 1
    · rw [if_neg h0, if_neg h0, if_pos (.inl h1), if_pos (.inl h1)]
    · have hlen := (h 1 (by decide) (by omega)).strlen
      have hjoin : strjoin ((argc : Int) - 1) (fun i => argv (i + 1)) argvDelim =
          strjoin ((argc : Int) - 1) (fun i => argv' (i + 1)) argvDelim :=
        strjoin_congr (by omega) fun k hlo hhi => h (k + 1) (by omega) (by omega)
      rw [hlen, hjoin]

theorem shcmdPrintf_congr {argc : Nat} {f : CString} (hf : argv 1 = some f) (hargc : 2 ≤ argc)
    (h : ∀ i : Int, 0 ≤ i → i < argc → i ≠ 2 → SameText (argv i) (argv' i))
    (hthird : 2 < argc → SameTrimmed (argv 2) (argv' 2))
    (hneeds : strcmp f (ascii "%s") = 0 ∨ strcmp f (ascii "%d") = 0 ∨ strcmp f (ascii "%x") = 0 →
      2 < argc)
    (hs : strcmp f (ascii "%s") = 0 → SameText (argv 2) (argv' 2)) :
    Prod.fst <$> shcmdPrintf argc argv = Prod.fst <$> shcmdPrintf argc argv' := by
  obtain ⟨hnone, -⟩ | ⟨_, f', hf₁, hf', htext⟩ := (h 1 (by decide) (by omega) (by decide)).cases
  · rw [hf] at hnone
    cases hnone
  · cases hf.symm.trans hf₁
    rw [shcmdPrintf, shcmdPrintf, hf, hf']
    dsimp only
    rw [← strcmp_congr htext, ← strcmp_congr htext, ← strcmp_congr htext]
    by_cases hstring : strcmp f (ascii "%s") = 0
    · have hargc := hneeds (.inl hstring)
      have hsame := hs hstring
      have hjoin : strjoin ((argc : Int) - 2) (fun i => argv (i + 2)) [] =
          strjoin ((argc : Int) - 2) (fun i => argv' (i + 2)) [] := by
        apply strjoin_congr (by omega)
        intro k hlo hhi
        by_cases hk : k = 0
        · subst hk
          exact hsame
        · exact h (k + 2) (by omega) (by omega) (by omega)
      rw [if_pos hstring, if_pos hstring, hsame.strlen, hjoin]
    · rw [if_neg hstring, if_neg hstring]
      by_cases hother : strcmp f (ascii "%d") ≠ 0 ∧ strcmp f (ascii "%x") ≠ 0
      · rw [if_pos hother, if_pos hother, ← at0_text f, ← at0_text f', htext]
      · rw [if_neg hother, if_neg hother]
        have hsame := hthird (hneeds (.inr (by omega)))
        cases hp : argv 2 with
        | none =>
          cases hq : argv' 2 with
          | none => rfl
          | some t =>
            rw [SameTrimmed, hp, hq] at hsame
            cases hsame
        | some s =>
          cases hq : argv' 2 with
          | none =>
            rw [SameTrimmed, hp, hq] at hsame
            cases hsame
          | some t =>
            rw [SameTrimmed, hp, hq] at hsame
            exact congrArg Except.ok (printfNumber_congr _ (Option.some.inj hsame))

theorem shcmdCd_congr (vfs : VfsCalls) (currWd : CString) (argc : Nat) (h : SameText p q) :
    shcmdCd vfs currWd argc p = shcmdCd vfs currWd argc q := by
  obtain ⟨rfl, rfl⟩ | ⟨s, t, rfl, rfl, hst⟩ := h.cases
  · rfl
  · rw [shcmdCd, shcmdCd, argumentPath_congr currWd hst]

theorem firstArg_congr {f : Option CString → ShellResult β} {argc : Nat}
    (h : 2 ≤ argc → SameText (argv 1) (argv' 1)) (hf : ∀ p q, SameText p q → f p = f q) :
    (firstArg argc argv >>= f) = (firstArg argc argv' >>= f) := by
  rw [firstArg, firstArg]
  split
  · rfl
  · rename_i hargc
    obtain ⟨hp, hq⟩ | ⟨s, t, hp, hq, hst⟩ := (h (by omega)).cases
    · rw [hp, hq]
    · rw [hp, hq]
      exact hf (some s) (some t) (congrArg some hst)

/-- What is seen of a command. -/
def Effect.seen (effect : Effect) : List Output × CString := (effect.output, effect.currWd)

theorem Shcmd.call_congr {cmd : Shcmd} {argc : Nat} (env : Surroundings) (currWd : CString)
    (hecho : cmd ≠ .echo) (hprintf : cmd ≠ .printf) (hcd : cmd = .cd → 2 ≤ argc)
    (h0 : SameText (argv 0) (argv' 0)) (h1 : 2 ≤ argc → SameText (argv 1) (argv' 1)) :
    cmd.call env currWd argc argv = cmd.call env currWd argc argv' := by
  cases cmd with
  | echo => exact absurd rfl hecho
  | printf => exact absurd rfl hprintf
  | pwd => rfl
  | shutdown => rfl
  | exit => rfl
  | bc => rfl
  | clear => rfl
  | nslookup =>
    rw [call, call, shcmdNslookup, shcmdNslookup]
    split
    · rw [h0.deref_bind]
      intro s t hst
      rw [hst]
    · rw [(h1 (by omega)).deref_bind]
      intro s t hst
      rw [hst]
  | cd => rw [call, call, shcmdCd_congr _ _ _ (h1 (hcd rfl))]
  | ls =>
    rw [call, call, shcmdLs, shcmdLs, firstArg_congr h1]
    intro p q hpq
    obtain ⟨rfl, rfl⟩ | ⟨s, t, rfl, rfl, hst⟩ := hpq.cases
    · rfl
    · simp only [Option.elim_some, argumentPath_congr currWd hst]
  | cat =>
    rw [call, call, firstArg_congr h1]
    intro p q hpq
    obtain ⟨rfl, rfl⟩ | ⟨s, t, rfl, rfl, hst⟩ := hpq.cases
    · rfl
    · simp only [shcmdCat, Option.bind_some, argumentPath_congr currWd hst, Option.isNone_some]
  | notfound =>
    rw [call, call, shcmdNotfound, shcmdNotfound, h0.deref_bind]
    intro s t hst
    rw [hst]

end BiosKernel
