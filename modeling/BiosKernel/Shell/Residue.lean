import BiosKernel.Shell.Commands

namespace BiosKernel
open Checked Runs Words
set_option autoImplicit true

/-- A buffer that holds nothing behind its string but zeros and white space, and nothing from the
sixteenth byte on. -/
structure Ragged (ptr : CString) : Prop where
  short : ∀ c ∈ ptr.drop 15, c = 0
  blank : ∀ c ∈ ptr.drop (strlen ptr), c = 0 ∨ isspace c = true

theorem ragged_nil : Ragged [] := ⟨nofun, nofun⟩

theorem mem_drop_set {l : List α} (h : c ∈ (l.set i a).drop n) : c = a ∨ c ∈ l.drop n := by
  rw [List.drop_set] at h
  split at h
  · exact .inr h
  · exact (List.mem_or_eq_of_mem_set h).symm

theorem mem_cleared {ptr : CString}
    (h : c ∈ (List.replicate (strlen ptr) 0 ++ ptr.drop (strlen ptr)).drop n) :
    c = 0 ∨ c ∈ ptr.drop (max n (strlen ptr)) := by
  rw [List.drop_append, List.mem_append, List.length_replicate] at h
  rcases h with h | h
  · exact .inl (List.eq_of_mem_replicate (List.mem_of_mem_drop h))
  · rw [List.drop_drop] at h
    refine .inr ?_
    rwa [show max n (strlen ptr) = strlen ptr + (n - strlen ptr) by omega]

theorem Ragged.copyToken (h : Ragged ptr) (h0 : 0 ∉ token) : Ragged (copyToken ptr token) := by
  have hlen : (token.take 15).length ≤ 15 := List.length_take_le ..
  have hkept {c : UInt8} {n : Nat} (hn : (token.take 15).length ≤ n)
      (hc : c ∈ (BiosKernel.copyToken ptr token).drop n) :
      c = 0 ∨ c ∈ ptr.drop (max n (strlen ptr)) := by
    rw [copyToken_eq h0, List.drop_append, List.drop_of_length_le hn, List.nil_append] at hc
    rcases mem_drop_set hc with hc | hc
    · exact .inl hc
    · rw [List.drop_drop, Nat.add_sub_cancel' hn] at hc
      exact mem_cleared hc
  have hsub {m n : Nat} (hmn : m ≤ n) {c : UInt8} (hc : c ∈ ptr.drop n) : c ∈ ptr.drop m :=
    List.drop_subset_drop_left ptr hmn hc
  constructor
  · intro c hc
    rcases hkept hlen hc with hc | hc
    · exact hc
    · exact h.short c (hsub (Nat.le_max_left ..) hc)
  · intro c hc
    have hn : (token.take 15).length ≤ strlen (BiosKernel.copyToken ptr token) := by
      rw [strlen, text_copyToken h0, List.length_append]
      exact Nat.le_add_right ..
    rcases hkept hn hc with hc | hc
    · exact .inl hc
    · exact h.blank c (hsub (Nat.le_max_right ..) hc)

/-- What can be left behind a token is one byte of white space, and only where the token has between
2 and 14 characters. -/
theorem Ragged.residue (h : Ragged ptr) (h0 : ptr.at0 ≠ 0) :
    residue ptr len = [] ∨
      (2 ≤ len ∧ len ≤ 14 ∧ ∃ c, residue ptr len = [c] ∧ isspace c = true) := by
  rw [BiosKernel.residue]
  split
  · exact .inl rfl
  · rename_i hres
    obtain ⟨hlen, hbyte⟩ := not_or.mp hres
    have hpos := strlen_pos h0
    have hlt : len < ptr.length := by
      refine Nat.lt_of_not_le fun hle => hbyte ?_
      rw [List.getD_eq_getElem?_getD, List.getElem?_eq_none hle, Option.getD_none]
    have hmem {n : Nat} (hn : n ≤ len) : ptr.getD len 0 ∈ ptr.drop n := by
      rw [List.getD_eq_getElem?_getD, List.getElem?_eq_getElem hlt, Option.getD_some]
      exact List.mem_drop_iff_getElem.mpr ⟨len - n, by omega, by simp only [Nat.add_sub_cancel' hn]⟩
    refine .inr ⟨by omega, ?_, _, rfl, ?_⟩
    · exact Nat.le_of_not_lt fun hle => hbyte (h.short _ (hmem hle))
    · exact (h.blank _ (hmem (by omega))).resolve_left hbyte

theorem blank_of_trimEnd {s : CString} (h : ∀ c ∈ s.drop (strlen s), c = 0 ∨ isspace c = true)
    (hc : c ∈ s.drop (trimEnd s (strlen s - 1) + 1)) : c = 0 ∨ isspace c = true := by
  obtain ⟨i, hi, rfl⟩ := List.mem_drop_iff_getElem.mp hc
  by_cases hlt : trimEnd s (strlen s - 1) + 1 + i < strlen s
  · refine .inr ?_
    have hspace := (trimEnd_spec s (strlen s - 1)).2 (trimEnd s (strlen s - 1) + 1 + i)
      (by omega) (by omega)
    rwa [List.getD_eq_getElem?_getD, List.getElem?_eq_getElem (by omega), Option.getD_some]
      at hspace
  · apply h
    refine List.mem_drop_iff_getElem.mpr
      ⟨trimEnd s (strlen s - 1) + 1 + i - strlen s, by omega, ?_⟩
    simp only [Nat.add_sub_cancel' (Nat.le_of_not_lt hlt)]

theorem Ragged.trimwhitespace (h : Ragged ptr) (h0 : ptr.at0 ≠ 0) :
    Ragged (trimwhitespace ptr).1 ∧ (trimwhitespace ptr).1.at0 ≠ 0 := by
  have hx : 0 ∉ ptr.takeWhile isspace := fun hm =>
    ne_zero_of_isspace (List.mem_takeWhile_imp hm) rfl
  have hsplit : ptr = ptr.takeWhile isspace ++ ptr.dropWhile isspace :=
    List.takeWhile_append_dropWhile.symm
  rw [BiosKernel.trimwhitespace, drop_takeWhile]
  dsimp only
  split
  · exact ⟨h, h0⟩
  · rename_i hs0
    generalize ptr.takeWhile isspace = x at hx hsplit ⊢
    generalize ptr.dropWhile isspace = s at hs0 hsplit ⊢
    subst hsplit
    have hpos := strlen_pos hs0
    have hlen : strlen (x ++ s) = x.length + strlen s := by
      rw [strlen, CString.text_append hx, List.length_append]
      rfl
    have hblank : ∀ c ∈ s.drop (strlen s), c = 0 ∨ isspace c = true := by
      have hall := h.blank
      rwa [hlen, List.drop_length_add_append] at hall
    have hend := (trimEnd_spec s (strlen s - 1)).1
    have hrest {c : UInt8} := blank_of_trimEnd (c := c) hblank
    generalize trimEnd s (strlen s - 1) = e at hend hrest ⊢
    have hset : x ++ s.set (e + 1) 0 = (x ++ s).set (x.length + (e + 1)) 0 := by
      rw [List.set_append_right _ _ (Nat.le_add_right ..), Nat.add_sub_cancel_left]
    have hlen' : strlen (x ++ s.set (e + 1) 0) = x.length + (e + 1) := by
      rw [strlen, CString.text_append hx, text_set_zero (by omega), List.length_append,
        List.length_take_of_le (by rw [← strlen]; omega)]
    rw [List.take_left]
    refine ⟨⟨?_, ?_⟩, ?_⟩
    · intro c hc
      rw [hset] at hc
      exact (mem_drop_set hc).elim id (h.short c)
    · intro c hc
      rw [hlen', List.drop_length_add_append] at hc
      exact (mem_drop_set hc).elim .inl hrest
    · cases x with
      | cons c x => exact h0
      | nil =>
        cases s with
        | nil => exact h0
        | cons c s => exact h0

/-- The buffers hold what the commands have left in them. -/
structure Orderly (tty : Tty) : Prop where
  clean : ∀ slot j ptr, j ≠ 2 → tty.arg slot j = some ptr → Clean ptr
  third : ∀ slot ptr, tty.arg slot 2 = some ptr → Ragged ptr ∧ ptr.at0 ≠ 0

theorem Orderly.congr (h : Orderly tty) (harg : ∀ slot j, tty'.arg slot j = tty.arg slot j) :
    Orderly tty' := by
  constructor
  · intro slot j ptr hj hptr
    exact h.clean slot j ptr hj (harg slot j ▸ hptr)
  · intro slot ptr hptr
    exact h.third slot ptr (harg slot 2 ▸ hptr)

theorem orderly_initTty : Orderly initTty := ⟨nofun, nofun⟩

theorem commandWords_word {line w : CString} {j : Nat} (h0 : 0 ∉ line)
    (hw : (commandWords line)[j]? = some w) : 0 ∉ w ∧ w ≠ [] :=
  ⟨fun hm => h0 (word_subset (commandWords_getElem? hw).1 hm),
    word_ne_nil (commandWords_getElem? hw).1⟩

theorem at0_ne_zero {s : CString} (h : s.text ≠ []) : s.at0 ≠ 0 := by
  cases s with
  | nil => exact absurd rfl h
  | cons c s =>
    intro hc
    rw [show c = 0 from hc] at h
    exact h rfl

theorem Orderly.getCmd_arg {w : CString} {j : Nat} (h : Orderly tty) (h0 : 0 ∉ fgets 256 line)
    (hw : (commandWords (fgets 256 line))[j]? = some w) :
    ∃ ptr, (tty.getCmd line).2.arg tty.ci j = some ptr ∧
      (j ≠ 2 → Clean ptr ∧ ptr.text = w.take 15) ∧
      (j = 2 → Ragged ptr ∧ ptr.at0 ≠ 0 ∧ ∃ r, ptr.text = w.take 15 ++ r ∧
        (∀ c ∈ r, isspace c = true) ∧ (¬ (2 ≤ w.length ∧ w.length ≤ 14) → r = [])) := by
  obtain ⟨hw0, hne⟩ := commandWords_word h0 hw
  rw [tty.getCmd_arg h0, hw]
  refine ⟨_, rfl, ?_, ?_⟩
  · intro hj
    have hclean : Clean ((tty.arg tty.ci j).getD []) := .getD fun ptr => h.clean _ _ ptr hj
    exact hclean.copyToken hw0
  · rintro rfl
    have hold : Ragged ((tty.arg tty.ci 2).getD []) ∧
        (residue ((tty.arg tty.ci 2).getD []) (w.take 15).length = [] ∨
          (2 ≤ (w.take 15).length ∧ (w.take 15).length ≤ 14 ∧
            ∃ c, residue ((tty.arg tty.ci 2).getD []) (w.take 15).length = [c] ∧
              isspace c = true)) := by
      cases hptr : tty.arg tty.ci 2 with
      | none => exact ⟨ragged_nil, .inl (if_pos (.inr rfl))⟩
      | some ptr =>
        obtain ⟨hragged, hfirst⟩ := h.third _ _ hptr
        exact ⟨hragged, hragged.residue hfirst⟩
    have htext := text_copyToken hw0 ((tty.arg tty.ci 2).getD [])
    have hfirst : (copyToken ((tty.arg tty.ci 2).getD []) w).text ≠ [] := by
      rw [htext]
      cases w with
      | nil => exact absurd rfl hne
      | cons c w => exact List.cons_ne_nil _ _
    refine ⟨hold.1.copyToken hw0, at0_ne_zero hfirst, _, htext, ?_, ?_⟩
    · intro c hc
      rcases hold.2 with hnil | ⟨-, -, d, hd, hspace⟩
      · rw [hnil] at hc
        cases hc
      · rw [hd, List.mem_singleton] at hc
        rwa [hc]
    · intro hshort
      rcases hold.2 with hnil | ⟨h2, h14, -⟩
      · exact hnil
      · rw [List.length_take] at h2 h14
        omega

theorem Orderly.getCmd (h : Orderly tty) (h0 : 0 ∉ fgets 256 line) :
    Orderly (tty.getCmd line).2 := by
  constructor
  · intro slot j ptr hj hptr
    rcases Tty.getCmd_arg_cases h0 hptr with hold | ⟨rfl, w, hw⟩
    · exact h.clean slot j ptr hj hold
    · obtain ⟨ptr', hptr', hclean, -⟩ := h.getCmd_arg h0 hw
      cases hptr.symm.trans hptr'
      exact (hclean hj).1
  · intro slot ptr hptr
    rcases Tty.getCmd_arg_cases h0 hptr with hold | ⟨rfl, w, hw⟩
    · exact h.third slot ptr hold
    · obtain ⟨ptr', hptr', -, hragged⟩ := h.getCmd_arg h0 hw
      cases hptr.symm.trans hptr'
      exact ⟨(hragged rfl).1, (hragged rfl).2.1⟩

theorem printfNumber_snd (hex : Bool) (arg : CString) :
    (printfNumber hex arg).2 = (trimwhitespace arg).1 := by
  cases h : trimwhitespace arg with
  | mk buffer s =>
    rw [printfNumber, h]
    dsimp only
    split
    · rfl
    · rfl

theorem shcmdPrintf_trimmed (h : shcmdPrintf argc argv = .ok r) :
    r.2 = none ∨ ∃ ptr, argv 2 = some ptr ∧ r.2 = some (trimwhitespace ptr).1 := by
  rw [shcmdPrintf] at h
  split at h
  · cases h
    exact .inl rfl
  · split at h
    · split at h
      · cases h
        exact .inl rfl
      · obtain ⟨str, -, h⟩ := of_bind_eq_ok h
        cases h
        exact .inl rfl
    · split at h
      · split at h
        · cases h
          exact .inl rfl
        · cases h
          exact .inl rfl
      · split at h
        · cases h
          exact .inl rfl
        · rename_i arg harg
          cases h
          exact .inr ⟨arg, harg, congrArg some (printfNumber_snd _ arg)⟩

theorem Shcmd.call_trimmed {cmd : Shcmd} (h : cmd.call env currWd argc argv = .ok effect) :
    effect.trimmed = none ∨
      ∃ ptr, argv 2 = some ptr ∧ effect.trimmed = some (trimwhitespace ptr).1 := by
  have hprints {x : ShellResult (List UInt8)} (h : Effect.prints currWd <$> x = .ok effect) :
      effect.trimmed = none := by
    obtain ⟨text, -, rfl⟩ := of_map_eq_ok h
    rfl
  cases cmd with
  | echo => exact .inl (hprints h)
  | printf =>
    obtain ⟨r, hr, h⟩ := of_bind_eq_ok h
    cases h
    exact shcmdPrintf_trimmed hr
  | pwd =>
    cases h
    exact .inl rfl
  | shutdown => cases h
  | exit =>
    cases h
    exact .inl rfl
  | bc => exact .inl (hprints h)
  | clear =>
    cases h
    exact .inl rfl
  | nslookup =>
    obtain ⟨output, -, h⟩ := of_bind_eq_ok h
    cases h
    exact .inl rfl
  | cd =>
    obtain ⟨r, -, h⟩ := of_bind_eq_ok h
    split at h
    · cases h
    · cases h
      exact .inl rfl
  | ls => exact .inl (hprints h)
  | cat =>
    obtain ⟨arg, -, h⟩ := of_bind_eq_ok h
    obtain ⟨r, -, h⟩ := of_bind_eq_ok h
    cases h
    exact .inl rfl
  | notfound => exact .inl (hprints h)

theorem Tty.of_setArg {tty : Tty} {ci : Int} (h : (tty.setArg ci p).arg slot j = some ptr) :
    tty.arg slot j = some ptr ∨ (slot = ci ∧ j = 2 ∧ p = some ptr) := by
  cases p with
  | none => exact .inl h
  | some q =>
    by_cases hslot : slot = ci
    · subst hslot
      rw [setArg, arg] at h
      dsimp only at h
      rw [Function.update_self] at h
      rw [arg]
      cases hargs : tty.cache slot with
      | none =>
        rw [hargs] at h
        cases h
      | some args =>
        rw [hargs, Option.map_some, Option.bind_some] at h
        by_cases hj : j = 2
        · subst hj
          rw [Function.update_self] at h
          exact .inr ⟨rfl, rfl, h⟩
        · rw [Function.update_of_ne hj] at h
          exact .inl h
    · rw [setArg, arg] at h
      dsimp only at h
      rw [Function.update_of_ne hslot] at h
      exact .inl h

theorem Orderly.parseCmd (h : Orderly tty) (hrun : tty.parseCmd env ci = .ok r) : Orderly r.2 := by
  rw [Tty.parseCmd] at hrun
  split at hrun
  · cases hrun
    exact h
  · obtain ⟨cmd, -, hrun⟩ := of_bind_eq_ok hrun
    obtain ⟨effect, heffect, hrun⟩ := of_bind_eq_ok hrun
    cases hrun
    have hnew {slot : Int} {j : Nat} {ptr : CString}
        (hptr : (tty.setArg ci effect.trimmed).arg slot j = some ptr) :
        tty.arg slot j = some ptr ∨
          (j = 2 ∧ ∃ old, tty.arg ci 2 = some old ∧ ptr = (trimwhitespace old).1) := by
      rcases Tty.of_setArg hptr with hold | ⟨-, hj, hwritten⟩
      · exact .inl hold
      · rcases Shcmd.call_trimmed heffect with hnone | ⟨old, hold, htrimmed⟩
        · rw [hnone] at hwritten
          cases hwritten
        · exact .inr ⟨hj, old, hold, Option.some.inj (hwritten.symm.trans htrimmed)⟩
    constructor
    · intro slot j ptr hj hptr
      rcases hnew hptr with hptr | ⟨rfl, -⟩
      · exact h.clean slot j ptr hj hptr
      · exact absurd rfl hj
    · intro slot ptr hptr
      rcases hnew hptr with hptr | ⟨-, old, hold, rfl⟩
      · exact h.third slot ptr hptr
      · obtain ⟨hragged, hfirst⟩ := h.third ci old hold
        exact hragged.trimwhitespace hfirst

theorem Orderly.traverseCache (h : Orderly tty) (hrun : tty.traverseCache offset = some r) :
    Orderly r.1 := by
  rw [Tty.traverseCache] at hrun
  generalize (if tty.tci + offset < 0 then (maxCmdsCache : Int) + (tty.tci + offset)
    else tty.tci + offset).tmod maxCmdsCache = tci at hrun
  split at hrun
  · cases hrun
    exact h.congr fun _ _ => rfl
  · obtain ⟨dst, -, rfl⟩ := Option.map_eq_some_iff.mp hrun
    exact h.congr fun _ _ => rfl

theorem Orderly.step (h : Orderly tty) (hop : ShellOp.Typed op)
    (hstep : ShellOp.step tty op = some tty') : Orderly tty' := by
  cases op with
  | command env line =>
    have h0 : 0 ∉ fgets 256 line := fun hm => hop (List.mem_of_mem_take hm)
    rw [ShellOp.step] at hstep
    split at hstep
    · split at hstep
      · rename_i r hrun
        cases hstep
        exact (h.getCmd h0).parseCmd hrun
      · cases hstep
    · cases hstep
  | next =>
    obtain ⟨r, hrun, rfl⟩ := Option.map_eq_some_iff.mp hstep
    exact h.traverseCache hrun
  | previous =>
    obtain ⟨r, hrun, rfl⟩ := Option.map_eq_some_iff.mp hstep
    exact h.traverseCache hrun

theorem Tty.Reachable.orderly (h : Reachable tty) : Orderly tty := by
  obtain ⟨ops, hops, hrun⟩ := h
  have hm : Meets ShellOp.step (fun _ => ShellOp.Typed) initTty ops := Meets.of_forall_mem hops
  exact run_invariant (fun _ _ _ hs hop hstep => hs.step hop hstep) orderly_initTty hm hrun

end BiosKernel
