import BiosKernel.Shell.ParseTrace
import Mathlib.Data.List.Infix

namespace BiosKernel
open Checked Traced
set_option autoImplicit true

namespace Parse

/-- The cursor goes on and stays in front of `stop`, and a call of `eval` begins behind the one it
stands in. The state is the cursor and the beginnings of the calls that have not come back. -/
def track (stop : CString) (s : CString × List CString) :
    CursorEvent → Option (CString × List CString)
  | .move exp => if exp <:+ s.1 ∧ stop <:+ exp then some (exp, s.2) else none
  | .call exp =>
    if exp = s.1 ∧ ∀ y ∈ s.2.head?, exp <:+ y ∧ exp ≠ y then some (s.1, exp :: s.2) else none
  | .ret => some (s.1, s.2.tail)

/-- A function called at `here` keeps to `track`. It comes back inside the calls it was called in,
not before `here` and not behind `stop`, or the processor traps on a division. -/
def Inside (stop : CString) (stack : List CString) (here : CString) (r : Parse α)
    (exp : α → CString) : Prop :=
  Accepts (track stop) (· = .divideError) (here, stack) r fun a s =>
    s = (exp a, stack) ∧ stop <:+ exp a ∧ exp a <:+ here

theorem inside_pure (he : exp a = here) (h : stop <:+ here) :
    Inside stop stack here (pure a) exp := by
  subst he
  exact accepts_pure ⟨rfl, h, List.suffix_refl _⟩

theorem Inside.bind {f : α → Parse β} (h : Inside stop stack here r exp)
    (hf : ∀ a, stop <:+ exp a → exp a <:+ here → Inside stop stack (exp a) (f a) exp') :
    Inside stop stack here (r >>= f) exp' := by
  refine Accepts.bind h ?_
  rintro a s ⟨rfl, hstop, hhere⟩
  refine (hf a hstop hhere).mono ?_
  rintro b s ⟨hs, hstop', hback⟩
  exact ⟨hs, hstop', hback.trans hhere⟩

theorem suffix_tail (h0 : CString.at0 stop = 0) (hs : stop <:+ s) (h : CString.at0 s ≠ 0) :
    stop <:+ s.tail := by
  cases s with
  | nil => exact absurd rfl h
  | cons c s =>
    rcases List.suffix_cons_iff.mp hs with rfl | hs
    · exact absurd h0 h
    · exact hs

theorem move_inside (hs : stop <:+ s) (hh : s <:+ here) :
    Inside stop stack here (emit (.move s)) fun _ => s :=
  accepts_emit (if_pos ⟨hh, hs⟩) ⟨rfl, hs, hh⟩

theorem forward_inside (hs : stop <:+ e.exp.drop n) :
    Inside stop stack e.exp (forward n e) ExprT.exp :=
  (move_inside hs (List.drop_suffix n e.exp)).bind fun _ hs _ => inside_pure rfl hs

theorem advance_inside {f : ExprT → Parse β} (h0 : CString.at0 stop = 0) (hs : stop <:+ e.exp)
    (h : e.exp.at0 ≠ 0)
    (hf : stop <:+ e.advance.exp → e.advance.exp <:+ e.exp →
      e.advance.exp.length < e.exp.length → Inside stop stack e.advance.exp (f e.advance) exp) :
    Inside stop stack e.exp (forward 1 e >>= f) exp := by
  have hstop : stop <:+ e.advance.exp := suffix_tail h0 hs h
  have hsuffix : e.advance.exp <:+ e.exp := List.tail_suffix e.exp
  have hforward : forward 1 e = emit (.move e.advance.exp) >>= fun _ => pure e.advance := by
    rw [forward, List.drop_one]
    rfl
  rw [hforward]
  exact (move_inside hstop hsuffix).bind fun _ _ _ =>
    hf hstop hsuffix (ExprT.length_advance h)

theorem whileLoop_inside (h0 : CString.at0 stop = 0) (hp : p 0 = false) (hs : stop <:+ s) (a : σ) :
    Inside stop stack s (whileLoop p f a s) Prod.snd := by
  induction s generalizing a with
  | nil => exact inside_pure rfl hs
  | cons c s ih =>
    rw [whileLoop]
    split
    · rename_i hc
      have hne : c ≠ 0 := by
        intro h
        rw [h, hp] at hc
        cases hc
      have htail : stop <:+ s := suffix_tail h0 hs hne
      exact (move_inside htail (List.suffix_cons c s)).bind fun _ hs _ => ih hs _
    · exact inside_pure rfl hs

theorem skip_inside (h0 : CString.at0 stop = 0) (hs : stop <:+ e.exp) :
    Inside stop stack e.exp (skip e) ExprT.exp :=
  (whileLoop_inside h0 (by decide) hs ()).bind fun _ hs _ =>
    inside_pure rfl hs

theorem digits_inside (h0 : CString.at0 stop = 0) (hs : stop <:+ e.exp) :
    Inside stop stack e.exp (digits neg e) (fun x => x.2.exp) := by
  rw [digits]
  split
  · rename_i h
    have hone : stop <:+ e.exp.tail := suffix_tail h0 hs (by rw [h.1]; decide)
    have htwo : stop <:+ e.exp.drop 2 := by
      rw [← List.tail_drop, List.drop_one]
      exact suffix_tail h0 hone (by rw [h.2]; decide)
    refine (forward_inside htwo).bind fun e' hs _ => ?_
    exact (whileLoop_inside h0 (by decide) hs 0).bind fun _ hs _ =>
      inside_pure rfl hs
  · exact (whileLoop_inside h0 (by decide) hs 0).bind fun _ hs _ =>
      inside_pure rfl hs

theorem number_inside (h0 : CString.at0 stop = 0) (hs : stop <:+ e.exp) :
    Inside stop stack e.exp (number e) (fun x => x.2.exp) := by
  rw [number]
  split
  · rename_i h
    exact advance_inside h0 hs (by rw [h]; decide) fun hs _ _ => digits_inside h0 hs
  · exact digits_inside h0 hs

section Calls

variable {ev : ExprT → Parse (Int32 × ExprT)} {stop top : CString} {stack : List CString}

/-- A call is in order anywhere behind `top`. -/
def CallsBehind (stop top : CString) (stack : List CString)
    (ev : ExprT → Parse (Int32 × ExprT)) : Prop :=
  ∀ e, stop <:+ e.exp → e.exp <:+ top → e.exp.length < top.length →
    Inside stop stack e.exp (ev e) fun x => x.2.exp

theorem factor_inside (h0 : CString.at0 stop = 0) (hev : CallsBehind stop top stack ev)
    (hs : stop <:+ e.exp) (ht : e.exp <:+ top) :
    Inside stop stack e.exp (factor ev e) fun x => x.2.exp := by
  rw [factor]
  refine (skip_inside h0 hs).bind fun e hs he => ?_
  have ht := he.trans ht
  split
  · rename_i hopen
    refine advance_inside h0 hs (by rw [hopen]; decide) fun hs he hlt => ?_
    -- the parenthesis lies between the call and what it stands in
    have hcall := hev e.advance hs (he.trans ht) (Nat.lt_of_lt_of_le hlt ht.length_le)
    refine hcall.bind fun x hs _ => ?_
    refine (skip_inside h0 hs).bind fun e hs _ => ?_
    split
    · rename_i hclose
      exact advance_inside h0 hs (by rw [hclose]; decide) fun hs _ _ => inside_pure rfl hs
    · exact inside_pure rfl hs
  · exact number_inside h0 hs

theorem termLoop_inside (h0 : CString.at0 stop = 0) (hev : CallsBehind stop top stack ev)
    (hs : stop <:+ e.exp) (ht : e.exp <:+ top) (hrounds : e.exp.length < rounds) :
    Inside stop stack e.exp (termLoop ev rounds res e) fun x => x.2.exp := by
  induction rounds generalizing res e with
  | zero => exact absurd hrounds (Nat.not_lt_zero _)
  | succ rounds ih =>
    have hagain (res : Int32) (e' : ExprT) (hs : stop <:+ e'.exp)
        (he : e'.exp <:+ e.advance.exp) (hlt : e.advance.exp.length < e.exp.length)
        (hsuffix : e.advance.exp <:+ e.exp) :
        Inside stop stack e'.exp (skip e' >>= fun e => termLoop ev rounds res e)
          fun x => x.2.exp := by
      refine (skip_inside h0 hs).bind fun e₂ hs he₂ => ?_
      have hle := (he₂.trans he).length_le
      exact ih hs ((he₂.trans he).trans (hsuffix.trans ht)) (by omega)
    rw [termLoop]
    split
    · rename_i hmul
      refine advance_inside h0 hs (by rw [hmul]; decide) fun hs he hlt => ?_
      refine (factor_inside h0 hev hs (he.trans ht)).bind fun x hs hx => ?_
      exact hagain _ x.2 hs hx hlt he
    · split
      · rename_i hdiv
        refine advance_inside h0 hs (by rw [hdiv]; decide) fun hs he hlt => ?_
        refine (factor_inside h0 hev hs (he.trans ht)).bind fun x hs hx => ?_
        obtain ⟨num, e'⟩ := x
        dsimp only at hs hx ⊢
        split
        · exact inside_pure rfl hs
        · rw [ExprT.divide]
          split
          · exact ⟨_, rfl, rfl⟩
          · exact hagain _ e' hs hx hlt he
      · exact inside_pure rfl hs

theorem term_inside (h0 : CString.at0 stop = 0) (hev : CallsBehind stop top stack ev)
    (hs : stop <:+ e.exp) (ht : e.exp <:+ top) :
    Inside stop stack e.exp (term ev e) fun x => x.2.exp := by
  rw [term]
  refine (factor_inside h0 hev hs ht).bind fun x hs hx => ?_
  refine (skip_inside h0 hs).bind fun e' hs he => ?_
  exact termLoop_inside h0 hev hs (he.trans (hx.trans ht)) (Nat.lt_succ_self _)

theorem evalLoop_inside (h0 : CString.at0 stop = 0) (hev : CallsBehind stop top stack ev)
    (hs : stop <:+ e.exp) (ht : e.exp <:+ top) (hrounds : e.exp.length < rounds) :
    Inside stop stack e.exp (evalLoop ev rounds res e) fun x => x.2.exp := by
  induction rounds generalizing res e with
  | zero => exact absurd hrounds (Nat.not_lt_zero _)
  | succ rounds ih =>
    have hnext (h : e.exp.at0 ≠ 0) (f : Int32 → Int32) :
        Inside stop stack e.exp (forward 1 e >>= fun e => term ev e >>= fun x =>
          skip x.2 >>= fun e => evalLoop ev rounds (f x.1) e) fun x => x.2.exp := by
      refine advance_inside h0 hs h fun hs he hlt => ?_
      refine (term_inside h0 hev hs (he.trans ht)).bind fun x hs hx => ?_
      refine (skip_inside h0 hs).bind fun e₂ hs he₂ => ?_
      have hle := (he₂.trans hx).length_le
      exact ih hs ((he₂.trans hx).trans (he.trans ht)) (by omega)
    rw [evalLoop]
    split
    · rename_i hadd
      exact hnext (by rw [hadd]; decide) fun num => res + num
    · split
      · rename_i hsub
        exact hnext (by rw [hsub]; decide) fun num => res - num
      · exact inside_pure rfl hs

theorem evalBody_inside (h0 : CString.at0 stop = 0) (hev : CallsBehind stop e.exp stack ev)
    (hs : stop <:+ e.exp) : Inside stop stack e.exp (evalBody ev e) fun x => x.2.exp := by
  rw [evalBody]
  refine (term_inside h0 hev hs (List.suffix_refl _)).bind fun x hs hx => ?_
  refine (skip_inside h0 hs).bind fun e' hs he => ?_
  exact evalLoop_inside h0 hev hs (he.trans hx) (Nat.lt_succ_self _)

theorem evalAt_inside (h0 : CString.at0 stop = 0) (hs : stop <:+ e.exp)
    (hdepth : e.exp.length < depth) (hcall : ∀ y ∈ stack.head?, e.exp <:+ y ∧ e.exp ≠ y) :
    Inside stop stack e.exp (evalAt depth e) fun x => x.2.exp := by
  induction depth generalizing e stack with
  | zero => exact absurd hdepth (Nat.not_lt_zero _)
  | succ depth ih =>
    have hev : CallsBehind stop e.exp (e.exp :: stack) (evalAt depth) := by
      intro e' hs he hlt
      refine ih hs (by omega) ?_
      intro y hy
      cases hy
      exact ⟨he, fun heq => Nat.lt_irrefl _ (heq ▸ hlt)⟩
    have hpush : track stop (e.exp, stack) (.call e.exp) = some (e.exp, e.exp :: stack) :=
      if_pos ⟨rfl, hcall⟩
    rw [evalAt]
    refine Accepts.bind (Q := fun _ s => s = (e.exp, e.exp :: stack)) (accepts_emit hpush rfl) ?_
    rintro _ s rfl
    refine Accepts.bind (evalBody_inside h0 hev hs) ?_
    rintro r s ⟨rfl, hs, he⟩
    refine Accepts.bind (Q := fun _ s => s = (r.2.exp, stack)) (accepts_emit rfl rfl) ?_
    rintro _ s rfl
    exact accepts_pure ⟨rfl, hs, he⟩

theorem callsBehind_eval (h0 : CString.at0 stop = 0) (top : CString) (stack : List CString) :
    CallsBehind stop top (top :: stack) eval := by
  intro e hs he hlt
  refine evalAt_inside h0 hs (Nat.lt_succ_self _) ?_
  intro y hy
  cases hy
  exact ⟨he, fun heq => Nat.lt_irrefl _ (heq ▸ hlt)⟩

end Calls

/-- From every place of a string with any bytes behind its NUL, `eval` and the functions it calls
come back inside the string, and their nested calls of `eval` begin ever later. The others stand in
a call of `eval` that began `before` them. -/
theorem parse_inside (before string behind : CString) (err : Nat) :
    let stop := 0 :: behind
    let here := string ++ stop
    let stack := [before ++ here]
    let e : ExprT := ⟨here, err⟩
    Inside stop [] here (eval e) (fun x => x.2.exp) ∧
      Inside stop stack here (term eval e) (fun x => x.2.exp) ∧
      Inside stop stack here (factor eval e) (fun x => x.2.exp) ∧
      Inside stop stack here (number e) (fun x => x.2.exp) ∧
      Inside stop stack here (skip e) ExprT.exp := by
  intro stop here stack e
  have h0 : CString.at0 stop = 0 := rfl
  have hs : stop <:+ e.exp := List.suffix_append string stop
  have ht : e.exp <:+ before ++ here := List.suffix_append before here
  have hev := callsBehind_eval h0 (before ++ here) []
  refine ⟨evalAt_inside h0 hs (Nat.lt_succ_self _) ?_, term_inside h0 hev hs ht,
    factor_inside h0 hev hs ht, number_inside h0 hs, skip_inside h0 hs⟩
  intro y hy
  cases hy

end Parse

end BiosKernel
