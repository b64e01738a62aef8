import BiosKernel.Shell.Calculator

namespace BiosKernel
open Checked
set_option autoImplicit true

/-- What the calculator takes a text for. Numbers may be without digits, and parentheses may be left
open. -/
inductive Tree where
  | num (l : Literal)
  | closed (t : Tree)
  | unclosed (t : Tree)
  | mul (l r : Tree)
  | div (l r : Tree)
  | add (l r : Tree)
  | sub (l r : Tree)

namespace Tree

/-- The value that is computed, or none where the processor traps. A division by zero gives zero. -/
def value : Tree → Option Int32
  | num l => some l.value
  | closed t => t.value
  | unclosed t => t.value
  | mul l r => do return (← l.value) * (← r.value)
  | div l r => do
    let a ← l.value
    let b ← r.value
    if b = 0 then some 0 else (ExprT.divide a b).toOption
  | add l r => do return (← l.value) + (← r.value)
  | sub l r => do return (← l.value) - (← r.value)

/-- The error flag behind the evaluation, from the one before: the last error is kept. -/
def err : Tree → Nat → Nat
  | num _, e => e
  | closed t, e => t.err e
  | unclosed _, _ => errSyntax
  | mul l r, e => r.err (l.err e)
  | div l r, e => if r.value = some 0 then errDivisionByZero else r.err (l.err e)
  | add l r, e => r.err (l.err e)
  | sub l r, e => r.err (l.err e)

theorem value_bind {l r : Tree} {f : Int32 → Int32 → Option Int32}
    (h : (l.value.bind fun a => r.value.bind fun b => f a b) = some v) :
    ∃ a b, l.value = some a ∧ r.value = some b ∧ f a b = some v := by
  obtain ⟨a, ha, h⟩ := Option.bind_eq_some_iff.mp h
  obtain ⟨b, hb, h⟩ := Option.bind_eq_some_iff.mp h
  exact ⟨a, b, ha, hb, h⟩

theorem value_mul (h : (mul l r).value = some v) :
    ∃ a b, l.value = some a ∧ r.value = some b ∧ a * b = v := by
  obtain ⟨a, b, ha, hb, h⟩ := value_bind h
  exact ⟨a, b, ha, hb, Option.some.inj h⟩

theorem value_add (h : (add l r).value = some v) :
    ∃ a b, l.value = some a ∧ r.value = some b ∧ a + b = v := by
  obtain ⟨a, b, ha, hb, h⟩ := value_bind h
  exact ⟨a, b, ha, hb, Option.some.inj h⟩

theorem value_sub (h : (sub l r).value = some v) :
    ∃ a b, l.value = some a ∧ r.value = some b ∧ a - b = v := by
  obtain ⟨a, b, ha, hb, h⟩ := value_bind h
  exact ⟨a, b, ha, hb, Option.some.inj h⟩

theorem value_div (h : (div l r).value = some v) : ∃ a b, l.value = some a ∧ r.value = some b ∧
    (if b = 0 then some 0 else (ExprT.divide a b).toOption) = some v := value_bind h

end Tree

/-- The places between which a part of the text is read: a factor, a term as far as its loop has
come, a whole term, and the same for an expression. -/
inductive Phase where
  | factor
  | termLoop
  | term
  | evalLoop
  | eval

/-- A text is read as a tree, up to the rest. A term ends behind a division by zero. -/
inductive Reads : Phase → CString → Tree → CString → Prop
  | num (h : (skipSpaces s).at0 ≠ 40) :
      Reads .factor s (.num (scanNumber (skipSpaces s)).1) (scanNumber (skipSpaces s)).2
  | closed (ho : skipSpaces s = 40 :: s') (h : Reads .eval s' t rest)
      (hc : skipSpaces rest = 41 :: rest') : Reads .factor s (.closed t) rest'
  | unclosed (ho : skipSpaces s = 40 :: s') (h : Reads .eval s' t rest)
      (hc : (skipSpaces rest).at0 ≠ 41) : Reads .factor s (.unclosed t) (skipSpaces rest)
  | firstFactor (h : Reads .factor s t rest) : Reads .termLoop s t (skipSpaces rest)
  | mul (hl : Reads .termLoop s l (42 :: s')) (hr : Reads .factor s' r rest) :
      Reads .termLoop s (.mul l r) (skipSpaces rest)
  | div (hl : Reads .termLoop s l (47 :: s')) (hr : Reads .factor s' r rest)
      (h0 : r.value ≠ some 0) : Reads .termLoop s (.div l r) (skipSpaces rest)
  | term (h : Reads .termLoop s t rest) (hm : rest.at0 ≠ 42) (hd : rest.at0 ≠ 47) :
      Reads .term s t rest
  | divZero (hl : Reads .termLoop s l (47 :: s')) (hr : Reads .factor s' r rest)
      (h0 : r.value = some 0) : Reads .term s (.div l r) rest
  | firstTerm (h : Reads .term s t rest) : Reads .evalLoop s t (skipSpaces rest)
  | add (hl : Reads .evalLoop s l (43 :: s')) (hr : Reads .term s' r rest) :
      Reads .evalLoop s (.add l r) (skipSpaces rest)
  | sub (hl : Reads .evalLoop s l (45 :: s')) (hr : Reads .term s' r rest) :
      Reads .evalLoop s (.sub l r) (skipSpaces rest)
  | eval (h : Reads .evalLoop s t rest) (ha : rest.at0 ≠ 43) (hs : rest.at0 ≠ 45) :
      Reads .eval s t rest

theorem length_of_skipSpaces (h : skipSpaces s = c :: s') : s'.length < s.length := by
  have hle := length_skipSpaces_le s
  rw [h] at hle
  exact hle

theorem Reads.length_le (h : Reads phase s t rest) : rest.length ≤ s.length := by
  have hskip := length_skipSpaces_le
  -- behind an operator there is less to read
  have hoperand {c : UInt8} {s s' rest : CString} (hl : (c :: s').length ≤ s.length)
      (hr : rest.length ≤ s'.length) : rest.length ≤ s.length :=
    Nat.le_trans hr (Nat.le_trans (Nat.le_succ _) hl)
  induction h with
  | num h => exact Nat.le_trans (scanNumber_suffix _).length_le (hskip _)
  | closed ho _ hc ih =>
    have ho := length_of_skipSpaces ho
    have hc := length_of_skipSpaces hc
    omega
  | unclosed ho _ _ ih =>
    have ho := length_of_skipSpaces ho
    exact Nat.le_trans (hskip _) (by omega)
  | firstFactor _ ih => exact Nat.le_trans (hskip _) ih
  | mul _ _ ihl ihr => exact Nat.le_trans (hskip _) (hoperand ihl ihr)
  | div _ _ _ ihl ihr => exact Nat.le_trans (hskip _) (hoperand ihl ihr)
  | term _ _ _ ih => exact ih
  | divZero _ _ _ ihl ihr => exact hoperand ihl ihr
  | firstTerm _ ih => exact Nat.le_trans (hskip _) ih
  | add _ _ ihl ihr => exact Nat.le_trans (hskip _) (hoperand ihl ihr)
  | sub _ _ ihl ihr => exact Nat.le_trans (hskip _) (hoperand ihl ihr)
  | eval _ _ _ ih => exact ih

namespace ExprT

/-- The evaluation of a part of the text comes to the rest with the value and the flag of the tree.
Inside a loop it goes on from there. -/
def Runs (depth : Nat) (e : Nat) (v : Int32) (s : CString) (t : Tree) (rest : CString) :
    Phase → Prop
  | .factor => factor (evalAt depth) ⟨s, e⟩ = .ok (v, ⟨rest, t.err e⟩)
  | .termLoop => ∃ rounds, rest.length < rounds ∧
      term (evalAt depth) ⟨s, e⟩ = termLoop (evalAt depth) rounds v ⟨rest, t.err e⟩
  | .term => term (evalAt depth) ⟨s, e⟩ = .ok (v, ⟨rest, t.err e⟩)
  | .evalLoop => ∃ rounds, rest.length < rounds ∧
      evalBody (evalAt depth) ⟨s, e⟩ = evalLoop (evalAt depth) rounds v ⟨rest, t.err e⟩
  | .eval => evalBody (evalAt depth) ⟨s, e⟩ = .ok (v, ⟨rest, t.err e⟩)

theorem termLoop_mul (hr : factor ev ⟨s', e⟩ = .ok (b, ⟨rest, e'⟩)) :
    termLoop ev (rounds + 1) a ⟨42 :: s', e⟩ =
      termLoop ev rounds (a * b) ⟨skipSpaces rest, e'⟩ := by
  have hat : (⟨42 :: s', e⟩ : ExprT).exp.at0 = 42 := rfl
  have hadvance : (⟨42 :: s', e⟩ : ExprT).advance = ⟨s', e⟩ := rfl
  rw [termLoop, if_pos hat, hadvance, hr]
  rfl

theorem termLoop_div (hr : factor ev ⟨s', e⟩ = .ok (b, ⟨rest, e'⟩)) (hb : b ≠ 0) :
    termLoop ev (rounds + 1) a ⟨47 :: s', e⟩ =
      (do
        let res ← divide a b
        termLoop ev rounds res ⟨skipSpaces rest, e'⟩) := by
  have hat : (⟨47 :: s', e⟩ : ExprT).exp.at0 = 47 := rfl
  have hadvance : (⟨47 :: s', e⟩ : ExprT).advance = ⟨s', e⟩ := rfl
  rw [termLoop, if_neg (by rw [hat]; decide), if_pos hat, hadvance, hr, ok_bind]
  exact if_neg hb

theorem termLoop_divZero (hr : factor ev ⟨s', e⟩ = .ok (0, ⟨rest, e'⟩)) :
    termLoop ev (rounds + 1) a ⟨47 :: s', e⟩ = .ok (0, ⟨rest, errDivisionByZero⟩) := by
  have hat : (⟨47 :: s', e⟩ : ExprT).exp.at0 = 47 := rfl
  have hadvance : (⟨47 :: s', e⟩ : ExprT).advance = ⟨s', e⟩ := rfl
  rw [termLoop, if_neg (by rw [hat]; decide), if_pos hat, hadvance, hr]
  rfl

theorem termLoop_end (hm : CString.at0 rest ≠ 42) (hd : CString.at0 rest ≠ 47) :
    termLoop ev (rounds + 1) a ⟨rest, e⟩ = .ok (a, ⟨rest, e⟩) := by
  rw [termLoop, if_neg hm, if_neg hd]
  rfl

theorem evalLoop_add (hr : term ev ⟨s', e⟩ = .ok (b, ⟨rest, e'⟩)) :
    evalLoop ev (rounds + 1) a ⟨43 :: s', e⟩ =
      evalLoop ev rounds (a + b) ⟨skipSpaces rest, e'⟩ := by
  have hat : (⟨43 :: s', e⟩ : ExprT).exp.at0 = 43 := rfl
  have hadvance : (⟨43 :: s', e⟩ : ExprT).advance = ⟨s', e⟩ := rfl
  rw [evalLoop, if_pos hat, hadvance, hr]
  rfl

theorem evalLoop_sub (hr : term ev ⟨s', e⟩ = .ok (b, ⟨rest, e'⟩)) :
    evalLoop ev (rounds + 1) a ⟨45 :: s', e⟩ =
      evalLoop ev rounds (a - b) ⟨skipSpaces rest, e'⟩ := by
  have hat : (⟨45 :: s', e⟩ : ExprT).exp.at0 = 45 := rfl
  have hadvance : (⟨45 :: s', e⟩ : ExprT).advance = ⟨s', e⟩ := rfl
  rw [evalLoop, if_neg (by rw [hat]; decide), if_pos hat, hadvance, hr]
  rfl

theorem evalLoop_end (ha : CString.at0 rest ≠ 43) (hs : CString.at0 rest ≠ 45) :
    evalLoop ev (rounds + 1) a ⟨rest, e⟩ = .ok (a, ⟨rest, e⟩) := by
  rw [evalLoop, if_neg ha, if_neg hs]
  rfl

theorem factor_paren (ho : skipSpaces s = 40 :: s') (h : ev ⟨s', e⟩ = .ok (v, ⟨rest, e'⟩)) :
    factor ev ⟨s, e⟩ =
      if CString.at0 (skipSpaces rest) = 41 then .ok (v, ⟨(skipSpaces rest).tail, e'⟩)
      else .ok (v, ⟨skipSpaces rest, errSyntax⟩) := by
  have hskip : (⟨s, e⟩ : ExprT).skip = ⟨40 :: s', e⟩ := congrArg (ExprT.mk · e) ho
  have hat : (⟨40 :: s', e⟩ : ExprT).exp.at0 = 40 := rfl
  have hadvance : (⟨40 :: s', e⟩ : ExprT).advance = ⟨s', e⟩ := rfl
  rw [factor, hskip]
  dsimp only
  rw [if_pos hat, hadvance, h]
  rfl

theorem factor_number (h : (skipSpaces s).at0 ≠ 40) : factor ev ⟨s, e⟩ =
    .ok ((scanNumber (skipSpaces s)).1.value, ⟨(scanNumber (skipSpaces s)).2, e⟩) := by
  have hskip : (⟨s, e⟩ : ExprT).skip = ⟨skipSpaces s, e⟩ := rfl
  rw [factor, hskip]
  dsimp only
  rw [if_neg h]
  rfl

theorem term_eq (h : factor ev ⟨s, e⟩ = .ok (v, ⟨rest, e'⟩)) : term ev ⟨s, e⟩ =
    termLoop ev ((skipSpaces rest).length + 1) v ⟨skipSpaces rest, e'⟩ := by
  rw [term, h]
  rfl

theorem evalBody_eq (h : term ev ⟨s, e⟩ = .ok (v, ⟨rest, e'⟩)) : evalBody ev ⟨s, e⟩ =
    evalLoop ev ((skipSpaces rest).length + 1) v ⟨skipSpaces rest, e'⟩ := by
  rw [evalBody, h]
  rfl

end ExprT

open ExprT

theorem evalAt_of_runs (ho : skipSpaces s = 40 :: s') (hd : s.length ≤ depth)
    (h : ∀ d, s'.length ≤ d → Runs d e v s' t rest .eval) :
    evalAt depth ⟨s', e⟩ = .ok (v, ⟨rest, t.err e⟩) := by
  have hlt := length_of_skipSpaces ho
  cases depth with
  | zero => exact absurd (Nat.lt_of_lt_of_le hlt hd) (Nat.not_lt_zero _)
  | succ depth => exact h depth (Nat.le_of_lt_succ (Nat.lt_of_lt_of_le hlt hd))

theorem rounds_succ {f : Nat → β} (h : ∃ rounds, n < rounds ∧ x = f rounds) :
    ∃ rounds, n ≤ rounds ∧ x = f (rounds + 1) := by
  obtain ⟨rounds, hlt, hx⟩ := h
  cases rounds with
  | zero => exact absurd hlt (Nat.not_lt_zero _)
  | succ rounds => exact ⟨rounds, Nat.le_of_lt_succ hlt, hx⟩

theorem Reads.rounds_lt (hr : Reads phase s' r rest) (hle : (c :: s').length ≤ rounds) :
    (skipSpaces rest).length < rounds :=
  Nat.lt_of_le_of_lt (Nat.le_trans (length_skipSpaces_le _) hr.length_le) hle

theorem Reads.operand_le (hl : Reads phase s l (c :: s')) (hd : s.length ≤ depth) :
    s'.length ≤ depth := Nat.le_trans (Nat.le_succ _) (Nat.le_trans hl.length_le hd)

/-- What is read is evaluated so. -/
theorem Reads.runs (h : Reads phase s t rest) (hd : s.length ≤ depth) (hv : t.value = some v) :
    Runs depth e v s t rest phase := by
  induction h generalizing depth e v with
  | num h =>
    cases hv
    exact factor_number h
  | closed ho h hc ih =>
    have heval := evalAt_of_runs (e := e) ho hd fun d hd' => ih hd' hv
    have hclose := factor_paren ho heval
    rw [hc, if_pos (by rfl)] at hclose
    exact hclose
  | unclosed ho h hc ih =>
    have heval := evalAt_of_runs (e := e) ho hd fun d hd' => ih hd' hv
    have hopen := factor_paren ho heval
    rw [if_neg hc] at hopen
    exact hopen
  | firstFactor h ih => exact ⟨_, Nat.lt_succ_self _, term_eq (ih hd hv)⟩
  | mul hl hr ihl ihr =>
    obtain ⟨a, b, ha, hb, rfl⟩ := Tree.value_mul hv
    obtain ⟨rounds, hle, hterm⟩ := rounds_succ (ihl (e := e) hd ha)
    exact ⟨rounds, hr.rounds_lt hle, hterm.trans (termLoop_mul (ihr (hl.operand_le hd) hb))⟩
  | div hl hr h0 ihl ihr =>
    obtain ⟨a, b, ha, hb, hdiv⟩ := Tree.value_div hv
    have hb0 : b ≠ 0 := fun h => h0 (h ▸ hb)
    obtain ⟨rounds, hle, hterm⟩ := rounds_succ (ihl (e := e) hd ha)
    refine ⟨rounds, hr.rounds_lt hle, hterm.trans ?_⟩
    have hok : divide a b = .ok v := by
      rw [if_neg hb0] at hdiv
      cases hq : divide a b with
      | ok q =>
        rw [hq] at hdiv
        exact congrArg Except.ok (Option.some.inj hdiv)
      | error fault =>
        rw [hq] at hdiv
        cases hdiv
    rw [termLoop_div (ihr (hl.operand_le hd) hb) hb0, hok, ok_bind, Tree.err, if_neg h0]
  | term h hm hd' ih =>
    obtain ⟨rounds, -, hterm⟩ := rounds_succ (ih (e := e) hd hv)
    exact hterm.trans (termLoop_end hm hd')
  | divZero hl hr h0 ihl ihr =>
    obtain ⟨a, b, ha, hb, hdiv⟩ := Tree.value_div hv
    have hb0 : b = 0 := Option.some.inj (hb.symm.trans h0)
    subst hb0
    cases hdiv
    obtain ⟨rounds, -, hterm⟩ := rounds_succ (ihl (e := e) hd ha)
    refine hterm.trans ((termLoop_divZero (ihr (hl.operand_le hd) hb)).trans ?_)
    rw [Tree.err, if_pos h0]
  | firstTerm h ih => exact ⟨_, Nat.lt_succ_self _, evalBody_eq (ih hd hv)⟩
  | add hl hr ihl ihr =>
    obtain ⟨a, b, ha, hb, rfl⟩ := Tree.value_add hv
    obtain ⟨rounds, hle, heval⟩ := rounds_succ (ihl (e := e) hd ha)
    exact ⟨rounds, hr.rounds_lt hle, heval.trans (evalLoop_add (ihr (hl.operand_le hd) hb))⟩
  | sub hl hr ihl ihr =>
    obtain ⟨a, b, ha, hb, rfl⟩ := Tree.value_sub hv
    obtain ⟨rounds, hle, heval⟩ := rounds_succ (ihl (e := e) hd ha)
    exact ⟨rounds, hr.rounds_lt hle, heval.trans (evalLoop_sub (ihr (hl.operand_le hd) hb))⟩
  | eval h ha hs ih =>
    obtain ⟨rounds, -, heval⟩ := rounds_succ (ih (e := e) hd hv)
    exact heval.trans (evalLoop_end ha hs)

/-- The evaluation from `e` to `e'` is that of a tree that is read there. -/
def Explains (phase : Phase) (e : ExprT) (v : Int32) (e' : ExprT) : Prop :=
  ∃ t : Tree, Reads phase e.exp t e'.exp ∧ t.value = some v ∧ e'.err = t.err e.err

theorem divide_toOption (h : divide a b = .ok q) : (divide a b).toOption = some q := by
  rw [h]
  rfl

namespace Explains

theorem mul (hl : Explains .termLoop e a e₁) (hop : e₁.exp.at0 = 42)
    (hr : Explains .factor e₁.advance b e₂) : Explains .termLoop e (a * b) e₂.skip := by
  obtain ⟨l, hreads, hvalue, herr⟩ := hl
  obtain ⟨r, hreads', hvalue', herr'⟩ := hr
  rw [CString.eq_cons_of_at0 hop (by decide)] at hreads
  refine ⟨.mul l r, .mul hreads hreads', ?_, ?_⟩
  · rw [Tree.value, hvalue, hvalue']
    rfl
  · rw [Tree.err, ← herr]
    exact herr'

theorem div (hl : Explains .termLoop e a e₁) (hop : e₁.exp.at0 = 47)
    (hr : Explains .factor e₁.advance b e₂) (hb : b ≠ 0) (hq : divide a b = .ok q) :
    Explains .termLoop e q e₂.skip := by
  obtain ⟨l, hreads, hvalue, herr⟩ := hl
  obtain ⟨r, hreads', hvalue', herr'⟩ := hr
  have hne : r.value ≠ some 0 := fun h => hb (Option.some.inj (hvalue'.symm.trans h))
  rw [CString.eq_cons_of_at0 hop (by decide)] at hreads
  refine ⟨.div l r, .div hreads hreads' hne, ?_, ?_⟩
  · rw [Tree.value, hvalue, hvalue']
    exact (if_neg hb).trans (divide_toOption hq)
  · rw [Tree.err, if_neg hne, ← herr]
    exact herr'

theorem divZero (hl : Explains .termLoop e a e₁) (hop : e₁.exp.at0 = 47)
    (hr : Explains .factor e₁.advance 0 e₂) :
    Explains .term e 0 { e₂ with err := errDivisionByZero } := by
  obtain ⟨l, hreads, hvalue, -⟩ := hl
  obtain ⟨r, hreads', hvalue', -⟩ := hr
  rw [CString.eq_cons_of_at0 hop (by decide)] at hreads
  refine ⟨.div l r, .divZero hreads hreads' hvalue', ?_, ?_⟩
  · rw [Tree.value, hvalue, hvalue']
    rfl
  · rw [Tree.err, if_pos hvalue']

theorem add (hl : Explains .evalLoop e a e₁) (hop : e₁.exp.at0 = 43)
    (hr : Explains .term e₁.advance b e₂) : Explains .evalLoop e (a + b) e₂.skip := by
  obtain ⟨l, hreads, hvalue, herr⟩ := hl
  obtain ⟨r, hreads', hvalue', herr'⟩ := hr
  rw [CString.eq_cons_of_at0 hop (by decide)] at hreads
  refine ⟨.add l r, .add hreads hreads', ?_, ?_⟩
  · rw [Tree.value, hvalue, hvalue']
    rfl
  · rw [Tree.err, ← herr]
    exact herr'

theorem sub (hl : Explains .evalLoop e a e₁) (hop : e₁.exp.at0 = 45)
    (hr : Explains .term e₁.advance b e₂) : Explains .evalLoop e (a - b) e₂.skip := by
  obtain ⟨l, hreads, hvalue, herr⟩ := hl
  obtain ⟨r, hreads', hvalue', herr'⟩ := hr
  rw [CString.eq_cons_of_at0 hop (by decide)] at hreads
  refine ⟨.sub l r, .sub hreads hreads', ?_, ?_⟩
  · rw [Tree.value, hvalue, hvalue']
    rfl
  · rw [Tree.err, ← herr]
    exact herr'

end Explains

section
variable {ev : ExprT → Result (Int32 × ExprT)}
  (hev : ∀ e v e', ev e = .ok (v, e') → Explains .eval e v e')
include hev

theorem factor_explains (h : factor ev e = .ok (v, e')) : Explains .factor e v e' := by
  rw [factor] at h
  dsimp only at h
  split at h
  · rename_i hopen
    have ho := CString.eq_cons_of_at0 hopen (by decide)
    obtain ⟨⟨v₁, e₁⟩, h₁, h⟩ := of_bind_eq_ok h
    obtain ⟨t, hreads, hvalue, herr⟩ := hev _ _ _ h₁
    dsimp only at h
    split at h
    · rename_i hclose
      cases h
      exact ⟨.closed t, .closed ho hreads (CString.eq_cons_of_at0 hclose (by decide)), hvalue, herr⟩
    · rename_i hclose
      cases h
      exact ⟨.unclosed t, .unclosed ho hreads hclose, hvalue, rfl⟩
  · rename_i hopen
    cases h
    exact ⟨.num _, .num hopen, rfl, rfl⟩

theorem termLoop_explains (hl : Explains .termLoop e res e₁)
    (h : termLoop ev rounds res e₁ = .ok (v, e')) : Explains .term e v e' := by
  induction rounds generalizing res e₁ with
  | zero => cases h
  | succ rounds ih =>
    rw [termLoop] at h
    split at h
    · rename_i hmul
      obtain ⟨⟨num, e₂⟩, h₂, h⟩ := of_bind_eq_ok h
      exact ih (hl.mul hmul (factor_explains hev h₂)) h
    · split at h
      · rename_i hdiv
        obtain ⟨⟨num, e₂⟩, h₂, h⟩ := of_bind_eq_ok h
        have hr := factor_explains hev h₂
        dsimp only at h
        split at h
        · rename_i hzero
          subst hzero
          cases h
          exact hl.divZero hdiv hr
        · rename_i hzero
          obtain ⟨q, hq, h⟩ := of_bind_eq_ok h
          exact ih (hl.div hdiv hr hzero hq) h
      · rename_i hmul hdiv
        obtain ⟨l, hreads, hvalue, herr⟩ := hl
        cases h
        exact ⟨l, .term hreads hmul hdiv, hvalue, herr⟩

theorem term_explains (h : term ev e = .ok (v, e')) : Explains .term e v e' := by
  obtain ⟨⟨res, e₁⟩, h₁, h⟩ := of_bind_eq_ok h
  obtain ⟨t, hreads, hvalue, herr⟩ := factor_explains hev h₁
  have hl : Explains .termLoop e res e₁.skip := ⟨t, .firstFactor hreads, hvalue, herr⟩
  exact termLoop_explains hev hl h

theorem evalLoop_explains (hl : Explains .evalLoop e res e₁)
    (h : evalLoop ev rounds res e₁ = .ok (v, e')) : Explains .eval e v e' := by
  induction rounds generalizing res e₁ with
  | zero => cases h
  | succ rounds ih =>
    rw [evalLoop] at h
    split at h
    · rename_i hadd
      obtain ⟨⟨num, e₂⟩, h₂, h⟩ := of_bind_eq_ok h
      exact ih (hl.add hadd (term_explains hev h₂)) h
    · split at h
      · rename_i hsub
        obtain ⟨⟨num, e₂⟩, h₂, h⟩ := of_bind_eq_ok h
        exact ih (hl.sub hsub (term_explains hev h₂)) h
      · rename_i hadd hsub
        obtain ⟨l, hreads, hvalue, herr⟩ := hl
        cases h
        exact ⟨l, .eval hreads hadd hsub, hvalue, herr⟩

theorem evalBody_explains (h : evalBody ev e = .ok (v, e')) : Explains .eval e v e' := by
  obtain ⟨⟨res, e₁⟩, h₁, h⟩ := of_bind_eq_ok h
  obtain ⟨t, hreads, hvalue, herr⟩ := term_explains hev h₁
  have hl : Explains .evalLoop e res e₁.skip := ⟨t, .firstTerm hreads, hvalue, herr⟩
  exact evalLoop_explains hev hl h

end

theorem evalAt_explains (h : evalAt depth e = .ok (v, e')) : Explains .eval e v e' := by
  induction depth generalizing e v e' with
  | zero => cases h
  | succ depth ih => exact evalBody_explains (fun _ _ _ => ih) h

theorem ExprT.eval_eq_ok_iff (e : ExprT) (v : Int32) (e' : ExprT) :
    e.eval = .ok (v, e') ↔ Explains .eval e v e' := by
  refine ⟨evalAt_explains, ?_⟩
  rintro ⟨t, hreads, hvalue, herr⟩
  have hrun : evalBody (evalAt e.exp.length) ⟨e.exp, e.err⟩ = .ok (v, ⟨e'.exp, t.err e.err⟩) :=
    hreads.runs (Nat.le_refl _) hvalue
  rw [← herr] at hrun
  exact hrun

end BiosKernel
