import BiosKernel.Shell.Traps

namespace BiosKernel
open Checked
set_option autoImplicit true

inductive Mishap where
  | divisionByZero
  | leftOpen
  deriving DecidableEq

/-- What is stored for it in `expr->err`. -/
def Mishap.err : Mishap → Nat
  | divisionByZero => errDivisionByZero
  | leftOpen => errSyntax

/-- The divisions by zero, and the parentheses that are left before they are closed, in the order in
which they are met. -/
def Tree.mishaps : Tree → List Mishap
  | num _ => []
  | closed t => t.mishaps
  | unclosed t => t.mishaps ++ [.leftOpen]
  | mul l r => l.mishaps ++ r.mishaps
  | div l r => l.mishaps ++ (r.mishaps ++ if r.value = some 0 then [.divisionByZero] else [])
  | add l r => l.mishaps ++ r.mishaps
  | sub l r => l.mishaps ++ r.mishaps

/-- The flag behind the mishaps: each one overwrites it. -/
def lastErr (ms : List Mishap) (e : Nat) : Nat := ms.foldl (fun _ m => m.err) e

theorem lastErr_append (ms ms' : List Mishap) (e : Nat) :
    lastErr (ms ++ ms') e = lastErr ms' (lastErr ms e) := List.foldl_append

theorem Mishap.err_ne (m : Mishap) : m.err ≠ errNone := by
  cases m <;> decide

theorem lastErr_ne (h : e ≠ errNone) (ms : List Mishap) : lastErr ms e ≠ errNone := by
  induction ms generalizing e with
  | nil => exact h
  | cons m ms ih => exact ih m.err_ne

theorem Tree.err_eq (t : Tree) (e : Nat) : t.err e = lastErr t.mishaps e := by
  induction t generalizing e with
  | num l => rfl
  | closed t ih => exact ih e
  | unclosed t ih => exact (lastErr_append _ [.leftOpen] e).symm
  | mul l r ihl ihr => rw [err, mishaps, lastErr_append, ihl, ihr]
  | div l r ihl ihr =>
    rw [err, mishaps, lastErr_append, lastErr_append, ihl, ihr]
    split
    · rfl
    · rfl
  | add l r ihl ihr => rw [err, mishaps, lastErr_append, ihl, ihr]
  | sub l r ihl ihr => rw [err, mishaps, lastErr_append, ihl, ihr]

theorem Explains.err_ne (h : Explains phase e v e') (he : e.err ≠ errNone) : e'.err ≠ errNone := by
  obtain ⟨t, -, -, herr⟩ := h
  rw [herr, t.err_eq]
  exact lastErr_ne he _

/-- If the evaluation comes back, it has noted an error. -/
def Noted (r : Result (Int32 × ExprT)) : Prop := ∀ v e, r = .ok (v, e) → e.err ≠ errNone

theorem Noted.of_ok (h : e.err ≠ errNone) : Noted (.ok (v, e)) := by
  intro v' e' heq
  cases heq
  exact h

theorem Noted.of_error : Noted (.error fault) := by
  intro v e h
  cases h

theorem Noted.bind (h : Noted r) (hf : ∀ v e, e.err ≠ errNone → Noted (f (v, e))) :
    Noted (r >>= f) := by
  cases r with
  | ok x => exact hf x.1 x.2 (h x.1 x.2 rfl)
  | error fault => exact .of_error

namespace ExprT

variable {depth : Nat} {e : ExprT}

theorem factor_noted (he : e.err ≠ errNone) : Noted (factor (evalAt depth) e) :=
  fun _ _ h => (factor_explains (fun _ _ _ => evalAt_explains) h).err_ne he

theorem term_noted (he : e.err ≠ errNone) : Noted (term (evalAt depth) e) :=
  fun _ _ h => (term_explains (fun _ _ _ => evalAt_explains) h).err_ne he

theorem quotient_noted {rounds : Nat} {res num : Int32}
    (hagain : ∀ res, Noted (termLoop (evalAt depth) rounds res e.skip)) :
    Noted (if num = 0 then .ok (0, { e with err := errDivisionByZero })
      else do
        let res ← divide res num
        termLoop (evalAt depth) rounds res e.skip) := by
  split
  · exact .of_ok Mishap.divisionByZero.err_ne
  · cases divide res num with
    | ok q => exact hagain q
    | error fault => exact .of_error

theorem termLoop_noted {rounds : Nat} {res : Int32} (he : e.err ≠ errNone) :
    Noted (termLoop (evalAt depth) rounds res e) := by
  induction rounds generalizing res e with
  | zero => exact .of_error
  | succ rounds ih =>
    have hfactor : Noted (factor (evalAt depth) e.advance) := factor_noted he
    rw [termLoop]
    split
    · exact hfactor.bind fun num e' he' => ih he'
    · split
      · exact hfactor.bind fun num e' he' => quotient_noted fun res => ih he'
      · exact .of_ok he

theorem evalLoop_noted {rounds : Nat} {res : Int32} (he : e.err ≠ errNone) :
    Noted (evalLoop (evalAt depth) rounds res e) := by
  induction rounds generalizing res e with
  | zero => exact .of_error
  | succ rounds ih =>
    have hterm : Noted (term (evalAt depth) e.advance) := term_noted he
    rw [evalLoop]
    split
    · exact hterm.bind fun num e' he' => ih he'
    · split
      · exact hterm.bind fun num e' he' => ih he'
      · exact .of_ok he

/-- What evaluates a text of the level. -/
def atLevel (depth : Nat) : Level → ExprT → Result (Int32 × ExprT)
  | .factor => factor (evalAt depth)
  | .term => term (evalAt depth)
  | .expr => evalBody (evalAt depth)

theorem factor_paren_noted {s s' : CString} (ho : skipSpaces s = 40 :: s')
    (h : ∀ v e, evalAt depth ⟨s', errNone⟩ = .ok (v, e) → e.err ≠ errNone ∨ e.skip.exp.at0 ≠ 41) :
    Noted (factor (evalAt depth) ⟨s, errNone⟩) := by
  have hskip : (⟨s, errNone⟩ : ExprT).skip = ⟨40 :: s', errNone⟩ := congrArg (ExprT.mk · errNone) ho
  have hadvance : (⟨40 :: s', errNone⟩ : ExprT).advance = ⟨s', errNone⟩ := rfl
  rw [factor, hskip]
  dsimp only
  rw [if_pos (by rfl), hadvance]
  cases heval : evalAt depth ⟨s', errNone⟩ with
  | error fault => exact .of_error
  | ok x =>
    rw [ok_bind]
    split
    · rename_i hclose
      exact .of_ok ((h x.1 x.2 heval).resolve_right fun hne => hne hclose)
    · exact .of_ok Mishap.leftOpen.err_ne

end ExprT

open ExprT

theorem Op.defined_of_level {op : Op} (h : op.level = .expr) (a b : Int32) : op.Defined a b := by
  rintro rfl
  cases h

theorem termLoop_symbol_noted {op : Op} {s : CString} (hop : op.level = .term)
    (h : Noted (factor (evalAt depth) ⟨s, errNone⟩)) :
    Noted (termLoop (evalAt depth) (rounds + 1) a ⟨op.symbol :: s, errNone⟩) := by
  cases op with
  | add => cases hop
  | sub => cases hop
  | mul => exact h.bind fun num e he => termLoop_noted he
  | div => exact h.bind fun num e he => quotient_noted fun res => termLoop_noted he

theorem evalLoop_symbol_noted {op : Op} {s : CString} (hop : op.level = .expr)
    (h : Noted (term (evalAt depth) ⟨s, errNone⟩)) :
    Noted (evalLoop (evalAt depth) (rounds + 1) a ⟨op.symbol :: s, errNone⟩) := by
  cases op with
  | add => exact h.bind fun num e he => evalLoop_noted he
  | sub => exact h.bind fun num e he => evalLoop_noted he
  | mul => cases hop
  | div => cases hop

theorem termLoop_undefined_noted {op : Op} {s : CString} (hd : ¬op.Defined a b)
    (h : factor (evalAt depth) ⟨s, errNone⟩ = .ok (b, ⟨rest, errNone⟩)) :
    Noted (termLoop (evalAt depth) (rounds + 1) a ⟨op.symbol :: s, errNone⟩) := by
  simp only [Op.Defined, Classical.not_imp] at hd
  obtain ⟨rfl, hd⟩ := hd
  by_cases hb : b = 0
  · subst hb
    exact (termLoop_divZero h).symm ▸ .of_ok Mishap.divisionByZero.err_ne
  · have htrap : a = Int32.minValue ∧ b = -1 := Classical.not_not.mp fun h => hd ⟨hb, h⟩
    have hdiv : divide a b = .error .divideError := if_pos (.inr htrap)
    rw [show Op.div.symbol = 47 from rfl, termLoop_div h hb, hdiv]
    exact .of_error

/-- Where an expression is not defined, its evaluation traps or notes an error. -/
theorem Renders.noted (h : Renders level e s) (hd : ¬e.Defined) (hf : level.Follows rest)
    (n : Nat) (hdepth : (spaces n ++ (s ++ rest)).length ≤ depth) :
    Noted (atLevel depth level ⟨spaces n ++ (s ++ rest), errNone⟩) := by
  induction h generalizing rest n depth with
  | num => exact absurd trivial hd
  | @paren e s i j h ih =>
    have hopen := skipSpaces_paren n i j s rest
    have hlt := length_of_skipSpaces hopen
    cases depth with
    | zero => exact absurd (Nat.lt_of_lt_of_le hlt hdepth) (Nat.not_lt_zero _)
    | succ depth =>
      refine factor_paren_noted hopen fun v e heval => .inl ?_
      exact ih hd (Level.follows_close j rest) i (by omega) v e heval
  | factor h ih => exact (ih hd hf n hdepth).bind fun v e he => termLoop_noted he
  | @product l s r s' op i j hop hl hr ihl ihr =>
    simp only [List.append_assoc, List.cons_append] at hdepth ⊢
    have hfollow := (op.numberEnds (spaces j ++ (s' ++ rest))).spaces i
    by_cases hdl : l.Defined
    · obtain ⟨tl, hreadsl, hdenl⟩ := hl.reads hdl hfollow n
      rw [Level.ReadsTo, op.skip_symbol] at hreadsl
      obtain ⟨rounds, -, hterm⟩ := rounds_succ (hreadsl.runs (e := errNone) hdepth hdenl.value)
      rw [hdenl.err] at hterm
      rw [atLevel, hterm]
      by_cases hdr : r.Defined
      · obtain ⟨tr, hreadsr, hdenr⟩ := hr.reads hdr hf j
        have hfactor := hreadsr.runs (e := errNone) (hreadsl.operand_le hdepth) hdenr.value
        rw [Runs, hdenr.err] at hfactor
        exact termLoop_undefined_noted (fun hop => hd ⟨hdl, hdr, hop⟩) hfactor
      · exact termLoop_symbol_noted hop (ihr hdr hf j (hreadsl.operand_le hdepth))
    · exact ihl hdl hfollow n hdepth
  | term h ih => exact (ih hd hf.1 n hdepth).bind fun v e he => evalLoop_noted he
  | @sum l s r s' op i j hop hl hr ihl ihr =>
    simp only [List.append_assoc, List.cons_append] at hdepth ⊢
    have hfollow := Level.follows_symbol hop i (spaces j ++ (s' ++ rest))
    by_cases hdl : l.Defined
    · obtain ⟨tl, hreadsl, hdenl⟩ := hl.reads hdl hfollow n
      rw [Level.ReadsTo, op.skip_symbol] at hreadsl
      obtain ⟨rounds, -, heval⟩ := rounds_succ (hreadsl.runs (e := errNone) hdepth hdenl.value)
      rw [hdenl.err] at heval
      have hdr : ¬r.Defined := fun hdr => hd ⟨hdl, hdr, Op.defined_of_level hop _ _⟩
      rw [atLevel, heval]
      exact evalLoop_symbol_noted hop (ihr hdr hf.1 j (hreadsl.operand_le hdepth))
    · exact ihl hdl hfollow n hdepth

/-- Some division has the divisor zero. Where its operands have none, they are worth what `value`
says. -/
def Expr.DividesByZero : Expr → Prop
  | num _ => False
  | bin op l r => l.DividesByZero ∨ r.DividesByZero ∨ op = .div ∧ r.value = 0

theorem Expr.DividesByZero.not_defined {e : Expr} (h : e.DividesByZero) : ¬e.Defined := by
  induction e with
  | num n => exact h.elim
  | bin op l r ihl ihr =>
    rintro ⟨hl, hr, hop⟩
    rcases h with h | h | ⟨rfl, h0⟩
    · exact ihl h hl
    · exact ihr h hr
    · exact (hop rfl).1 h0

theorem Expr.DividesByZero.noted {e : Expr} (hd : e.DividesByZero) (h : Renders .expr e s)
    (i j : Nat) : Noted (bcEval (spaces i ++ (s ++ spaces j))) :=
  h.noted hd.not_defined (Level.follows_spaces j) i (Nat.le_refl _)

theorem lastErr_eq {ms : List Mishap} (hne : lastErr ms errNone ≠ errNone)
    (h : ∀ m' ∈ ms, m' = m) : lastErr ms errNone = m.err := by
  induction ms using List.reverseRecOn with
  | nil => exact absurd rfl hne
  | append_singleton ms m' ih =>
    rw [lastErr_append, h m' (List.mem_append_right ms List.mem_cons_self)]
    rfl

end BiosKernel
