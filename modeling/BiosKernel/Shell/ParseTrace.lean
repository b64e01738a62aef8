import BiosKernel.Lib.Traced
import BiosKernel.Shell.Calculator

namespace BiosKernel
open Checked Traced
set_option autoImplicit true

/-- What the parser does with `expr->exp`: it sets it, or calls `eval` and comes back from there. -/
inductive CursorEvent where
  | move (exp : CString)
  | call (exp : CString)
  | ret

abbrev Parse := Traced CursorEvent Fault

namespace Parse

-- The functions of the calculator again, with their events.

/-- `expr->exp += n`. -/
def forward (n : Nat) (e : ExprT) : Parse ExprT := do
  let e := { e with exp := e.exp.drop n }
  emit (.move e.exp)
  return e

/-- A loop that goes on by a byte as long as `p` holds of it. -/
def whileLoop (p : UInt8 → Bool) (f : σ → UInt8 → σ) : σ → CString → Parse (σ × CString)
  | a, [] => return (a, [])
  | a, c :: s =>
    if p c then do
      emit (.move s)
      whileLoop p f (f a c) s
    else return (a, c :: s)

def skip (e : ExprT) : Parse ExprT := do
  let (_, exp) ← whileLoop (· = space) (fun a _ => a) () e.exp
  return { e with exp }

/-- `number` behind the sign. -/
def digits (neg : Bool) (e : ExprT) : Parse (Int32 × ExprT) :=
  if e.exp.at0 = 48 ∧ CString.at0 e.exp.tail = 120 then do
    let e ← forward 2 e
    let (n, exp) ← whileLoop isxdigit (fun n c => n * 16 + Literal.hexDigit c) 0 e.exp
    return (if neg then -n else n, { e with exp })
  else do
    let (n, exp) ← whileLoop isdigit (fun n c => n * 10 + Literal.digit c) 0 e.exp
    return (if neg then -n else n, { e with exp })

def number (e : ExprT) : Parse (Int32 × ExprT) :=
  if e.exp.at0 = 45 then do
    let e ← forward 1 e
    digits true e
  else digits false e

def factor (eval : ExprT → Parse (Int32 × ExprT)) (e : ExprT) : Parse (Int32 × ExprT) := do
  let e ← skip e
  if e.exp.at0 = 40 then
    let e ← forward 1 e
    let (result, e) ← eval e
    let e ← skip e
    if e.exp.at0 = 41 then
      let e ← forward 1 e
      return (result, e)
    else return (result, { e with err := errSyntax })
  else number e

def termLoop (eval : ExprT → Parse (Int32 × ExprT)) :
    Nat → Int32 → ExprT → Parse (Int32 × ExprT)
  | 0, _, _ => silent (.error .endless)
  | rounds + 1, res, e =>
    if e.exp.at0 = 42 then do
      let e ← forward 1 e
      let (num, e) ← factor eval e
      let e ← skip e
      termLoop eval rounds (res * num) e
    else if e.exp.at0 = 47 then do
      let e ← forward 1 e
      let (num, e) ← factor eval e
      if num = 0 then return (0, { e with err := errDivisionByZero })
      else
        let res ← silent (ExprT.divide res num)
        let e ← skip e
        termLoop eval rounds res e
    else return (res, e)

def term (eval : ExprT → Parse (Int32 × ExprT)) (e : ExprT) : Parse (Int32 × ExprT) := do
  let (res, e) ← factor eval e
  let e ← skip e
  termLoop eval (e.exp.length + 1) res e

def evalLoop (eval : ExprT → Parse (Int32 × ExprT)) :
    Nat → Int32 → ExprT → Parse (Int32 × ExprT)
  | 0, _, _ => silent (.error .endless)
  | rounds + 1, res, e =>
    if e.exp.at0 = 43 then do
      let e ← forward 1 e
      let (num, e) ← term eval e
      let e ← skip e
      evalLoop eval rounds (res + num) e
    else if e.exp.at0 = 45 then do
      let e ← forward 1 e
      let (num, e) ← term eval e
      let e ← skip e
      evalLoop eval rounds (res - num) e
    else return (res, e)

def evalBody (eval : ExprT → Parse (Int32 × ExprT)) (e : ExprT) : Parse (Int32 × ExprT) := do
  let (res, e) ← term eval e
  let e ← skip e
  evalLoop eval (e.exp.length + 1) res e

def evalAt : Nat → ExprT → Parse (Int32 × ExprT)
  | 0, _ => silent (.error .endless)
  | depth + 1, e => do
    emit (.call e.exp)
    let r ← evalBody (evalAt depth) e
    emit .ret
    return r

def eval (e : ExprT) : Parse (Int32 × ExprT) := evalAt (e.exp.length + 1) e

section Erasure

-- Without the events the functions are those of the calculator.

variable {ev : ExprT → Parse (Int32 × ExprT)} {ev' : ExprT → Result (Int32 × ExprT)}

@[simp] theorem forward_result (n : Nat) (e : ExprT) :
    (forward n e).result = .ok { e with exp := e.exp.drop n } := rfl

@[simp] theorem whileLoop_result (p : UInt8 → Bool) (f : σ → UInt8 → σ) (a : σ) (s : CString) :
    (whileLoop p f a s).result = .ok ((s.takeWhile p).foldl f a, s.dropWhile p) := by
  induction s generalizing a with
  | nil => rfl
  | cons c s ih =>
    rw [whileLoop]
    by_cases hc : p c = true
    · rw [if_pos hc, bind_result, emit_result, ok_bind, ih, List.takeWhile_cons_of_pos hc,
        List.dropWhile_cons_of_pos hc, List.foldl_cons]
    · rw [if_neg hc, pure_result, List.takeWhile_cons_of_neg hc, List.dropWhile_cons_of_neg hc,
        List.foldl_nil]

@[simp] theorem skip_result (e : ExprT) : (skip e).result = .ok e.skip := by
  rw [skip, bind_result, whileLoop_result]
  rfl

@[simp] theorem number_result (e : ExprT) : (number e).result = .ok e.number := by
  obtain ⟨s, err⟩ := e
  have hdigits (neg : Bool) (t : CString) : (digits neg ⟨t, err⟩).result =
      if t.at0 = 48 ∧ CString.at0 t.tail = 120 then
        .ok ((Literal.mk neg true (t.tail.tail.takeWhile isxdigit)).value,
          ⟨t.tail.tail.dropWhile isxdigit, err⟩)
      else .ok ((Literal.mk neg false (t.takeWhile isdigit)).value,
        ⟨t.dropWhile isdigit, err⟩) := by
    have htwo : t.drop 2 = t.tail.tail := by rw [← List.drop_one, ← List.drop_one, List.drop_drop]
    rw [digits]
    split
    · rw [bind_result, forward_result, ok_bind, bind_result, whileLoop_result, htwo]
      rfl
    · rw [bind_result, whileLoop_result]
      rfl
  rw [number, ExprT.number, scanNumber, afterSign]
  by_cases hneg : s.at0 = 45
  · simp only [hneg, if_true, decide_true, bind_result, forward_result, ok_bind, List.drop_one,
      hdigits]
    split <;> rfl
  · simp only [hneg, if_false, decide_false, hdigits]
    split <;> rfl

theorem factor_result (h : ∀ e, (ev e).result = ev' e) (e : ExprT) :
    (factor ev e).result = e.factor ev' := by
  rw [factor, bind_result, skip_result, ok_bind, ExprT.factor]
  dsimp only
  split
  · rw [bind_result, forward_result, ok_bind, bind_result, h, List.drop_one]
    apply bind_congr
    intro x
    rw [bind_result, skip_result, ok_bind]
    split
    · rw [bind_result, forward_result, ok_bind, List.drop_one]
      rfl
    · rfl
  · exact number_result _

theorem termLoop_result (h : ∀ e, (ev e).result = ev' e) (rounds : Nat) (res : Int32) (e : ExprT) :
    (termLoop ev rounds res e).result = ExprT.termLoop ev' rounds res e := by
  induction rounds generalizing res e with
  | zero => rfl
  | succ rounds ih =>
    rw [termLoop, ExprT.termLoop]
    split
    · rw [bind_result, forward_result, ok_bind, bind_result, factor_result h, List.drop_one]
      apply bind_congr
      intro x
      rw [bind_result, skip_result, ok_bind, ih]
    · split
      · rw [bind_result, forward_result, ok_bind, bind_result, factor_result h, List.drop_one]
        apply bind_congr
        intro x
        obtain ⟨num, e⟩ := x
        dsimp only
        split
        · rfl
        · rw [bind_result, silent_result]
          apply bind_congr
          intro res
          rw [bind_result, skip_result, ok_bind, ih]
      · rfl

theorem term_result (h : ∀ e, (ev e).result = ev' e) (e : ExprT) :
    (term ev e).result = e.term ev' := by
  rw [term, bind_result, factor_result h, ExprT.term]
  apply bind_congr
  intro x
  rw [bind_result, skip_result, ok_bind, termLoop_result h]

theorem evalLoop_result (h : ∀ e, (ev e).result = ev' e) (rounds : Nat) (res : Int32) (e : ExprT) :
    (evalLoop ev rounds res e).result = ExprT.evalLoop ev' rounds res e := by
  induction rounds generalizing res e with
  | zero => rfl
  | succ rounds ih =>
    have hnext (f : Int32 → Int32) :
        (forward 1 e >>= fun e => term ev e >>= fun x =>
          skip x.2 >>= fun e => evalLoop ev rounds (f x.1) e).result =
        e.advance.term ev' >>= fun x => ExprT.evalLoop ev' rounds (f x.1) x.2.skip := by
      rw [bind_result, forward_result, ok_bind, bind_result, term_result h, List.drop_one]
      apply bind_congr
      intro x
      rw [bind_result, skip_result, ok_bind, ih]
    rw [evalLoop, ExprT.evalLoop]
    split
    · exact hnext fun num => res + num
    · split
      · exact hnext fun num => res - num
      · rfl

theorem evalAt_result (depth : Nat) (e : ExprT) :
    (evalAt depth e).result = ExprT.evalAt depth e := by
  induction depth generalizing e with
  | zero => rfl
  | succ depth ih =>
    have hbody : (evalBody (evalAt depth) e).result = e.evalBody (ExprT.evalAt depth) := by
      rw [evalBody, bind_result, term_result ih, ExprT.evalBody]
      apply bind_congr
      intro x
      rw [bind_result, skip_result, ok_bind, evalLoop_result ih]
    rw [evalAt, bind_result, emit_result, ok_bind, bind_result, hbody, ExprT.evalAt]
    exact bind_pure _

/-- The events change nothing of what `eval` computes. -/
theorem eval_result (e : ExprT) : (eval e).result = e.eval := evalAt_result _ e

end Erasure

end Parse

end BiosKernel
