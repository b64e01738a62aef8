import BiosKernel.Lib.Checked
import BiosKernel.Libc.Convert

namespace BiosKernel
open Checked
set_option autoImplicit true

/-- The rest of the expression, and the error flag. -/
structure ExprT where
  exp : CString
  err : Nat

def errNone : Nat := 0

def errSyntax : Nat := 1

def errDivisionByZero : Nat := 2

/-- A number as it is read: its sign, whether it has the prefix of a hexadecimal one, and its
digits. -/
structure Literal where
  neg : Bool
  hex : Bool
  digits : CString
  deriving DecidableEq

namespace Literal

def digit (c : UInt8) : Int32 := Int32.ofNat c.toNat - 48

def hexDigit (c : UInt8) : Int32 :=
  if c ≤ 57 then digit c else Int32.ofNat (tolower c).toNat - 97 + 10

/-- The `int` that the loops of `number` compute. -/
def value (l : Literal) : Int32 :=
  let n := if l.hex then l.digits.foldl (fun n c => n * 16 + hexDigit c) 0
    else l.digits.foldl (fun n c => n * 10 + digit c) 0
  if l.neg then -n else n

end Literal

/-- What is behind the sign, if there is one. -/
def afterSign (s : CString) : CString := if s.at0 = 45 then s.tail else s

/-- What `number` passes over. -/
def scanNumber (s : CString) : Literal × CString :=
  let t := afterSign s
  if t.at0 = 48 ∧ CString.at0 t.tail = 120 then
    (⟨s.at0 = 45, true, t.tail.tail.takeWhile isxdigit⟩, t.tail.tail.dropWhile isxdigit)
  else (⟨s.at0 = 45, false, t.takeWhile isdigit⟩, t.dropWhile isdigit)

/-- The spaces at the beginning. -/
def skipSpaces (s : CString) : CString := s.dropWhile (· = space)

namespace ExprT

def number (e : ExprT) : Int32 × ExprT :=
  ((scanNumber e.exp).1.value, { e with exp := (scanNumber e.exp).2 })

def skip (e : ExprT) : ExprT := { e with exp := skipSpaces e.exp }

/-- `expr->exp++`. -/
def advance (e : ExprT) : ExprT := { e with exp := e.exp.tail }

/-- `factor`, with `eval` for what is in parentheses. -/
def factor (eval : ExprT → Result (Int32 × ExprT)) (e : ExprT) : Result (Int32 × ExprT) := do
  let e := e.skip
  if e.exp.at0 = 40 then
    let (result, e) ← eval e.advance
    let e := e.skip
    if e.exp.at0 = 41 then return (result, e.advance)
    else return (result, { e with err := errSyntax })
  else return e.number

/-- The division of the processor, which traps on a divisor of zero and on a quotient that is no
`int`. -/
def divide (res num : Int32) : Result Int32 :=
  if num = 0 ∨ res = Int32.minValue ∧ num = -1 then .error .divideError else .ok (res / num)

/-- The loop of `term`. Every round goes on by a byte at least. -/
def termLoop (eval : ExprT → Result (Int32 × ExprT)) :
    Nat → Int32 → ExprT → Result (Int32 × ExprT)
  | 0, _, _ => .error .endless
  | rounds + 1, res, e =>
    if e.exp.at0 = 42 then do
      let (num, e) ← e.advance.factor eval
      termLoop eval rounds (res * num) e.skip
    else if e.exp.at0 = 47 then do
      let (num, e) ← e.advance.factor eval
      if num = 0 then return (0, { e with err := errDivisionByZero })
      else
        let res ← divide res num
        termLoop eval rounds res e.skip
    else return (res, e)

def term (eval : ExprT → Result (Int32 × ExprT)) (e : ExprT) : Result (Int32 × ExprT) := do
  let (res, e) ← e.factor eval
  let e := e.skip
  termLoop eval (e.exp.length + 1) res e

/-- The loop of `eval`. -/
def evalLoop (eval : ExprT → Result (Int32 × ExprT)) :
    Nat → Int32 → ExprT → Result (Int32 × ExprT)
  | 0, _, _ => .error .endless
  | rounds + 1, res, e =>
    if e.exp.at0 = 43 then do
      let (num, e) ← e.advance.term eval
      evalLoop eval rounds (res + num) e.skip
    else if e.exp.at0 = 45 then do
      let (num, e) ← e.advance.term eval
      evalLoop eval rounds (res - num) e.skip
    else return (res, e)

/-- The body of `eval`, with `eval` for what is in parentheses. -/
def evalBody (eval : ExprT → Result (Int32 × ExprT)) (e : ExprT) : Result (Int32 × ExprT) := do
  let (res, e) ← e.term eval
  let e := e.skip
  evalLoop eval (e.exp.length + 1) res e

/-- `eval` with calls inside it `depth` deep at most. -/
def evalAt : Nat → ExprT → Result (Int32 × ExprT)
  | 0, _ => .error .endless
  | depth + 1, e => e.evalBody (evalAt depth)

/-- Every call inside `eval` is behind a parenthesis, so there are no more than bytes. -/
def eval (e : ExprT) : Result (Int32 × ExprT) := evalAt (e.exp.length + 1) e

end ExprT

/-- How `bc_main` evaluates a line. -/
def bcEval (line : CString) : Result (Int32 × ExprT) := ExprT.eval ⟨line, errNone⟩

theorem length_skipSpaces_le (s : CString) : (skipSpaces s).length ≤ s.length :=
  (List.dropWhile_sublist _).length_le

theorem scanNumber_suffix (s : CString) : (scanNumber s).2 <:+ s := by
  have hsign : afterSign s <:+ s := by
    rw [afterSign]
    split
    · exact List.tail_suffix s
    · exact List.suffix_rfl
  rw [scanNumber]
  split
  · exact (List.dropWhile_suffix _).trans
      ((List.tail_suffix _).trans ((List.tail_suffix _).trans hsign))
  · exact (List.dropWhile_suffix _).trans hsign

/-- The evaluation comes back, at the latest where it began, or stops at a division. -/
def Returns (n : Nat) : Result (Int32 × ExprT) → Prop
  | .ok (_, e) => e.exp.length ≤ n
  | .error fault => fault = .divideError

theorem Returns.bind (h : Returns n r)
    (hf : ∀ v e, e.exp.length ≤ n → Returns m (f (v, e))) : Returns m (r >>= f) := by
  cases r with
  | ok x => exact hf x.1 x.2 h
  | error fault => exact h

theorem Returns.mono (h : Returns n r) (hn : n ≤ m) : Returns m r := by
  cases r with
  | ok x => exact Nat.le_trans h hn
  | error fault => exact h

namespace ExprT

variable {ev : ExprT → Result (Int32 × ExprT)} {e : ExprT}

theorem length_advance (h : e.exp.at0 ≠ 0) : e.advance.exp.length < e.exp.length := by
  obtain ⟨s, err⟩ := e
  cases s with
  | nil => exact absurd rfl h
  | cons c s => exact Nat.lt_succ_self _

end ExprT

end BiosKernel
