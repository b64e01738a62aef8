import BiosKernel.Shell.Reading
import Mathlib.Data.List.DropRight
import Mathlib.Data.Nat.Digits.Defs

namespace BiosKernel
open Checked
set_option autoImplicit true

/-- A literal of the grammar: it has digits, all of them of its base. -/
structure Numeral extends Literal where
  nonempty : digits ≠ []
  valid : ∀ c ∈ digits, (if hex then isxdigit c else isdigit c) = true

namespace Numeral

def base (n : Numeral) : Nat := if n.hex then 16 else 10

def digitNumber (c : UInt8) : Nat :=
  if c ≤ 57 then c.toNat - 48 else if c ≤ 70 then c.toNat - 55 else c.toNat - 87

/-- The number that is written, of whatever size. -/
def number (n : Numeral) : Int :=
  let m := Nat.ofDigits n.base (n.digits.reverse.map digitNumber)
  if n.neg then -m else m

/-- The text without the sign. -/
def unsigned (n : Numeral) : CString := if n.hex then 48 :: 120 :: n.digits else n.digits

def text (n : Numeral) : CString := if n.neg then 45 :: n.unsigned else n.unsigned

end Numeral

inductive Op where
  | add
  | sub
  | mul
  | div
  deriving DecidableEq

inductive Level where
  | factor
  | term
  | expr
  deriving DecidableEq

namespace Op

def symbol : Op → UInt8
  | add => 43
  | sub => 45
  | mul => 42
  | div => 47

/-- The rule of the grammar that has the operator. -/
def level : Op → Level
  | add | sub => .expr
  | mul | div => .term

/-- Arithmetic modulo 2^32. The division truncates. -/
def apply : Op → Int32 → Int32 → Int32
  | add, a, b => a + b
  | sub, a, b => a - b
  | mul, a, b => a * b
  | div, a, b => a / b

def Defined (op : Op) (a b : Int32) : Prop :=
  op = div → b ≠ 0 ∧ ¬(a = Int32.minValue ∧ b = -1)

end Op

inductive Expr where
  | num (n : Numeral)
  | bin (op : Op) (l r : Expr)

namespace Expr

def value : Expr → Int32
  | num n => Int32.ofInt n.number
  | bin op l r => op.apply l.value r.value

/-- No subexpression divides by zero or the least number by −1. -/
def Defined : Expr → Prop
  | num _ => True
  | bin op l r => l.Defined ∧ r.Defined ∧ op.Defined l.value r.value

end Expr

def spaces (n : Nat) : CString := List.replicate n space

/-- The texts of an expression: E → T (('+'|'-') T)*, T → F (('*'|'/') F)*, F → '(' E ')' | number,
with spaces between the tokens. The sign belongs to its number. -/
inductive Renders : Level → Expr → CString → Prop
  | num : Renders .factor (.num n) n.text
  | paren (i j : Nat) (h : Renders .expr e s) :
      Renders .factor e (40 :: (spaces i ++ (s ++ (spaces j ++ [41]))))
  | factor (h : Renders .factor e s) : Renders .term e s
  | product (op : Op) (i j : Nat) (hop : op.level = .term) (hl : Renders .term l s)
      (hr : Renders .factor r s') :
      Renders .term (.bin op l r) (s ++ (spaces i ++ op.symbol :: (spaces j ++ s')))
  | term (h : Renders .term e s) : Renders .expr e s
  | sum (op : Op) (i j : Nat) (hop : op.level = .expr) (hl : Renders .expr l s)
      (hr : Renders .term r s') :
      Renders .expr (.bin op l r) (s ++ (spaces i ++ op.symbol :: (spaces j ++ s')))

/-- The operands to the right are of the next level. -/
def Level.below : Level → Level
  | expr => term
  | _ => factor

/-- The text with the parentheses that the tree needs, and without spaces. -/
def Expr.render : Expr → Level → CString
  | .num n, _ => n.text
  | .bin op l r, level =>
    let s := l.render op.level ++ op.symbol :: r.render op.level.below
    if level = .expr ∨ level = op.level then s else 40 :: (s ++ [41])

theorem Renders.of_factor (h : Renders .factor e s) : Renders level e s := by
  cases level with
  | factor => exact h
  | term => exact .factor h
  | expr => exact .term (.factor h)

theorem Renders.to_expr (h : Renders level e s) : Renders .expr e s := by
  cases level with
  | factor => exact h.of_factor
  | term => exact .term h
  | expr => exact h

theorem Renders.bin (hl : Renders op.level l s) (hr : Renders op.level.below r s') :
    Renders op.level (.bin op l r) (s ++ op.symbol :: s') := by
  cases op with
  | add => exact .sum .add 0 0 rfl hl hr
  | sub => exact .sum .sub 0 0 rfl hl hr
  | mul => exact .product .mul 0 0 rfl hl hr
  | div => exact .product .div 0 0 rfl hl hr

theorem Expr.renders_render (e : Expr) (level : Level) : Renders level e (e.render level) := by
  induction e generalizing level with
  | num n => exact Renders.num.of_factor
  | bin op l r ihl ihr =>
    have hbin := Renders.bin (ihl op.level) (ihr op.level.below)
    rw [render]
    split
    · rename_i hlevel
      rcases hlevel with rfl | rfl
      · exact hbin.to_expr
      · exact hbin
    · exact (Renders.paren 0 0 hbin.to_expr).of_factor

namespace Numeral

theorem hexDigit_eq (h : isxdigit c = true) :
    Literal.hexDigit c = Int32.ofNat (digitNumber c) := by
  have hall : ∀ n : Fin 256, isxdigit (.ofFin n) = true →
      Literal.hexDigit (.ofFin n) = Int32.ofNat (digitNumber (.ofFin n)) := by decide +kernel
  exact hall c.toFin h

theorem digit_eq (h : isdigit c = true) : Literal.digit c = Int32.ofNat (digitNumber c) := by
  have hall : ∀ n : Fin 256, isdigit (.ofFin n) = true →
      Literal.digit (.ofFin n) = Int32.ofNat (digitNumber (.ofFin n)) := by decide +kernel
  exact hall c.toFin h

theorem foldl_digits {s : CString} {f : UInt8 → Int32} (b : Nat)
    (hf : ∀ c ∈ s, f c = Int32.ofNat (digitNumber c)) :
    s.foldl (fun n c => n * Int32.ofNat b + f c) 0 =
      Int32.ofNat (Nat.ofDigits b (s.reverse.map digitNumber)) := by
  induction s using List.reverseRecOn with
  | nil => rfl
  | append_singleton s c ih =>
    have hs := ih fun d hd => hf d (List.mem_append_left _ hd)
    have hc := hf c (List.mem_append_right _ (List.mem_singleton_self c))
    rw [List.foldl_append, List.foldl_cons, List.foldl_nil, hs, hc, List.reverse_append,
      List.reverse_singleton, List.singleton_append, List.map_cons, Nat.ofDigits_cons,
      Int32.ofNat_add, Int32.ofNat_mul, Int32.mul_comm, Int32.add_comm]

/-- The loops of `number` compute the number modulo 2^32. -/
theorem value_eq (n : Numeral) : n.toLiteral.value = Int32.ofInt n.number := by
  obtain ⟨⟨neg, hex, digits⟩, -, valid⟩ := n
  have hneg (m : Nat) : (if neg = true then -Int32.ofNat m else Int32.ofNat m) =
      Int32.ofInt (if neg = true then -(m : Int) else m) := by
    cases neg with
    | false => exact Int32.ofInt_eq_ofNat.symm
    | true => exact Int32.neg_ofNat
  cases hex with
  | false =>
    have hfold := foldl_digits 10 fun c hc => digit_eq (valid c hc)
    exact (congrArg (fun m : Int32 => if neg = true then -m else m) hfold).trans (hneg _)
  | true =>
    have hfold := foldl_digits 16 fun c hc => hexDigit_eq (valid c hc)
    exact (congrArg (fun m : Int32 => if neg = true then -m else m) hfold).trans (hneg _)

end Numeral

/-- A number does not go on with this. -/
def NumberEnds (rest : CString) : Prop := isxdigit rest.at0 = false ∧ rest.at0 ≠ 120

theorem span_digits {p : UInt8 → Bool} {digits rest : CString} (hp : ∀ c ∈ digits, p c = true)
    (h : p rest.at0 = false) :
    (digits ++ rest).takeWhile p = digits ∧ (digits ++ rest).dropWhile p = rest := by
  rw [List.takeWhile_append_of_pos hp, List.dropWhile_append_of_pos hp]
  cases rest with
  | nil => exact ⟨List.append_nil _, rfl⟩
  | cons c rest =>
    have hc : ¬p c = true := fun hc => absurd (hc.symm.trans h) (by decide)
    rw [List.takeWhile_cons_of_neg hc, List.dropWhile_cons_of_neg hc]
    exact ⟨List.append_nil _, rfl⟩

theorem isxdigit_of_isdigit (h : isdigit c = true) : isxdigit c = true := by
  rw [isdigit, decide_eq_true_eq] at h
  rw [isxdigit, decide_eq_true_eq]
  exact .inl h

theorem NumberEnds.isdigit (h : NumberEnds rest) : isdigit rest.at0 = false := by
  rw [← Bool.not_eq_true]
  intro hd
  exact absurd ((isxdigit_of_isdigit hd).symm.trans h.1) (by decide)

theorem isxdigit_ne (h : isxdigit c = true) : c ≠ 45 ∧ c ≠ 40 ∧ c ≠ space ∧ c ≠ 120 := by
  refine ⟨?_, ?_, ?_, ?_⟩
  all_goals
    rintro rfl
    exact absurd h (by decide)

namespace Numeral

theorem unsigned_eq_cons (n : Numeral) : ∃ c s, n.unsigned = c :: s ∧ isxdigit c = true := by
  obtain ⟨⟨neg, hex, digits⟩, nonempty, valid⟩ := n
  cases hex with
  | true => exact ⟨48, _, rfl, by decide⟩
  | false =>
    cases digits with
    | nil => exact absurd rfl nonempty
    | cons c s => exact ⟨c, s, rfl, isxdigit_of_isdigit (valid c List.mem_cons_self)⟩

theorem sign_text (n : Numeral) (rest : CString) :
    decide (CString.at0 (n.text ++ rest) = 45) = n.neg ∧
      afterSign (n.text ++ rest) = n.unsigned ++ rest := by
  rw [text]
  cases n.neg with
  | true => exact ⟨rfl, rfl⟩
  | false =>
    obtain ⟨c, s, hc, hx⟩ := n.unsigned_eq_cons
    have hne : ¬CString.at0 (n.unsigned ++ rest) = 45 := by
      rw [hc]
      exact (isxdigit_ne hx).1
    exact ⟨decide_eq_false hne, if_neg hne⟩

theorem not_hex_text {digits : CString} (hd : ∀ c ∈ digits, isdigit c = true)
    (hn : digits ≠ []) (h : NumberEnds rest) : CString.at0 (digits ++ rest).tail ≠ 120 := by
  cases digits with
  | nil => exact absurd rfl hn
  | cons c digits =>
    cases digits with
    | nil => exact h.2
    | cons d digits =>
      have hx := isxdigit_of_isdigit (hd d (List.mem_cons_of_mem _ List.mem_cons_self))
      exact (isxdigit_ne hx).2.2.2

theorem scanNumber_text (n : Numeral) (h : NumberEnds rest) :
    scanNumber (n.text ++ rest) = (n.toLiteral, rest) := by
  obtain ⟨hneg, hafter⟩ := n.sign_text rest
  rw [scanNumber, hafter, hneg]
  obtain ⟨⟨neg, hex, digits⟩, nonempty, valid⟩ := n
  cases hex with
  | true =>
    have hspan := span_digits (p := isxdigit) valid h.1
    refine (if_pos ⟨rfl, rfl⟩).trans ?_
    exact congrArg₂ Prod.mk (congrArg (Literal.mk neg true) hspan.1) hspan.2
  | false =>
    have hspan := span_digits (p := isdigit) valid h.isdigit
    have hdec : ¬(CString.at0 (digits ++ rest) = 48 ∧ CString.at0 (digits ++ rest).tail = 120) :=
      fun hx => not_hex_text valid nonempty h hx.2
    refine (if_neg hdec).trans ?_
    exact congrArg₂ Prod.mk (congrArg (Literal.mk neg false) hspan.1) hspan.2

theorem skipSpaces_text (n : Numeral) (rest : CString) :
    skipSpaces (n.text ++ rest) = n.text ++ rest ∧ CString.at0 (n.text ++ rest) ≠ 40 := by
  obtain ⟨c, s, hc, hx⟩ := n.unsigned_eq_cons
  rw [text, hc]
  cases n.neg with
  | true => exact ⟨rfl, (by decide : (45 : UInt8) ≠ 40)⟩
  | false =>
    have hspace : ¬decide (c = space) = true := by simpa using (isxdigit_ne hx).2.2.1
    exact ⟨List.dropWhile_cons_of_neg hspace, (isxdigit_ne hx).2.1⟩

end Numeral

theorem skipSpaces_spaces (n : Nat) (s : CString) : skipSpaces (spaces n ++ s) = skipSpaces s :=
  List.dropWhile_append_of_pos fun _ hc => decide_eq_true (List.eq_of_mem_replicate hc)

theorem skipSpaces_cons (hc : c ≠ space) : skipSpaces (c :: s) = c :: s :=
  List.dropWhile_cons_of_neg fun h => hc (of_decide_eq_true h)

theorem skipSpaces_skipSpaces (s : CString) : skipSpaces (skipSpaces s) = skipSpaces s :=
  List.dropWhile_idempotent _ _

theorem NumberEnds.cons (h : isxdigit c = false) (hx : c ≠ 120) : NumberEnds (c :: s) := ⟨h, hx⟩

theorem NumberEnds.spaces (h : NumberEnds rest) (n : Nat) : NumberEnds (spaces n ++ rest) := by
  cases n with
  | zero => exact h
  | succ n => exact .cons (by decide) (by decide)

namespace Op

/-- The tree that is read for an operator. -/
def tree : Op → Tree → Tree → Tree
  | add => .add
  | sub => .sub
  | mul => .mul
  | div => .div

theorem skip_symbol (op : Op) (n : Nat) (s : CString) :
    skipSpaces (spaces n ++ op.symbol :: s) = op.symbol :: s := by
  rw [skipSpaces_spaces]
  cases op <;> rfl

theorem numberEnds (op : Op) (s : CString) : NumberEnds (op.symbol :: s) := by
  cases op <;> exact .cons (by decide) (by decide)

theorem symbol_ne_of_level {op : Op} (h : op.level = .expr) : op.symbol ≠ 42 ∧ op.symbol ≠ 47 := by
  cases op <;> revert h <;> decide

end Op

/-- The reading gives the value of the expression, without an error. -/
structure Denotes (t : Tree) (e : Expr) : Prop where
  value : t.value = some e.value
  err : ∀ k, t.err k = k

theorem Denotes.ne_zero (hr : Denotes r e) (h : e.value ≠ 0) : r.value ≠ some 0 := by
  rw [hr.value]
  exact fun h0 => h (Option.some.inj h0)

theorem Denotes.bin (hl : Denotes l e₁) (hr : Denotes r e₂)
    (hd : op.Defined e₁.value e₂.value) : Denotes (op.tree l r) (.bin op e₁ e₂) := by
  have herr (k : Nat) : r.err (l.err k) = k := by rw [hl.err, hr.err]
  have hvalue (f : Int32 → Int32 → Option Int32) :
      (l.value.bind fun a => r.value.bind fun b => f a b) = f e₁.value e₂.value := by
    rw [hl.value, hr.value]
    rfl
  cases op with
  | add => exact ⟨hvalue _, herr⟩
  | sub => exact ⟨hvalue _, herr⟩
  | mul => exact ⟨hvalue _, herr⟩
  | div =>
    obtain ⟨h0, htrap⟩ := hd rfl
    refine ⟨(hvalue _).trans ?_, ?_⟩
    · rw [if_neg h0, ExprT.divide, if_neg (not_or.mpr ⟨h0, htrap⟩)]
      rfl
    · intro k
      exact (if_neg (hr.ne_zero h0)).trans (herr k)

theorem Reads.product {op : Op} (hop : op.level = .term)
    (hl : Reads .termLoop s l (op.symbol :: s')) (hr : Reads .factor s' r rest)
    (h0 : op = .div → r.value ≠ some 0) :
    Reads .termLoop s (op.tree l r) (skipSpaces rest) := by
  cases op with
  | add => cases hop
  | sub => cases hop
  | mul => exact .mul hl hr
  | div => exact .div hl hr (h0 rfl)

theorem Reads.sum {op : Op} (hop : op.level = .expr) (hl : Reads .evalLoop s l (op.symbol :: s'))
    (hr : Reads .term s' r rest) : Reads .evalLoop s (op.tree l r) (skipSpaces rest) := by
  cases op with
  | add => exact .add hl hr
  | sub => exact .sub hl hr
  | mul => cases hop
  | div => cases hop

/-- What may stand behind a text of the level. -/
def Level.Follows : Level → CString → Prop
  | expr, rest => NumberEnds rest ∧ (skipSpaces rest).at0 ≠ 42 ∧ (skipSpaces rest).at0 ≠ 47
  | _, rest => NumberEnds rest

/-- How far a text of the level is read. -/
def Level.ReadsTo : Level → CString → Tree → CString → Prop
  | factor, s, t, rest => Reads .factor s t rest
  | term, s, t, rest => Reads .termLoop s t (skipSpaces rest)
  | expr, s, t, rest => Reads .evalLoop s t (skipSpaces rest)

theorem Level.follows_close (j : Nat) (rest : CString) :
    Level.expr.Follows (spaces j ++ 41 :: rest) := by
  refine ⟨NumberEnds.spaces (.cons (by decide) (by decide)) j, ?_⟩
  rw [skipSpaces_spaces]
  exact (by decide : (41 : UInt8) ≠ 42 ∧ (41 : UInt8) ≠ 47)

theorem Level.follows_symbol {op : Op} (hop : op.level = .expr) (i : Nat) (s : CString) :
    Level.expr.Follows (spaces i ++ op.symbol :: s) := by
  refine ⟨(op.numberEnds _).spaces i, ?_⟩
  rw [op.skip_symbol]
  exact Op.symbol_ne_of_level hop

theorem skipSpaces_paren (n i j : Nat) (s rest : CString) :
    skipSpaces (spaces n ++ (40 :: (spaces i ++ (s ++ (spaces j ++ [41]))) ++ rest)) =
      40 :: (spaces i ++ (s ++ (spaces j ++ 41 :: rest))) := by
  rw [skipSpaces_spaces, List.cons_append, skipSpaces_cons (by decide)]
  simp only [List.append_assoc, List.cons_append, List.nil_append]

theorem reads_numeral (m : Numeral) (hf : NumberEnds rest) (n : Nat) :
    Reads .factor (spaces n ++ (m.text ++ rest)) (.num m.toLiteral) rest := by
  obtain ⟨hskip, hopen⟩ := m.skipSpaces_text rest
  have hall := (skipSpaces_spaces n (m.text ++ rest)).trans hskip
  have hreads := Reads.num (s := spaces n ++ (m.text ++ rest)) (by rw [hall]; exact hopen)
  rwa [hall, m.scanNumber_text hf] at hreads

theorem reads_paren (n : Nat)
    (h : Reads .evalLoop (spaces i ++ (s ++ (spaces j ++ 41 :: rest))) t
      (skipSpaces (spaces j ++ 41 :: rest))) :
    Reads .factor (spaces n ++ (40 :: (spaces i ++ (s ++ (spaces j ++ [41]))) ++ rest))
      (.closed t) rest := by
  rw [skipSpaces_spaces, skipSpaces_cons (by decide)] at h
  have heval : Reads .eval _ t (41 :: rest) :=
    .eval h (by decide : (41 : UInt8) ≠ 43) (by decide : (41 : UInt8) ≠ 45)
  exact .closed (skipSpaces_paren n i j s rest) heval (skipSpaces_cons (by decide))

/-- Every text of an expression is read as the expression. -/
theorem Renders.reads (h : Renders level e s) (hd : e.Defined) (hf : level.Follows rest) (n : Nat) :
    ∃ t, level.ReadsTo (spaces n ++ (s ++ rest)) t rest ∧ Denotes t e := by
  induction h generalizing rest n with
  | @num m => exact ⟨.num m.toLiteral, reads_numeral m hf n, congrArg some m.value_eq, fun _ => rfl⟩
  | @paren e s i j h ih =>
    obtain ⟨t, hreads, hden⟩ := ih hd (Level.follows_close j rest) i
    exact ⟨.closed t, reads_paren n hreads, hden.value, hden.err⟩
  | factor h ih =>
    obtain ⟨t, hreads, hden⟩ := ih hd hf n
    exact ⟨t, .firstFactor hreads, hden⟩
  | @product l s r s' op i j hop hl hr ihl ihr =>
    obtain ⟨hdl, hdr, hdo⟩ := hd
    obtain ⟨tl, hreadsl, hdenl⟩ := ihl hdl ((op.numberEnds (spaces j ++ (s' ++ rest))).spaces i) n
    obtain ⟨tr, hreadsr, hdenr⟩ := ihr hdr hf j
    rw [Level.ReadsTo, op.skip_symbol] at hreadsl
    have hreads := Reads.product hop hreadsl hreadsr fun h => hdenr.ne_zero (hdo h).1
    refine ⟨op.tree tl tr, ?_, hdenl.bin hdenr hdo⟩
    simp only [List.append_assoc, List.cons_append]
    exact hreads
  | term h ih =>
    obtain ⟨t, hreads, hden⟩ := ih hd hf.1 n
    have hterm := Reads.firstTerm (.term hreads hf.2.1 hf.2.2)
    rw [skipSpaces_skipSpaces] at hterm
    exact ⟨t, hterm, hden⟩
  | @sum l s r s' op i j hop hl hr ihl ihr =>
    obtain ⟨hdl, hdr, hdo⟩ := hd
    have hfollow := Level.follows_symbol hop i (spaces j ++ (s' ++ rest))
    obtain ⟨tl, hreadsl, hdenl⟩ := ihl hdl hfollow n
    obtain ⟨tr, hreadsr, hdenr⟩ := ihr hdr hf.1 j
    rw [Level.ReadsTo, op.skip_symbol] at hreadsl
    have hreads := Reads.sum hop hreadsl (.term hreadsr hf.2.1 hf.2.2)
    rw [skipSpaces_skipSpaces] at hreads
    refine ⟨op.tree tl tr, ?_, hdenl.bin hdenr hdo⟩
    simp only [List.append_assoc, List.cons_append]
    exact hreads

theorem skipSpaces_all (n : Nat) : skipSpaces (spaces n) = [] := by
  have h := skipSpaces_spaces n []
  rwa [List.append_nil] at h

theorem Level.follows_spaces (j : Nat) : Level.expr.Follows (spaces j) := by
  have hnil : NumberEnds [] := ⟨by decide, by decide⟩
  have hspaces := hnil.spaces j
  rw [List.append_nil] at hspaces
  refine ⟨hspaces, ?_⟩
  rw [skipSpaces_all]
  exact ⟨by decide, by decide⟩

theorem Renders.explains (h : Renders .expr e s) (hd : e.Defined) (i j : Nat) :
    Explains .eval ⟨spaces i ++ (s ++ spaces j), errNone⟩ e.value ⟨[], errNone⟩ := by
  obtain ⟨t, hreads, hden⟩ := h.reads hd (Level.follows_spaces j) i
  rw [Level.ReadsTo, skipSpaces_all] at hreads
  exact ⟨t, .eval hreads (by decide) (by decide), hden.value, (hden.err errNone).symm⟩

/-- `eval` uses up every text of an expression that is defined, and returns its value without an
error. -/
theorem eval_of_renders (h : Renders .expr e s) (hd : e.Defined) (i j : Nat) :
    ExprT.eval ⟨spaces i ++ (s ++ spaces j), errNone⟩ = .ok (e.value, ⟨[], errNone⟩) :=
  (ExprT.eval_eq_ok_iff _ _ _).mpr (h.explains hd i j)

/-- ` -0x1F *( 1-1 - 1 ) `. -/
theorem eval_of_renders_mul :
    ExprT.eval ⟨[32, 45, 48, 120, 49, 70, 32, 42, 40, 32, 49, 45, 49, 32, 45, 32, 49, 32, 41, 32],
      errNone⟩ = .ok (31, ⟨[], errNone⟩) := by
  let one : Numeral := ⟨⟨false, false, [49]⟩, by decide, by decide +kernel⟩
  let minusThirtyOne : Numeral := ⟨⟨true, true, [49, 70]⟩, by decide, by decide +kernel⟩
  have hone : Renders .factor (.num one) [49] := .num
  have hinner := Renders.sum .sub 1 1 rfl
    (.sum .sub 0 0 rfl hone.to_expr (.factor hone)) (.factor hone)
  have htext := Renders.product .mul 1 0 rfl (.factor (.num (n := minusThirtyOne)))
    (.paren 1 1 hinner)
  refine (eval_of_renders (.term htext) ?_ 1 1).trans ?_
  · exact ⟨trivial, ⟨⟨trivial, trivial, nofun⟩, trivial, nofun⟩, nofun⟩
  · refine congrArg (fun v => Except.ok (v, ExprT.mk [] errNone)) ?_
    decide +kernel

end BiosKernel
