import BiosKernel.Lib.Bytes
import Mathlib.Logic.Function.Basic
import Mathlib.Tactic.Common

namespace X64
set_option autoImplicit true

open ByteMem

abbrev Word := BitVec 64

inductive Reg where
  | rax | rbx | rcx | rdx | rsi | rdi | rbp | rsp | r8 | r9 | r10 | r11 | r12 | r13 | r14 | r15
  deriving DecidableEq

/-- The registers that only some instructions touch. -/
structure System where
  rip : Word
  rflags : Word
  cs : Word
  ss : Word
  cr2 : Word
  cr3 : Word
  gsBase : Word
  kernelGsBase : Word
  deriving DecidableEq

structure Machine where
  reg : Reg → Word
  mem : Mem
  sys : System

def readWord (m : Mem) (a : Nat) : Word := BitVec.ofNat 64 (load m a 8)

def writeWord (m : Mem) (a : Nat) (v : Word) : Mem := store m a 8 v.toNat

namespace Machine

def rsp (m : Machine) : Nat := (m.reg .rsp).toNat

def setReg (m : Machine) (r : Reg) (v : Word) : Machine :=
  { m with reg := Function.update m.reg r v }

/-- The address `base + d`. -/
def addr (m : Machine) (base : Reg) (d : Nat) : Nat := (m.reg base + BitVec.ofNat 64 d).toNat

def push (m : Machine) (v : Word) : Machine :=
  let sp := m.reg .rsp - 8
  { m.setReg .rsp sp with mem := writeWord m.mem sp.toNat v }

def top (m : Machine) : Word := readWord m.mem m.rsp

/-- Give up the word at the top of the stack. -/
def drop (m : Machine) : Machine := m.setReg .rsp (m.reg .rsp + 8)

end Machine

/-- Bit 9 of RFLAGS, which lets interrupts through. -/
def interruptFlag : Word := 0x200

inductive Instr where
  | push (r : Reg)
  | pushImm (v : Word)
  | pushMem (base : Reg) (d : Nat)
  | pop (r : Reg)
  | mov (dst src : Reg)
  | movImm (dst : Reg) (v : Word)
  /-- A `mov` to the low 16 bits. -/
  | movImm16 (dst : Reg) (v : BitVec 16)
  | load (dst base : Reg) (d : Nat)
  | store (base : Reg) (d : Nat) (src : Reg)
  | orMem (base : Reg) (d : Nat) (v : Word)
  | addImm (dst : Reg) (v : Word)
  | subImm (dst : Reg) (v : Word)
  | readCr2 (dst : Reg)
  | writeCr2 (src : Reg)
  | loadGs (dst : Reg) (d : Nat)
  | storeGs (d : Nat) (src : Reg)
  /-- Load `gs` with a selector whose descriptor has the base 0. -/
  | movGs
  | swapgs
  | cli
  | sti
  deriving DecidableEq

def Instr.step (m : Machine) : Instr → Machine
  | .push r => m.push (m.reg r)
  | .pushImm v => m.push v
  | .pushMem base d => m.push (readWord m.mem (m.addr base d))
  | .pop r => m.drop.setReg r m.top
  | .mov dst src => m.setReg dst (m.reg src)
  | .movImm dst v => m.setReg dst v
  | .movImm16 dst v => m.setReg dst (m.reg dst &&& ~~~0xFFFF ||| v.zeroExtend 64)
  | .load dst base d => m.setReg dst (readWord m.mem (m.addr base d))
  | .store base d src => { m with mem := writeWord m.mem (m.addr base d) (m.reg src) }
  | .orMem base d v =>
    { m with mem := writeWord m.mem (m.addr base d) (readWord m.mem (m.addr base d) ||| v) }
  | .addImm dst v => m.setReg dst (m.reg dst + v)
  | .subImm dst v => m.setReg dst (m.reg dst - v)
  | .readCr2 dst => m.setReg dst m.sys.cr2
  | .writeCr2 src => { m with sys := { m.sys with cr2 := m.reg src } }
  | .loadGs dst d => m.setReg dst (readWord m.mem (m.sys.gsBase + BitVec.ofNat 64 d).toNat)
  | .storeGs d src =>
    { m with mem := writeWord m.mem (m.sys.gsBase + BitVec.ofNat 64 d).toNat (m.reg src) }
  | .movGs => { m with sys := { m.sys with gsBase := 0 } }
  | .swapgs =>
    { m with sys := { m.sys with gsBase := m.sys.kernelGsBase, kernelGsBase := m.sys.gsBase } }
  | .cli => { m with sys := { m.sys with rflags := m.sys.rflags &&& ~~~interruptFlag } }
  | .sti => { m with sys := { m.sys with rflags := m.sys.rflags ||| interruptFlag } }

/-- Straight-line code. -/
def exec (is : List Instr) (m : Machine) : Machine := is.foldl Instr.step m

@[simp] theorem exec_nil (m : Machine) : exec [] m = m := rfl

@[simp] theorem exec_cons (i : Instr) (is : List Instr) (m : Machine) :
    exec (i :: is) m = exec is (i.step m) := rfl

theorem exec_append (is js : List Instr) (m : Machine) :
    exec (is ++ js) m = exec js (exec is m) := List.foldl_append

/-- The processor takes an interrupt through a gate to `handler`. It leaves user mode for the stack
at `rsp0`, and pushes what `iretq` pops, with the error code of an exception that has one. -/
def deliver (handler selector rsp0 : Word) (errorCode : Option Word) (m : Machine) : Machine :=
  let user := m.sys.cs &&& 3 ≠ 0
  let base := if user then rsp0 else m.reg .rsp
  let pushed := ((((m.setReg .rsp (base &&& ~~~0xF)).push m.sys.ss).push (m.reg .rsp)).push
    m.sys.rflags).push m.sys.cs |>.push m.sys.rip
  let pushed := errorCode.elim pushed pushed.push
  { pushed with
    sys := { m.sys with
      rip := handler, cs := selector, ss := if user then 0 else m.sys.ss,
      rflags := m.sys.rflags &&& ~~~interruptFlag } }

/-- Pop the five words of an interrupt frame. `none` is the exception of a selector that `code` does
not have as a code segment. -/
def iretq (code : Word → Bool) (m : Machine) : Option Machine :=
  let word (i : Nat) := readWord m.mem (m.addr .rsp (8 * i))
  if code (word 1) then
    some { m.setReg .rsp (word 3) with
      sys := { m.sys with rip := word 0, cs := word 1, rflags := word 2, ss := word 4 } }
  else none

/-- The model-specific registers of the system call instructions. -/
structure Msrs where
  star : Word
  lstar : Word
  fmask : Word

/-- `next` is the address of the instruction behind it. -/
def syscall (msr : Msrs) (next : Word) (m : Machine) : Machine :=
  { (m.setReg .rcx next).setReg .r11 m.sys.rflags with
    sys := { m.sys with
      rip := msr.lstar, cs := msr.star >>> 32 &&& 0xFFFC, ss := (msr.star >>> 32 &&& 0xFFFF) + 8,
      rflags := m.sys.rflags &&& ~~~msr.fmask } }

/-- It takes its selectors as they are and reads no descriptor. -/
def sysret (msr : Msrs) (m : Machine) : Machine :=
  { m with
    sys := { m.sys with
      rip := m.reg .rcx, cs := (msr.star >>> 48) + 16 ||| 3, ss := (msr.star >>> 48) + 8 ||| 3,
      rflags := m.reg .r11 &&& 0x3C7FD7 ||| 2 } }

namespace Machine

variable (m : Machine) (v : Word)

@[simp] theorem setReg_self (r : Reg) : (m.setReg r v).reg r = v := by
  simp only [setReg, Function.update_self]

theorem setReg_of_ne (h : q ≠ r) : (m.setReg r v).reg q = m.reg q := by
  simp only [setReg, Function.update_of_ne h]

@[simp] theorem setReg_mem (r : Reg) : (m.setReg r v).mem = m.mem := rfl

@[simp] theorem setReg_sys (r : Reg) : (m.setReg r v).sys = m.sys := rfl

@[simp] theorem drop_mem : m.drop.mem = m.mem := rfl

@[simp] theorem drop_sys : m.drop.sys = m.sys := rfl

theorem push_rsp : (m.push v).reg .rsp = m.reg .rsp - 8 := m.setReg_self (m.reg .rsp - 8) .rsp

theorem push_of_ne (h : q ≠ .rsp) : (m.push v).reg q = m.reg q := m.setReg_of_ne _ h

theorem drop_rsp : m.drop.reg .rsp = m.reg .rsp + 8 := m.setReg_self (m.reg .rsp + 8) .rsp

theorem drop_of_ne (h : q ≠ .rsp) : m.drop.reg q = m.reg q := m.setReg_of_ne _ h

end Machine

section Words

@[simp] theorem readWord_writeWord (m : Mem) (a : Nat) (v : Word) :
    readWord (writeWord m a v) a = v := by
  rw [readWord, writeWord, load_store_of_lt m a 8 (show v.toNat < 256 ^ 8 from v.isLt),
    BitVec.ofNat_toNat, BitVec.setWidth_eq]

theorem writeWord_apart (m : Mem) (v : Word) (h : x < a ∨ a + 8 ≤ x) : writeWord m a v x = m x :=
  store_apart m _ h

theorem readWord_congr (h : ∀ x, a ≤ x → x < a + 8 → m x = m' x) :
    readWord m a = readWord m' a := by
  rw [readWord, readWord, load_congr h]

end Words

/-- The words of the list stand in memory from the address on. -/
def Holds (m : Mem) (a : Nat) : List Word → Prop
  | [] => True
  | v :: vs => readWord m a = v ∧ Holds m (a + 8) vs

theorem Holds.congr (h : Holds m a vs) (hm : ∀ x, a ≤ x → x < a + 8 * vs.length → m' x = m x) :
    Holds m' a vs := by
  induction vs generalizing a with
  | nil => trivial
  | cons v vs ih =>
    rw [List.length_cons] at hm
    refine ⟨?_, ?_⟩
    · rw [← h.1]
      apply readWord_congr
      intro x hx hx'
      exact hm x hx (by omega)
    · apply ih h.2
      intro x hx hx'
      exact hm x (by omega) (by omega)

theorem Holds.get (h : Holds m a vs) (hi : vs[i]? = some v) : readWord m (a + 8 * i) = v := by
  induction vs generalizing a i with
  | nil => cases hi
  | cons w vs ih =>
    cases i with
    | zero =>
      cases hi
      exact h.1
    | succ i =>
      have ht := ih h.2 hi
      rwa [show a + 8 + 8 * i = a + 8 * (i + 1) by omega] at ht

theorem holds_append : Holds m a (vs ++ ws) ↔ Holds m a vs ∧ Holds m (a + 8 * vs.length) ws := by
  induction vs generalizing a with
  | nil => exact ⟨fun h => ⟨trivial, h⟩, fun h => h.2⟩
  | cons v vs ih =>
    rw [List.cons_append, Holds, Holds, ih, and_assoc, List.length_cons,
      show a + 8 + 8 * vs.length = a + 8 * (vs.length + 1) by omega]

theorem Holds.snoc (h : Holds m a vs) (v : Word) :
    Holds (writeWord m (a + 8 * vs.length) v) a (vs ++ [v]) := by
  refine holds_append.mpr ⟨?_, readWord_writeWord .., trivial⟩
  apply h.congr
  intro x _ hx
  exact writeWord_apart _ _ (.inl hx)

theorem Holds.write (h : Holds m a vs) (v : Word) (hb : b + 8 ≤ a ∨ a + 8 * vs.length ≤ b) :
    Holds (writeWord m b v) a vs := by
  apply h.congr
  intro x hx hx'
  exact writeWord_apart _ _ (by omega)

/-- Write the words from the address on. -/
def writeWords (m : Mem) (a : Nat) : List Word → Mem
  | [] => m
  | v :: vs => writeWord (writeWords m (a + 8) vs) a v

theorem holds_writeWords (m : Mem) (a : Nat) (vs : List Word) : Holds (writeWords m a vs) a vs := by
  induction vs generalizing a with
  | nil => trivial
  | cons v vs ih => exact ⟨readWord_writeWord .., (ih (a + 8)).write v (.inl (Nat.le_refl _))⟩

/-- The stack that ended at `top` when memory was `base` has `vs` on it, and it has never reached
below `low`. -/
structure OnStack (top low : Nat) (base : Mem) (vs : List Word) (m : Machine) : Prop where
  rsp_add : m.rsp + 8 * vs.length = top
  low_le : low ≤ m.rsp
  holds : Holds m.mem m.rsp vs
  frame : ∀ x, top ≤ x ∨ x < low → m.mem x = base x

theorem onStack_nil (m : Machine) (low : Nat) (h : low ≤ m.rsp) : OnStack m.rsp low m.mem [] m :=
  ⟨rfl, h, trivial, fun _ _ => rfl⟩

namespace OnStack

variable {m m' : Machine}

theorem congr (h : OnStack top low base vs m) (hr : m'.reg .rsp = m.reg .rsp)
    (hm : m'.mem = m.mem) : OnStack top low base vs m' := by
  have hrsp : m'.rsp = m.rsp := congrArg BitVec.toNat hr
  refine ⟨?_, ?_, ?_, ?_⟩
  · rw [hrsp]
    exact h.rsp_add
  · rw [hrsp]
    exact h.low_le
  · rw [hrsp, hm]
    exact h.holds
  · rw [hm]
    exact h.frame

theorem setReg (h : OnStack top low base vs m) (hr : r ≠ .rsp) (v : Word) :
    OnStack top low base vs (m.setReg r v) :=
  h.congr (m.setReg_of_ne v (Ne.symm hr)) rfl

theorem push (h : OnStack top low base vs m) (hroom : low + 8 ≤ m.rsp) (v : Word) :
    OnStack top low base (v :: vs) (m.push v) := by
  have hsp : (m.push v).rsp = m.rsp - 8 := by
    have h8 : (8 : Word) ≤ m.reg .rsp := BitVec.le_def.mpr (Nat.le_trans (Nat.le_add_left ..) hroom)
    rw [Machine.rsp, m.push_rsp, BitVec.toNat_sub_of_le h8]
    rfl
  have hmem : (m.push v).mem = writeWord m.mem (m.rsp - 8) v := by
    rw [← hsp, Machine.rsp, m.push_rsp]
    rfl
  refine ⟨?_, ?_, ⟨?_, ?_⟩, ?_⟩
  · have hadd := h.rsp_add
    rw [hsp, List.length_cons]
    omega
  · rw [hsp]
    omega
  · rw [hsp, hmem, readWord_writeWord]
  · rw [hsp, hmem, Nat.sub_add_cancel (by omega)]
    apply h.holds.congr
    intro x hx _
    exact writeWord_apart _ _ (by omega)
  · intro x hx
    have hadd := h.rsp_add
    rw [hmem, writeWord_apart _ _ (by omega)]
    exact h.frame x hx

theorem top_eq (h : OnStack top low base (v :: vs) m) : m.top = v := h.holds.1

theorem drop (h : OnStack top low base (v :: vs) m) (htop : top < 2 ^ 64) :
    OnStack top low base vs m.drop := by
  have hadd := h.rsp_add
  rw [List.length_cons] at hadd
  have hsp : m.drop.rsp = m.rsp + 8 := by
    rw [Machine.rsp, m.drop_rsp, BitVec.toNat_add]
    exact Nat.mod_eq_of_lt (show m.rsp + 8 < 2 ^ 64 by omega)
  refine ⟨?_, ?_, ?_, h.frame⟩
  · rw [hsp]
    omega
  · have hlow := h.low_le
    rw [hsp]
    omega
  · rw [hsp]
    exact h.holds.2

theorem addr (h : OnStack top low base vs m) (htop : top < 2 ^ 64) (hi : i < vs.length) :
    m.addr .rsp (8 * i) = m.rsp + 8 * i := by
  have hadd := h.rsp_add
  rw [Machine.addr, BitVec.toNat_add, BitVec.toNat_ofNat,
    Nat.mod_eq_of_lt (by omega : 8 * i < 2 ^ 64)]
  exact Nat.mod_eq_of_lt (show m.rsp + 8 * i < 2 ^ 64 by omega)

theorem read (h : OnStack top low base vs m) (htop : top < 2 ^ 64) (hi : vs[i]? = some v) :
    readWord m.mem (m.addr .rsp (8 * i)) = v := by
  have hlt := (List.getElem?_eq_some_iff.mp hi).1
  rw [h.addr htop hlt]
  exact h.holds.get hi

theorem orTop (h : OnStack top low base (v :: vs) m) (x : Word) :
    OnStack top low base ((v ||| x) :: vs) (Instr.step m (.orMem .rsp 0 x)) := by
  have haddr : m.addr .rsp 0 = m.rsp := congrArg BitVec.toNat (BitVec.add_zero _)
  have hmem : (Instr.step m (.orMem .rsp 0 x)).mem = writeWord m.mem m.rsp (v ||| x) := by
    rw [← h.top_eq, Machine.top, ← haddr]
    rfl
  have hadd := h.rsp_add
  have hlow := h.low_le
  rw [List.length_cons] at hadd
  refine ⟨h.rsp_add, hlow, ⟨?_, ?_⟩, ?_⟩
  · rw [hmem]
    exact readWord_writeWord ..
  · rw [hmem]
    apply h.holds.2.congr
    intro y hy _
    exact writeWord_apart _ _ (.inr hy)
  · intro y hy
    rw [hmem, writeWord_apart _ _ (by omega)]
    exact h.frame y hy

theorem holds_apart (h : OnStack top low base vs m) (hb : Holds base a ws)
    (hap : top ≤ a ∨ a + 8 * ws.length ≤ low) : Holds m.mem a ws := by
  apply hb.congr
  intro x hx hx'
  exact h.frame x (by omega)

end OnStack

theorem Machine.addr_of_lt {m : Machine} (h : (m.reg base).toNat + d < 2 ^ 64) :
    m.addr base d = (m.reg base).toNat + d := by
  rw [Machine.addr, BitVec.toNat_add, BitVec.toNat_ofNat, Nat.mod_eq_of_lt (by omega : d < 2 ^ 64)]
  exact Nat.mod_eq_of_lt h

/-- Loads of the registers from consecutive words behind a pointer. -/
def loads (base : Reg) : Nat → List Reg → List Instr
  | _, [] => []
  | d, r :: rs => .load r base d :: loads base (d + 8) rs

/-- Pushing registers puts them on the stack, the last one first. -/
theorem exec_pushes {m : Machine} (rs : List Reg) (h : OnStack top low base vs m) (hrs : .rsp ∉ rs)
    (hroom : low + 8 * rs.length ≤ m.rsp) :
    OnStack top low base ((rs.map m.reg).reverse ++ vs) (exec (rs.map .push) m) ∧
      (∀ r, r ≠ .rsp → (exec (rs.map .push) m).reg r = m.reg r) ∧
      (exec (rs.map .push) m).sys = m.sys := by
  induction rs generalizing m vs with
  | nil => exact ⟨h, fun _ _ => rfl, rfl⟩
  | cons r rs ih =>
    obtain ⟨hr, hrs⟩ := not_or.mp (mt List.mem_cons.mpr hrs)
    rw [List.length_cons] at hroom
    have hp := h.push (by omega) (m.reg r)
    have hsp := hp.rsp_add
    have hadd := h.rsp_add
    rw [List.length_cons] at hsp
    have hreg (q : Reg) (hq : q ≠ .rsp) : (m.push (m.reg r)).reg q = m.reg q := m.push_of_ne _ hq
    obtain ⟨hs, hregs, hsys⟩ := ih hp hrs (by omega)
    refine ⟨?_, ?_, hsys⟩
    · have hmap : rs.map (m.push (m.reg r)).reg = rs.map m.reg := by
        apply List.map_congr_left
        intro q hq
        exact hreg q (fun he => hrs (he ▸ hq))
      rw [hmap] at hs
      rw [List.map_cons, List.reverse_cons, List.append_assoc]
      exact hs
    · intro q hq
      exact (hregs q hq).trans (hreg q hq)

theorem exec_pops {m : Machine} {rs : List Reg} {f : Reg → Word}
    (h : OnStack top low base (rs.map f ++ vs) m) (htop : top < 2 ^ 64) (hrs : .rsp ∉ rs) :
    OnStack top low base vs (exec (rs.map .pop) m) ∧
      (∀ r, r ≠ .rsp → (exec (rs.map .pop) m).reg r = if r ∈ rs then f r else m.reg r) ∧
      (exec (rs.map .pop) m).sys = m.sys ∧ (exec (rs.map .pop) m).mem = m.mem := by
  induction rs generalizing m with
  | nil => exact ⟨h, fun _ _ => rfl, rfl, rfl⟩
  | cons r rs ih =>
    obtain ⟨hr, hrs⟩ := not_or.mp (mt List.mem_cons.mpr hrs)
    have hd := (h.drop htop).setReg (Ne.symm hr) m.top
    obtain ⟨hs, hregs, hsys, hmem⟩ := ih hd hrs
    refine ⟨hs, ?_, hsys, hmem⟩
    intro q hq
    refine (hregs q hq).trans ?_
    by_cases hmem : q ∈ rs
    · rw [if_pos hmem, if_pos (List.mem_cons_of_mem r hmem)]
    · rw [if_neg hmem]
      by_cases hqr : q = r
      · subst hqr
        rw [if_pos List.mem_cons_self, ← h.top_eq]
        exact Machine.setReg_self ..
      · have hcons : q ∉ r :: rs := List.not_mem_cons_of_ne_of_not_mem hqr hmem
        rw [if_neg hcons]
        exact (m.drop.setReg_of_ne _ hqr).trans (m.drop_of_ne hq)

theorem exec_loads {m : Machine} (base : Reg) (vs : List Word) (rs : List Reg) (f : Reg → Word)
    (h : Holds m.mem (m.reg base).toNat (vs ++ rs.map f))
    (hlt : (m.reg base).toNat + 8 * (vs.length + rs.length) ≤ 2 ^ 64) (hb : base ∉ rs) :
    (∀ q, (exec (loads base (8 * vs.length) rs) m).reg q = if q ∈ rs then f q else m.reg q) ∧
      (exec (loads base (8 * vs.length) rs) m).mem = m.mem ∧
      (exec (loads base (8 * vs.length) rs) m).sys = m.sys := by
  induction rs generalizing m vs with
  | nil => exact ⟨fun _ => rfl, rfl, rfl⟩
  | cons r rs ih =>
    obtain ⟨hr, hb⟩ := not_or.mp (mt List.mem_cons.mpr hb)
    rw [List.length_cons] at hlt
    have hstep : Instr.step m (.load r base (8 * vs.length)) = m.setReg r (f r) := by
      have hv : readWord m.mem (m.addr base (8 * vs.length)) = f r := by
        rw [Machine.addr_of_lt (by omega)]
        exact h.get (by rw [List.getElem?_append_right (Nat.le_refl _), Nat.sub_self]; rfl)
      exact congrArg (m.setReg r) hv
    have hbase : (m.setReg r (f r)).reg base = m.reg base := m.setReg_of_ne _ hr
    have h' : Holds (m.setReg r (f r)).mem ((m.setReg r (f r)).reg base).toNat
        ((vs ++ [f r]) ++ rs.map f) := by
      rw [hbase, List.append_assoc]
      exact h
    obtain ⟨hregs, hmem, hsys⟩ := ih (vs ++ [f r]) h'
      (by rw [hbase, List.length_append, List.length_singleton]; omega) hb
    rw [List.length_append, List.length_singleton, Nat.mul_add] at hregs hmem hsys
    rw [loads, exec_cons, hstep]
    refine ⟨?_, hmem, hsys⟩
    intro q
    refine (hregs q).trans ?_
    by_cases hq : q ∈ rs
    · rw [if_pos hq, if_pos (List.mem_cons_of_mem r hq)]
    · rw [if_neg hq]
      by_cases hqr : q = r
      · subst hqr
        rw [if_pos List.mem_cons_self, Machine.setReg_self]
      · rw [if_neg (List.not_mem_cons_of_ne_of_not_mem hqr hq), m.setReg_of_ne _ hqr]

section syscall

variable (msr : Msrs) (next : Word) (m : Machine)

theorem syscall_r11 : (syscall msr next m).reg .r11 = m.sys.rflags := by
  simp only [syscall, Machine.setReg_self]

theorem syscall_rcx : (syscall msr next m).reg .rcx = next := by
  have h : Reg.rcx ≠ .r11 := by decide
  simp only [syscall, Machine.setReg_of_ne _ _ h, Machine.setReg_self]

theorem syscall_of_ne (hc : q ≠ .rcx) (h11 : q ≠ .r11) : (syscall msr next m).reg q = m.reg q := by
  simp only [syscall, Machine.setReg_of_ne _ _ h11, Machine.setReg_of_ne _ _ hc]

end syscall

section deliver

variable (handler selector rsp0 : Word) (m : Machine)

/-- Where the frame of an interrupt starts. -/
def frameTop : Word := (if m.sys.cs &&& 3 ≠ 0 then rsp0 else m.reg .rsp) &&& ~~~0xF

/-- What the processor pushes, from the lowest address on. -/
def frameWords (errorCode : Option Word) : List Word :=
  errorCode.toList ++ [m.sys.rip, m.sys.cs, m.sys.rflags, m.reg .rsp, m.sys.ss]

theorem deliver_onStack (errorCode : Option Word) (low : Nat)
    (hroom : low + 8 * (frameWords m errorCode).length ≤ (frameTop rsp0 m).toNat) :
    OnStack (frameTop rsp0 m).toNat low m.mem (frameWords m errorCode)
      (deliver handler selector rsp0 errorCode m) := by
  let m₀ := m.setReg .rsp (frameTop rsp0 m)
  have hsp : m₀.rsp = (frameTop rsp0 m).toNat := congrArg BitVec.toNat (m.setReg_self _ _)
  have hroom' : low + 40 ≤ m₀.rsp := by
    rw [frameWords, List.length_append] at hroom
    simp only [List.length_cons, List.length_nil] at hroom
    omega
  have h₀ : OnStack m₀.rsp low m.mem [] m₀ := onStack_nil m₀ low (by omega)
  have room {m' : Machine} {vs : List Word} (h : OnStack m₀.rsp low m.mem vs m')
      (hk : 8 * vs.length + 8 + low ≤ m₀.rsp) : low + 8 ≤ m'.rsp := by
    have hadd := h.rsp_add
    omega
  have h₁ := h₀.push (room h₀ (by rw [List.length_nil]; omega)) m.sys.ss
  have h₂ := h₁.push (room h₁ (by simp only [List.length]; omega)) (m.reg .rsp)
  have h₃ := h₂.push (room h₂ (by simp only [List.length]; omega)) m.sys.rflags
  have h₄ := h₃.push (room h₃ (by simp only [List.length]; omega)) m.sys.cs
  have h₅ := h₄.push (room h₄ (by simp only [List.length]; omega)) m.sys.rip
  rw [← hsp]
  cases errorCode with
  | none => exact h₅.congr rfl rfl
  | some e =>
    have hroom' : 8 * 6 + low ≤ m₀.rsp := by
      rw [hsp]
      simp only [frameWords, Option.toList, List.length_append, List.length_cons,
        List.length_nil] at hroom
      omega
    exact (h₅.push (room h₅ (by simp only [List.length]; omega)) e).congr rfl rfl

theorem deliver_of_ne (errorCode : Option Word) (h : q ≠ .rsp) :
    (deliver handler selector rsp0 errorCode m).reg q = m.reg q := by
  cases errorCode with
  | none => simp only [deliver, Option.elim, Machine.push_of_ne _ _ h, Machine.setReg_of_ne _ _ h]
  | some e => simp only [deliver, Option.elim, Machine.push_of_ne _ _ h, Machine.setReg_of_ne _ _ h]

end deliver

theorem iretq_of_onStack {m : Machine} {code : Word → Bool}
    (h : OnStack top low base [rip, cs, rflags, rsp, ss] m) (htop : top < 2 ^ 64) (hcs : code cs) :
    iretq code m = some { m.setReg .rsp rsp with
      sys := { m.sys with rip := rip, cs := cs, rflags := rflags, ss := ss } } := by
  have w (i : Nat) (v : Word) (hi : [rip, cs, rflags, rsp, ss][i]? = some v) := h.read htop hi
  simp only [iretq, w 0 rip rfl, w 1 cs rfl, w 2 rflags rfl, w 3 rsp rfl, w 4 ss rfl, if_pos hcs]

end X64
