import BiosKernel.Lib.X64
import BiosKernel.Process.Sched

namespace BiosKernel
set_option autoImplicit true

open X64

/-- The access bytes of `gdt64`. The descriptor of the TSS takes two places. -/
def gdt64 : List (BitVec 8) :=
  [0, 0b10011010, 0b10010010, 0b11111010, 0b11110010, 0b10001001, 0]

/-- A selector that `iretq` can load into `cs`: a present code segment of the selector's ring. -/
def codeSegment (sel : Word) : Bool :=
  match gdt64[(sel >>> 3).toNat]? with
  | some access => sel &&& 4 == 0 && access &&& 0b10011000 == 0b10011000 &&
      (access >>> 5 &&& 3).zeroExtend 64 == sel &&& 3
  | none => false

/-- `KERNEL_CS_SELECTOR_OFFSET_GDT`. -/
def kernelCsSelector : Word := 0x08

namespace Isr

/-- The registers in the order in which they are pushed. -/
def pushed : List Reg :=
  [.rdi, .rsi, .rdx, .rcx, .rax, .r8, .r9, .r10, .r11, .rbx, .rbp, .r12, .r13, .r14, .r15]

/-- The registers in the order in which they are popped. -/
def popped : List Reg :=
  [.r15, .r14, .r13, .r12, .rbp, .rbx, .r11, .r10, .r9, .r8, .rax, .rcx, .rdx, .rsi, .rdi]

/-- The macro `PUSHALL`. -/
def pushall : List Instr := pushed.map .push ++ [.readCr2 .rax, .push .rax]

/-- The macro `POPALL`. -/
def popall : List Instr := [.pop .rax, .writeCr2 .rax] ++ popped.map .pop

/-- `SAVE_REGS_AND_CALL_HANDLER` up to the call. -/
def saveRegs : List Instr :=
  pushall ++ [.load .rdi .rsp 0x80, .load .rsi .rsp (0x80 + 0x08), .mov .rdx .rsp]

/-- The macros `ISR_NOERRCODE` and `ISR_ERRCODE`. -/
inductive Stub where
  | noErrCode
  | errCode
  deriving DecidableEq

/-- `handle_<vector>_isr` up to the call of `isr_handler`. -/
def Stub.entry (vector : Nat) : Stub → List Instr
  | .noErrCode => [.cli, .pushImm 0, .pushImm (BitVec.ofNat 64 vector)] ++ saveRegs
  | .errCode => [.cli, .pushImm (BitVec.ofNat 64 vector)] ++ saveRegs

/-- `handle_<vector>_isr` behind the call, up to `iretq`. -/
def exit : List Instr := popall ++ [.addImm .rsp 0x10, .sti]

/-- The stubs that `isr_entry.s` has. -/
def stub (vector : Nat) : Option Stub :=
  if 10 ≤ vector ∧ vector ≤ 14 then some .errCode
  else if vector ≤ 34 ∨ vector = 43 then some .noErrCode
  else none

end Isr

namespace Registers

/-- The general registers in the frame. -/
def reg (r : Registers) : Reg → Word
  | .rax => BitVec.ofNat 64 r.rax
  | .rbx => BitVec.ofNat 64 r.rbx
  | .rcx => BitVec.ofNat 64 r.rcx
  | .rdx => BitVec.ofNat 64 r.rdx
  | .rsi => BitVec.ofNat 64 r.rsi
  | .rdi => BitVec.ofNat 64 r.rdi
  | .rbp => BitVec.ofNat 64 r.rbp
  | .rsp => BitVec.ofNat 64 r.rsp
  | .r8 => BitVec.ofNat 64 r.r8
  | .r9 => BitVec.ofNat 64 r.r9
  | .r10 => BitVec.ofNat 64 r.r10
  | .r11 => BitVec.ofNat 64 r.r11
  | .r12 => BitVec.ofNat 64 r.r12
  | .r13 => BitVec.ofNat 64 r.r13
  | .r14 => BitVec.ofNat 64 r.r14
  | .r15 => BitVec.ofNat 64 r.r15

/-- The structure as it lies in memory. -/
def words (r : Registers) : List Word :=
  [r.cr2, r.r15, r.r14, r.r13, r.r12, r.rbp, r.rbx, r.r11, r.r10, r.r9, r.r8, r.rax, r.rcx, r.rdx,
    r.rsi, r.rdi, r.irqNumber, r.errorCode, r.rip, r.cs, r.eflags, r.rsp, r.ss].map
    (BitVec.ofNat 64)

theorem words_length (r : Registers) : r.words.length = 23 := rfl

/-- The structure behind a pointer. -/
def read (m : ByteMem.Mem) (a : Nat) : Registers :=
  let word (i : Nat) := (readWord m (a + 8 * i)).toNat
  { cr2 := word 0, r15 := word 1, r14 := word 2, r13 := word 3, r12 := word 4, rbp := word 5
    rbx := word 6, r11 := word 7, r10 := word 8, r9 := word 9, r8 := word 10, rax := word 11
    rcx := word 12, rdx := word 13, rsi := word 14, rdi := word 15, irqNumber := word 16
    errorCode := word 17, rip := word 18, cs := word 19, eflags := word 20, rsp := word 21
    ss := word 22 }

/-- The frame of an interrupt that stops the machine. -/
def ofMachine (m : Machine) (irqNumber errorCode : Word) : Registers :=
  let reg (q : Reg) := (m.reg q).toNat
  { cr2 := m.sys.cr2.toNat, r15 := reg .r15, r14 := reg .r14, r13 := reg .r13, r12 := reg .r12
    rbp := reg .rbp, rbx := reg .rbx, r11 := reg .r11, r10 := reg .r10, r9 := reg .r9, r8 := reg .r8
    rax := reg .rax, rcx := reg .rcx, rdx := reg .rdx, rsi := reg .rsi, rdi := reg .rdi
    irqNumber := irqNumber.toNat, errorCode := errorCode.toNat, rip := m.sys.rip.toNat
    cs := m.sys.cs.toNat, eflags := m.sys.rflags.toNat, rsp := reg .rsp, ss := m.sys.ss.toNat }

theorem ofMachine_reg (m : Machine) (v e : Word) : (ofMachine m v e).reg = m.reg := by
  funext q
  cases q <;> simp [reg, ofMachine]

theorem ofMachine_words (m : Machine) (v e : Word) : (ofMachine m v e).words =
    m.sys.cr2 :: Isr.popped.map m.reg ++
      [v, e, m.sys.rip, m.sys.cs, m.sys.rflags, m.reg .rsp, m.sys.ss] := by
  simp [words, ofMachine, Isr.popped]

theorem read_of_holds (h : X64.Holds m a (ofMachine m' v e).words) :
    read m a = ofMachine m' v e := by
  rw [ofMachine_words] at h
  have w (i : Nat) (x : Word) (hi : _ = some x) := h.get (i := i) hi
  simp only [read, w 0 _ rfl, w 1 _ rfl, w 2 _ rfl, w 3 _ rfl, w 4 _ rfl, w 5 _ rfl, w 6 _ rfl,
    w 7 _ rfl, w 8 _ rfl, w 9 _ rfl, w 10 _ rfl, w 11 _ rfl, w 12 _ rfl, w 13 _ rfl, w 14 _ rfl,
    w 15 _ rfl, w 16 _ rfl, w 17 _ rfl, w 18 _ rfl, w 19 _ rfl, w 20 _ rfl, w 21 _ rfl, w 22 _ rfl]
  rfl

end Registers

namespace Isr

theorem saveRegs_onStack {m : Machine} (h : OnStack top low base (v :: e :: vs) m)
    (htop : top < 2 ^ 64) (hroom : low + 128 ≤ m.rsp) :
    OnStack top low base (m.sys.cr2 :: popped.map m.reg ++ v :: e :: vs) (exec saveRegs m) ∧
      (exec saveRegs m).reg .rdi = v ∧ (exec saveRegs m).reg .rsi = e ∧
      (exec saveRegs m).reg .rdx = (exec saveRegs m).reg .rsp ∧
      (exec saveRegs m).sys = m.sys := by
  obtain ⟨hp, _, hsys⟩ := exec_pushes pushed h (by decide)
    (by simp only [pushed, List.length]; omega)
  rw [← List.map_reverse, show pushed.reverse = popped from rfl] at hp
  rw [saveRegs, pushall, exec_append, exec_append]
  generalize exec (pushed.map .push) m = m₁ at hp hsys
  have hcr2 : OnStack top low base (m.sys.cr2 :: popped.map m.reg ++ v :: e :: vs)
      (exec [.readCr2 .rax, .push .rax] m₁) := by
    have hsp := hp.rsp_add
    have hadd := h.rsp_add
    simp only [List.length_append, List.length_map, List.length_cons, popped, List.length_nil]
      at hsp hadd
    have hrax : (m₁.setReg .rax m₁.sys.cr2).reg .rax = m.sys.cr2 := by
      rw [Machine.setReg_self, hsys]
    rw [← hrax]
    apply (hp.setReg (r := .rax) (by decide) m₁.sys.cr2).push
    rw [Machine.rsp, m₁.setReg_of_ne _ (by decide)]
    show low + 8 ≤ m₁.rsp
    omega
  have hsys' : (exec [.readCr2 .rax, .push .rax] m₁).sys = m.sys := hsys
  generalize exec [.readCr2 .rax, .push .rax] m₁ = m₂ at hcr2 hsys'
  have hrdi : Instr.step m₂ (.load .rdi .rsp 0x80) = m₂.setReg .rdi v :=
    congrArg (m₂.setReg .rdi) (hcr2.read (i := 16) htop rfl)
  have hargs := hcr2.setReg (r := .rdi) (by decide) v
  have hrsi : Instr.step (m₂.setReg .rdi v) (.load .rsi .rsp (0x80 + 0x08)) =
      (m₂.setReg .rdi v).setReg .rsi e :=
    congrArg ((m₂.setReg .rdi v).setReg .rsi) (hargs.read (i := 17) htop rfl)
  rw [exec_cons, hrdi, exec_cons, hrsi, exec_cons, exec_nil]
  refine ⟨(hargs.setReg (by decide) e).setReg (by decide) _, rfl, rfl, rfl, hsys'⟩

section entry

variable (handler rsp0 : Word) (vector : Nat) (m : Machine)

/-- What every stub does before it saves the registers: one word is pushed, and then the number. -/
theorem entry_onStack {m₁ : Machine} (h : OnStack top low m.mem (e :: vs) m₁) (htop : top < 2 ^ 64)
    (hroom : low + 136 ≤ m₁.rsp) (hreg : ∀ q, q ≠ .rsp → m₁.reg q = m.reg q)
    (hcr2 : m₁.sys.cr2 = m.sys.cr2) :
    let m₂ := exec saveRegs (m₁.push (BitVec.ofNat 64 vector))
    OnStack top low m.mem
        (m.sys.cr2 :: popped.map m.reg ++ BitVec.ofNat 64 vector :: e :: vs) m₂ ∧
      m₂.reg .rdi = BitVec.ofNat 64 vector ∧ m₂.reg .rsi = e ∧ m₂.reg .rdx = m₂.reg .rsp ∧
      m₂.sys = m₁.sys := by
  have hp := h.push (by omega) (BitVec.ofNat 64 vector)
  have hsp := hp.rsp_add
  have hadd := h.rsp_add
  rw [List.length_cons] at hsp
  have hs := saveRegs_onStack hp htop (by omega)
  have hmap : popped.map (m₁.push (BitVec.ofNat 64 vector)).reg = popped.map m.reg := by
    apply List.map_congr_left
    intro q hq
    have hne : q ≠ .rsp := by
      rintro rfl
      exact absurd hq (by decide)
    rw [m₁.push_of_ne _ hne, hreg q hne]
  rw [hmap, show (m₁.push (BitVec.ofNat 64 vector)).sys.cr2 = m.sys.cr2 from hcr2] at hs
  exact hs

/-- The exceptions for which the processor pushes an error code. -/
def hasErrorCode (vector : Nat) : Bool := [8, 10, 11, 12, 13, 14, 17, 21, 29, 30].contains vector

/-- The machine at the call of `isr_handler`, with `e` for the error code of an exception. -/
def taken (e : Word) (s : Stub) : Machine :=
  exec (s.entry vector)
    (deliver handler kernelCsSelector rsp0 (if hasErrorCode vector then some e else none) m)

theorem taken_sys (e : Word) (s : Stub) : (taken handler rsp0 vector m e s).sys.cr3 = m.sys.cr3 ∧
    (taken handler rsp0 vector m e s).sys.gsBase = m.sys.gsBase ∧
    (taken handler rsp0 vector m e s).sys.kernelGsBase = m.sys.kernelGsBase := by
  cases s <;> exact ⟨rfl, rfl, rfl⟩

variable {m}

theorem deliver_room (code : Option Word)
    (hroom : low + 8 * (k + (frameWords m code).length) ≤ (frameTop rsp0 m).toNat) :
    low + 8 * k ≤ (deliver handler kernelCsSelector rsp0 code m).rsp := by
  have hadd := (deliver_onStack handler kernelCsSelector rsp0 m code low (by omega)).rsp_add
  omega

theorem noErrCode_onStack (code : Option Word)
    (hroom : low + 8 * (18 + (frameWords m code).length) ≤ (frameTop rsp0 m).toNat) :
    let m₂ := exec (Stub.entry vector .noErrCode) (deliver handler kernelCsSelector rsp0 code m)
    OnStack (frameTop rsp0 m).toNat low m.mem
        (m.sys.cr2 :: popped.map m.reg ++ BitVec.ofNat 64 vector :: 0 :: frameWords m code) m₂ ∧
      m₂.reg .rdi = BitVec.ofNat 64 vector ∧ m₂.reg .rsi = 0 ∧ m₂.reg .rdx = m₂.reg .rsp := by
  have hroom' := deliver_room handler rsp0 code hroom
  have hd := deliver_onStack handler kernelCsSelector rsp0 m code low (by omega)
  have hreg (q : Reg) (hq : q ≠ .rsp) := deliver_of_ne handler kernelCsSelector rsp0 m code hq
  have hcr2 : (deliver handler kernelCsSelector rsp0 code m).sys.cr2 = m.sys.cr2 := rfl
  generalize deliver handler kernelCsSelector rsp0 code m = m₁ at *
  have hcli : OnStack _ low m.mem _ (Instr.step m₁ .cli) := hd.congr rfl rfl
  have h0 := hcli.push (show low + 8 ≤ m₁.rsp by omega) 0
  have hsp := h0.rsp_add
  have hadd := hd.rsp_add
  rw [List.length_cons] at hsp
  have hexec : exec (Stub.entry vector .noErrCode) m₁ =
      exec saveRegs (((Instr.step m₁ .cli).push 0).push (BitVec.ofNat 64 vector)) := by
    rw [Stub.entry, exec_append]
    rfl
  obtain ⟨hs, hrdi, hrsi, hrdx, _⟩ := entry_onStack vector m h0 (BitVec.isLt _) (by omega)
    (fun q hq => (Machine.push_of_ne _ _ hq).trans (hreg q hq)) hcr2
  dsimp only
  rw [hexec]
  exact ⟨hs, hrdi, hrsi, hrdx⟩

theorem errCode_onStack (e : Word)
    (hroom : low + 8 * (17 + (frameWords m (some e)).length) ≤ (frameTop rsp0 m).toNat) :
    let m₂ := exec (Stub.entry vector .errCode) (deliver handler kernelCsSelector rsp0 (some e) m)
    OnStack (frameTop rsp0 m).toNat low m.mem
        (m.sys.cr2 :: popped.map m.reg ++ BitVec.ofNat 64 vector :: frameWords m (some e)) m₂ ∧
      m₂.reg .rdi = BitVec.ofNat 64 vector ∧ m₂.reg .rsi = e ∧ m₂.reg .rdx = m₂.reg .rsp := by
  have hroom' := deliver_room handler rsp0 (some e) hroom
  have hd := deliver_onStack handler kernelCsSelector rsp0 m (some e) low (by omega)
  have hreg (q : Reg) (hq : q ≠ .rsp) := deliver_of_ne handler kernelCsSelector rsp0 m (some e) hq
  have hcr2 : (deliver handler kernelCsSelector rsp0 (some e) m).sys.cr2 = m.sys.cr2 := rfl
  generalize deliver handler kernelCsSelector rsp0 (some e) m = m₁ at *
  have hcli : OnStack _ low m.mem _ (Instr.step m₁ .cli) := hd.congr rfl rfl
  have hexec : exec (Stub.entry vector .errCode) m₁ =
      exec saveRegs ((Instr.step m₁ .cli).push (BitVec.ofNat 64 vector)) := by
    rw [Stub.entry, exec_append]
    rfl
  obtain ⟨hs, hrdi, hrsi, hrdx, _⟩ := entry_onStack vector m hcli (BitVec.isLt _) hroom' hreg hcr2
  dsimp only
  rw [hexec]
  exact ⟨hs, hrdi, hrsi, hrdx⟩

/-- Where the stub expects an error code exactly when the processor pushes one, `isr_handler` gets
the registers of the interrupted code. -/
theorem taken_onStack (e : Word) (hs : s = .errCode ↔ hasErrorCode vector)
    (hroom : low + 184 ≤ (frameTop rsp0 m).toNat) :
    let code := if hasErrorCode vector then e else 0
    let m₂ := taken handler rsp0 vector m e s
    OnStack (frameTop rsp0 m).toNat low m.mem
        (Registers.ofMachine m (BitVec.ofNat 64 vector) code).words m₂ ∧
      m₂.reg .rdi = BitVec.ofNat 64 vector ∧ m₂.reg .rsi = code ∧ m₂.reg .rdx = m₂.reg .rsp := by
  dsimp only
  rw [Registers.ofMachine_words, taken]
  cases s with
  | noErrCode =>
    have hno : ¬ hasErrorCode vector := fun h => Stub.noConfusion (hs.mpr h)
    rw [if_neg hno, if_neg hno]
    exact noErrCode_onStack handler rsp0 vector none hroom
  | errCode =>
    rw [if_pos (hs.mp rfl), if_pos (hs.mp rfl)]
    exact errCode_onStack handler rsp0 vector e hroom

end entry

theorem mem_popped (h : q ≠ .rsp) : q ∈ popped := by
  cases q <;> first | exact absurd rfl h | decide

theorem exit_onStack {m : Machine} {r : Registers} (h : OnStack top low base r.words m)
    (htop : top < 2 ^ 64) :
    OnStack top low base ([r.rip, r.cs, r.eflags, r.rsp, r.ss].map (BitVec.ofNat 64))
        (exec exit m) ∧
      (∀ q, q ≠ .rsp → (exec exit m).reg q = r.reg q) ∧ (exec exit m).mem = m.mem ∧
      (exec exit m).sys = { m.sys with
        cr2 := BitVec.ofNat 64 r.cr2, rflags := m.sys.rflags ||| interruptFlag } := by
  have hcr2 : OnStack top low base (popped.map r.reg ++
      [r.irqNumber, r.errorCode, r.rip, r.cs, r.eflags, r.rsp, r.ss].map (BitVec.ofNat 64))
      (exec [.pop .rax, .writeCr2 .rax] m) :=
    ((h.drop htop).setReg (r := .rax) (by decide) m.top).congr rfl rfl
  obtain ⟨hp, hregs, hsys, hmem⟩ := exec_pops hcr2 htop (by decide)
  have hsys₁ : (exec [.pop .rax, .writeCr2 .rax] m).sys = { m.sys with cr2 := m.top } := by
    simp only [exec_cons, exec_nil, Instr.step, Machine.setReg_self]
    rfl
  rw [exit, popall, exec_append, exec_append]
  rw [hsys₁, show m.top = BitVec.ofNat 64 r.cr2 from h.top_eq] at hsys
  generalize exec (popped.map .pop) (exec [.pop .rax, .writeCr2 .rax] m) = m₁ at hp hregs hsys hmem
  have hadd : (exec [.addImm .rsp 0x10, .sti] m₁).reg .rsp = m₁.drop.drop.reg .rsp := by
    rw [Machine.drop_rsp, Machine.drop_rsp, BitVec.add_assoc]
    exact m₁.setReg_self (m₁.reg .rsp + 0x10) .rsp
  refine ⟨((hp.drop htop).drop htop).congr hadd rfl, ?_, hmem, ?_⟩
  · intro q hq
    have hq' : (exec [.addImm .rsp 0x10, .sti] m₁).reg q = m₁.reg q := Machine.setReg_of_ne _ _ hq
    rw [hq', hregs q hq, if_pos (mem_popped hq)]
  · show { m₁.sys with rflags := m₁.sys.rflags ||| interruptFlag } = _
    rw [hsys]

theorem exit_iretq {m : Machine} {r : Registers} (h : OnStack top low base r.words m)
    (htop : top < 2 ^ 64) (hcs : codeSegment (BitVec.ofNat 64 r.cs)) :
    iretq codeSegment (exec exit m) = some
      { reg := r.reg, mem := m.mem, sys := { m.sys with
        rip := BitVec.ofNat 64 r.rip, cs := BitVec.ofNat 64 r.cs, rflags := BitVec.ofNat 64 r.eflags
        ss := BitVec.ofNat 64 r.ss, cr2 := BitVec.ofNat 64 r.cr2 } } := by
  obtain ⟨hs, hregs, hmem, hsys⟩ := exit_onStack h htop
  generalize exec exit m = m₁ at hs hregs hmem hsys
  have hreg : (m₁.setReg .rsp (BitVec.ofNat 64 r.rsp)).reg = r.reg := by
    funext q
    by_cases hq : q = .rsp
    · subst hq
      exact Machine.setReg_self ..
    · rw [Machine.setReg_of_ne _ _ hq, hregs q hq]
  rw [iretq_of_onStack hs htop hcs]
  dsimp only
  rw [hreg, hsys, show (m₁.setReg .rsp (BitVec.ofNat 64 r.rsp)).mem = m.mem from hmem]

section interrupt

variable {m m₂ : Machine} {vector : Nat} (handler rsp0 e : Word)

theorem stub_irq (hstub : stub vector = some s) (hirq : 32 ≤ vector) :
    ¬ hasErrorCode vector ∧ (s = .errCode ↔ hasErrorCode vector) := by
  have hno : ¬ hasErrorCode vector := by
    intro h
    have hmem := List.contains_iff_mem.mp h
    simp only [List.mem_cons, List.not_mem_nil, or_false] at hmem
    omega
  refine ⟨hno, ?_⟩
  rw [stub, if_neg (by omega)] at hstub
  split at hstub
  · cases hstub
    exact ⟨fun h => Stub.noConfusion h, fun h => absurd h hno⟩
  · cases hstub

theorem irq_onStack (hstub : stub vector = some s) (hirq : 32 ≤ vector)
    (hroom : low + 184 ≤ (frameTop rsp0 m).toNat) :
    OnStack (frameTop rsp0 m).toNat low m.mem
        (Registers.ofMachine m (BitVec.ofNat 64 vector) 0).words (taken handler rsp0 vector m e s) ∧
      (taken handler rsp0 vector m e s).reg .rdi = BitVec.ofNat 64 vector ∧
      (taken handler rsp0 vector m e s).reg .rdx = (taken handler rsp0 vector m e s).reg .rsp := by
  obtain ⟨hno, hs⟩ := stub_irq hstub hirq
  obtain ⟨ht, hrdi, -, hrdx⟩ := taken_onStack handler rsp0 vector e hs hroom
  rw [if_neg hno] at ht
  exact ⟨ht, hrdi, hrdx⟩

theorem read_irq (hstub : stub vector = some s) (hirq : 32 ≤ vector)
    (hroom : 184 ≤ (frameTop rsp0 m).toNat) :
    Registers.read (taken handler rsp0 vector m e s).mem
        ((taken handler rsp0 vector m e s).reg .rdx).toNat =
      Registers.ofMachine m (BitVec.ofNat 64 vector) 0 := by
  obtain ⟨ht, -, hrdx⟩ := irq_onStack (m := m) handler rsp0 e hstub hirq (show 0 + 184 ≤ _ by omega)
  rw [hrdx]
  exact Registers.read_of_holds ht.holds

theorem irq_iretq {r : Registers} (hstub : stub vector = some s) (hirq : 32 ≤ vector)
    (hroom : 184 ≤ (frameTop rsp0 m).toNat) (hcs : codeSegment (BitVec.ofNat 64 r.cs))
    (hrsp : m₂.reg .rsp = (taken handler rsp0 vector m e s).reg .rsp)
    (hframe : X64.Holds m₂.mem m₂.rsp r.words) :
    iretq codeSegment (exec exit m₂) = some
      { reg := r.reg, mem := m₂.mem, sys := { m₂.sys with
        rip := BitVec.ofNat 64 r.rip, cs := BitVec.ofNat 64 r.cs, rflags := BitVec.ofNat 64 r.eflags
        ss := BitVec.ofNat 64 r.ss, cr2 := BitVec.ofNat 64 r.cr2 } } := by
  obtain ⟨ht, -, -⟩ := irq_onStack (m := m) handler rsp0 e hstub hirq (show 0 + 184 ≤ _ by omega)
  have hadd := ht.rsp_add
  have hrsp' : m₂.rsp = (taken handler rsp0 vector m e s).rsp := congrArg BitVec.toNat hrsp
  have h₂ : OnStack (frameTop rsp0 m).toNat m₂.rsp m₂.mem r.words m₂ := by
    refine ⟨?_, Nat.le_refl _, hframe, fun _ _ => rfl⟩
    rw [hrsp', Registers.words_length]
    exact hadd
  exact exit_iretq h₂ (BitVec.isLt _) hcs

/-- The stub and `isr_handler` are invisible to the code that an interrupt of a device stops. The
handler gets the number and its registers. If it leaves the frame and the stack pointer as they
were, that code goes on with every register as it was, and only the frame has been written. -/
theorem interrupt_returns (hstub : stub vector = some s) (hirq : 32 ≤ vector)
    (hroom : 184 ≤ (frameTop rsp0 m).toNat) (hcs : codeSegment m.sys.cs)
    (hrsp : m₂.reg .rsp = (taken handler rsp0 vector m e s).reg .rsp)
    (hframe : ∀ x, m₂.rsp ≤ x → x < m₂.rsp + 184 →
      m₂.mem x = (taken handler rsp0 vector m e s).mem x) :
    (taken handler rsp0 vector m e s).reg .rdi = BitVec.ofNat 64 vector ∧
      Registers.read (taken handler rsp0 vector m e s).mem
        ((taken handler rsp0 vector m e s).reg .rdx).toNat =
        Registers.ofMachine m (BitVec.ofNat 64 vector) 0 ∧
      (∀ x, (frameTop rsp0 m).toNat ≤ x ∨ x + 184 < (frameTop rsp0 m).toNat →
        (taken handler rsp0 vector m e s).mem x = m.mem x) ∧
      iretq codeSegment (exec exit m₂) = some { m with
        mem := m₂.mem
        sys := { m.sys with
          cr3 := m₂.sys.cr3, gsBase := m₂.sys.gsBase, kernelGsBase := m₂.sys.kernelGsBase } } := by
  obtain ⟨ht, hrdi, -⟩ := irq_onStack (m := m) handler rsp0 e hstub hirq
    (show (frameTop rsp0 m).toNat - 184 + 184 ≤ _ by omega)
  refine ⟨hrdi, read_irq handler rsp0 e hstub hirq hroom, ?_, ?_⟩
  · intro x hx
    exact ht.frame x (by omega)
  · have hrsp' : m₂.rsp = (taken handler rsp0 vector m e s).rsp := congrArg BitVec.toNat hrsp
    have hholds : X64.Holds m₂.mem m₂.rsp
        (Registers.ofMachine m (BitVec.ofNat 64 vector) 0).words := by
      rw [hrsp']
      apply ht.holds.congr
      intro x hx hx'
      rw [Registers.words_length] at hx'
      exact hframe x (by omega) (by omega)
    have hcs' :
        codeSegment (BitVec.ofNat 64 (Registers.ofMachine m (BitVec.ofNat 64 vector) 0).cs) := by
      simpa [Registers.ofMachine] using hcs
    rw [irq_iretq (m := m) handler rsp0 e hstub hirq hroom hcs' hrsp hholds,
      Registers.ofMachine_reg]
    simp [Registers.ofMachine]

/-- A process that has just been started. -/
def startedProcess : Machine where
  reg r := if r = .rsp then 0x3FFFFEA else 0
  mem _ := 0
  sys :=
    { rip := 0x4000000, rflags := 0x202, cs := 0x1B, ss := 0x23, cr2 := 0, cr3 := 0xB00000
      gsBase := 0, kernelGsBase := 0x820100 }

/-- A timer interrupt whose handler does nothing, on the stack that the TSS names. -/
theorem interrupt_returns_process :
    let m := taken 0x811000 0x810000 32 startedProcess 0 .noErrCode
    m.reg .rdi = 32 ∧
      iretq codeSegment (exec exit m) = some { startedProcess with mem := m.mem } := by
  have hret := interrupt_returns (m := startedProcess) 0x811000 0x810000 0
    (show stub 32 = some .noErrCode by decide) (by decide) (by decide) (by decide)
    (show (taken 0x811000 0x810000 32 startedProcess 0 .noErrCode).reg .rsp = _ from rfl)
    (fun _ _ _ => rfl)
  exact ⟨hret.1, hret.2.2.2⟩

/-- The registers that `isr_handler` prints for an exception are those of the code that raised it,
but for the five exceptions whose error code the stub does not expect. -/
theorem read_taken_iff (hstub : stub vector = some s) (hroom : 192 ≤ (frameTop rsp0 m).toNat)
    (hcs : codeSegment m.sys.cs) :
    Registers.read (taken handler rsp0 vector m e s).mem
        ((taken handler rsp0 vector m e s).reg .rdx).toNat =
        Registers.ofMachine m (BitVec.ofNat 64 vector) (if hasErrorCode vector then e else 0) ↔
      vector ∉ [8, 17, 21, 29, 30] := by
  have hv : s = .errCode ∧ hasErrorCode vector ∧ vector ∉ [8, 17, 21, 29, 30] ∨
      s = .noErrCode ∧ (hasErrorCode vector ↔ vector ∈ [8, 17, 21, 29, 30]) := by
    simp only [hasErrorCode, List.contains_iff_mem, List.mem_cons, List.not_mem_nil, or_false]
    rw [stub] at hstub
    split at hstub
    · cases hstub
      exact .inl ⟨rfl, by omega, by omega⟩
    · split at hstub
      · cases hstub
        exact .inr ⟨rfl, by omega⟩
      · cases hstub
  have faithful (hs : s = .errCode ↔ hasErrorCode vector) :
      Registers.read (taken handler rsp0 vector m e s).mem
        ((taken handler rsp0 vector m e s).reg .rdx).toNat =
        Registers.ofMachine m (BitVec.ofNat 64 vector) (if hasErrorCode vector then e else 0) := by
    obtain ⟨ht, -, -, hrdx⟩ := taken_onStack (m := m) handler rsp0 vector e hs
      (show 0 + 184 ≤ _ by omega)
    rw [hrdx]
    exact Registers.read_of_holds ht.holds
  obtain ⟨rfl, hcode, hnot⟩ | ⟨rfl, hcode⟩ := hv
  · exact iff_of_true (faithful (iff_of_true rfl hcode)) hnot
  · by_cases hmem : vector ∈ [8, 17, 21, 29, 30]
    -- The structure starts one word too low, so `rip` is the error code and `cs` is `rip`.
    · refine iff_of_false (fun h => ?_) (not_not_intro hmem)
      obtain ⟨ht, -, -, hrdx⟩ := noErrCode_onStack (m := m) handler rsp0 vector (some e)
        (show 0 + _ ≤ _ by
          simp only [frameWords, Option.toList, List.length_append, List.length_cons,
            List.length_nil]
          omega)
      rw [taken, if_pos (hcode.mpr hmem), if_pos (hcode.mpr hmem), hrdx] at h
      generalize exec (Stub.entry vector .noErrCode) _ = m₂ at ht h
      have hcode : (readWord m₂.mem (m₂.rsp + 8 * 17)).toNat = e.toNat :=
        congrArg Registers.errorCode h
      have hrip : (readWord m₂.mem (m₂.rsp + 8 * 18)).toNat = m.sys.rip.toNat :=
        congrArg Registers.rip h
      have hcs' : (readWord m₂.mem (m₂.rsp + 8 * 19)).toNat = m.sys.cs.toNat :=
        congrArg Registers.cs h
      rw [ht.holds.get (i := 17) rfl] at hcode
      rw [ht.holds.get (i := 18) rfl, ← hcode] at hrip
      rw [ht.holds.get (i := 19) rfl, ← hrip] at hcs'
      rw [← BitVec.eq_of_toNat_eq hcs'] at hcs
      exact absurd hcs (by decide)
    · refine iff_of_true (faithful ?_) hmem
      exact iff_of_false (fun h => Stub.noConfusion h) (fun h => hmem (hcode.mp h))

/-- A page fault is shown as it is, and a double fault is not. -/
theorem read_taken_page_fault :
    let m := taken 0x811000 0x810000 14 startedProcess 6 .errCode
    let m' := taken 0x811000 0x810000 8 startedProcess 0 .noErrCode
    Registers.read m.mem (m.reg .rdx).toNat = Registers.ofMachine startedProcess 14 6 ∧
      Registers.read m'.mem (m'.reg .rdx).toNat ≠ Registers.ofMachine startedProcess 8 0 := by
  refine ⟨?_, ?_⟩
  · exact (read_taken_iff (m := startedProcess) 0x811000 0x810000 6
      (show stub 14 = some .errCode by decide) (by decide) (by decide)).mpr (by decide)
  · exact fun h => (read_taken_iff (m := startedProcess) 0x811000 0x810000 0
      (show stub 8 = some .noErrCode by decide) (by decide) (by decide)).mp h (by decide)

end interrupt

end Isr

end BiosKernel
