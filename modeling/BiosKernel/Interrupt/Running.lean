import BiosKernel.Interrupt.IsrHandler
import BiosKernel.Interrupt.SyscallEntry

namespace BiosKernel
set_option autoImplicit true

open X64

/-- What the gates, the TSS and the registers of `syscall` lead to, and the functions behind the
table of the system calls. -/
structure Entries where
  handler : Nat → Word
  rsp0 : Word
  syscallEntry : Word
  image : KernelImage
  call : Nat → CpuState → Cpu → Option (Int × Cpu)

/-- The processor while it runs a process, and the scheduler. -/
structure Running where
  machine : Machine
  sched : Sched

/-- What a process sees of the processor. -/
structure UserState where
  reg : Reg → Word
  rip : Word
  rflags : Word

def UserState.ofMachine (m : Machine) : UserState := ⟨m.reg, m.sys.rip, m.sys.rflags⟩

/-- What `jump_usermode` makes of a context. -/
def UserState.ofContext (c : CpuState) : UserState :=
  ⟨c.reg, BitVec.ofNat 64 c.rip, BitVec.ofNat 64 c.eflags ||| 0x202⟩

/-- The state of a process: the processor's while it runs, and else the one that it goes on with. -/
def Running.view (x : Running) (p : Nat) : UserState :=
  if p = x.sched.currentPcb then .ofMachine x.machine else .ofContext (x.sched.pcb p).cpuContext

/-- What `syscall_handler` gets: the registers of its caller, with the stack pointer of the call. -/
def SyscallPath.callerContext (m : Machine) (next : Word) : CpuState :=
  let reg (q : Reg) := (m.reg q).toNat
  { r15 := reg .r15, r14 := reg .r14, r13 := reg .r13, r12 := reg .r12, rbp := reg .rbp
    rbx := reg .rbx, r11 := reg .r11, r10 := reg .r10, r9 := reg .r9, r8 := reg .r8, rax := reg .rax
    rcx := reg .rcx, rdx := reg .rdx, rsi := reg .rsi, rdi := reg .rdi
    eflags := m.sys.rflags.toNat, rip := next.toNat, rsp := (callerRsp m).toNat }

/-- The structure behind a pointer. -/
def CpuState.read (m : ByteMem.Mem) (a : Nat) : CpuState :=
  let word (i : Nat) := (readWord m (a + 8 * i)).toNat
  { r15 := word 0, r14 := word 1, r13 := word 2, r12 := word 3, rbp := word 4, rbx := word 5
    r11 := word 6, r10 := word 7, r9 := word 8, r8 := word 9, rax := word 10, rcx := word 11
    rdx := word 12, rsi := word 13, rdi := word 14, eflags := word 15, rip := word 16
    rsp := word 17 }

theorem SyscallPath.read_called {m : Machine} (syscallEntry next : Word) (h : Layout m kstack) :
    CpuState.read (called syscallEntry next m).mem ((called syscallEntry next m).reg .rdi).toNat =
      callerContext m next := by
  obtain ⟨hctx, hrdi, -⟩ := called_context syscallEntry next h
  rw [hrdi]
  have w (i : Nat) (v : Word) (hi : (contextWords m next)[i]? = some v) := hctx.get hi
  simp only [CpuState.read, w 0 _ rfl, w 1 _ rfl, w 2 _ rfl, w 3 _ rfl, w 4 _ rfl, w 5 _ rfl,
    w 6 _ rfl, w 7 _ rfl, w 8 _ rfl, w 9 _ rfl, w 10 _ rfl, w 11 _ rfl, w 12 _ rfl, w 13 _ rfl,
    w 14 _ rfl, w 15 _ rfl, w 16 _ rfl, w 17 _ rfl]
  rfl

/-- The state behind the handler, if it comes back. -/
def SyscallOutcome.back : SyscallOutcome → Option Cpu
  | .fault => none
  | .rejected c => some c
  | .called _ returned => returned.map (·.2)

/-- A step of code in ring 3, which cannot change the interrupt flag. The only code segment that it
can load is the user's, and bit 1 of the flags is always set. -/
structure UserStep (m m' : Machine) : Prop where
  cs : m'.sys.cs = m.sys.cs ∨ m'.sys.cs = userCsSelector
  cr3 : m'.sys.cr3 = m.sys.cr3
  kernelGsBase : m'.sys.kernelGsBase = m.sys.kernelGsBase
  rflags : m'.sys.rflags &&& 0x202 = m.sys.rflags &&& 0x202

/-- The machine `m` is the one behind `isr_handler`, which an interrupt of a device has called. -/
structure Handled (k : Entries) (x : Running) (vector : Nat) (m : Machine) (c : Cpu) : Prop where
  enabled : x.machine.sys.rflags &&& interruptFlag ≠ 0
  stub : Isr.stub vector = some .noErrCode
  room : 184 ≤ (frameTop k.rsp0 x.machine).toNat
  handled :
    let t := Isr.taken (k.handler vector) k.rsp0 vector x.machine 0 .noErrCode
    ∃ r, isrHandler vector (Registers.read t.mem (t.reg .rdx).toNat) ⟨t.sys.cr3.toNat, x.sched⟩ =
        some (r, c) ∧
      X64.Holds m.mem m.rsp r.words ∧ m.reg .rsp = t.reg .rsp ∧ m.sys.cr3 = BitVec.ofNat 64 c.cr3 ∧
      m.sys.gsBase = t.sys.gsBase ∧ m.sys.kernelGsBase = t.sys.kernelGsBase

/-- The C code of `run_next_proc`, from its first instruction to the call of `jump_usermode`. -/
structure RunsNext (c : Cpu) (m m' : Machine) : Prop where
  context : PointsTo (c.sched.pcb c.sched.pcbToRun).cpuContext m'
  cr3 : m'.sys.cr3 = BitVec.ofNat 64 (c.sched.pcb c.sched.pcbToRun).pml4
  kernelGsBase : m'.sys.kernelGsBase = m.sys.kernelGsBase

namespace Running

/-- The steps of the process `p`, with the registers it passes to a system call, and those of the
devices. -/
inductive Event where
  | own (p : Nat)
  | call (p : Nat) (regs : CpuState)
  | irq (vector : Nat)

/-- The process that takes the step. -/
def Event.actor : Event → Option Nat
  | .own p => some p
  | .call p _ => some p
  | .irq _ => none

/-- The steps of the system while it runs processes that leave the kernel's memory alone. A system
call is one that comes back to its caller and starts no other process. -/
inductive Step (k : Entries) : Running → Event → Running → Prop where
  | own (h : UserStep x.machine m) : Step k x (.own x.sched.currentPcb) ⟨m, x.sched⟩
  | call (hno : SyscallPath.jumps x.machine = false) (hl : SyscallPath.Layout x.machine kstack)
      (hregs : regs = CpuState.read (SyscallPath.called k.syscallEntry next x.machine).mem
        ((SyscallPath.called k.syscallEntry next x.machine).reg .rdi).toNat)
      (hback : (syscallHandler k.image k.call regs
        ⟨x.machine.sys.cr3.toNat, x.sched⟩).back = some c) (hk : x.sched.Keeps c.sched)
      (hr : SyscallPath.Returned (SyscallPath.called k.syscallEntry next x.machine) m)
      (hcr3 : m.sys.cr3 = BitVec.ofNat 64 c.cr3) :
      Step k x (.call x.sched.currentPcb regs) ⟨SyscallPath.returns k.syscallEntry m, c.sched⟩
  | irq (h : Handled k x vector m c) (hno : c.sched.schedTriggered = false)
      (hret : iretq codeSegment (exec Isr.exit m) = some m') : Step k x (.irq vector) ⟨m', c.sched⟩
  | switch (h : Handled k x vector m c) (hyes : c.sched.schedTriggered = true)
      (hret : iretq codeSegment (exec Isr.exit m) = some m₁) (hrun : RunsNext c m₁ m₂)
      (hjump : iretq codeSegment (exec jumpUsermode m₂) = some m') :
      Step k x (.irq vector) ⟨m', c.sched.runNext⟩

end Running

section Handled

variable {k : Entries} {x : Running} {m : Machine} {c : Cpu}

theorem Handled.outcome (h : Handled k x vector m c) : ∃ r,
    TickOutcome x.sched (Registers.ofMachine x.machine (BitVec.ofNat 64 vector) 0) r c.sched ∧
      (c.sched.schedTriggered = false → m.sys.cr3 = x.machine.sys.cr3) ∧
      m.sys.gsBase = x.machine.sys.gsBase ∧ m.sys.kernelGsBase = x.machine.sys.kernelGsBase ∧
      (codeSegment (BitVec.ofNat 64 r.cs) → iretq codeSegment (exec Isr.exit m) = some
        { reg := r.reg, mem := m.mem, sys := { m.sys with
          rip := BitVec.ofNat 64 r.rip, cs := BitVec.ofNat 64 r.cs
          rflags := BitVec.ofNat 64 r.eflags, ss := BitVec.ofNat 64 r.ss
          cr2 := BitVec.ofNat 64 r.cr2 } }) := by
  obtain ⟨r, hisr, hframe, hrsp, hcr3, hgs, hkgs⟩ := h.handled
  obtain ⟨hirq, hout, hback⟩ := isrHandler_outcome hisr
  obtain ⟨tcr3, tgs, tkgs⟩ := Isr.taken_sys (k.handler vector) k.rsp0 vector x.machine 0 .noErrCode
  rw [Isr.read_irq (k.handler vector) k.rsp0 0 h.stub hirq h.room] at hout
  refine ⟨r, hout, ?_, hgs.trans tgs, hkgs.trans tkgs, ?_⟩
  · intro hno
    rw [hcr3, hback hno, BitVec.ofNat_toNat, BitVec.setWidth_eq, tcr3]
  · intro hcs
    exact Isr.irq_iretq (k.handler vector) k.rsp0 0 h.stub hirq h.room hcs hrsp hframe

theorem Handled.stays (h : Handled k x vector m c) (hcs : codeSegment x.machine.sys.cs)
    (hno : c.sched.schedTriggered = false) : x.sched.Keeps c.sched ∧
      iretq codeSegment (exec Isr.exit m) = some { x.machine with mem := m.mem } := by
  obtain ⟨r, hout, hcr3, hgs, hkgs, hret⟩ := h.outcome
  cases hout with
  | stays _ _ hk =>
    refine ⟨hk, ?_⟩
    rw [hret (by simpa [Registers.ofMachine] using hcs), Registers.ofMachine_reg]
    have hsys : m.sys = { m.sys with
        cr3 := x.machine.sys.cr3, gsBase := x.machine.sys.gsBase
        kernelGsBase := x.machine.sys.kernelGsBase } := by
      rw [← hcr3 hno, ← hgs, ← hkgs]
    rw [hsys]
    simp [Registers.ofMachine]
  | switches _ _ htrig _ _ _ _ _ =>
    rw [hno] at htrig
    cases htrig

theorem Handled.switches (h : Handled k x vector m c) (hyes : c.sched.schedTriggered = true) :
    x.sched.Keeps c.sched ∧ x.sched.pcbList ≠ 0 ∧ c.sched.pcbToRun = x.sched.pick ∧
      (x.sched.currentPcb ≠ 0 → (c.sched.pcb x.sched.currentPcb).cpuContext =
        toCpuStateFromSyscall (Registers.ofMachine x.machine (BitVec.ofNat 64 vector) 0)) ∧
      ∃ m', iretq codeSegment (exec Isr.exit m) = some m' ∧
        m'.sys.kernelGsBase = x.machine.sys.kernelGsBase := by
  obtain ⟨r, hout, -, -, hkgs, hret⟩ := h.outcome
  cases hout with
  | stays _ hno _ =>
    rw [hyes] at hno
    cases hno
  | switches _ _ _ hk hcs hlist hpick hctx =>
    have hret' := hret (by rw [hcs]; decide)
    exact ⟨hk, hlist, hpick, hctx, _, hret', hkgs⟩

end Handled

end BiosKernel
