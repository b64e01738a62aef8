import BiosKernel.Lib.Traces
import BiosKernel.Interrupt.Running

namespace BiosKernel
open MachineInt
set_option autoImplicit true

open X64 Traces

theorem syscallHandler_back {c c' : Cpu} (hn : 0 ≤ signed64 regs.rax ∧ signed64 regs.rax < sysTLen)
    (h : (syscallHandler image call regs c).back = some c') : c'.cr3 = c.cr3 := by
  obtain ⟨i, nr, _, _, hword⟩ := image.word_of_number hn
  obtain ⟨hwhy, _⟩ | ⟨_, hw, _⟩ | ⟨target, returned, _, _, _, he, hret⟩ :=
    syscallHandler_cases image call regs c
  · rcases hwhy with hpast | hzero
    · omega
    · exact absurd (Option.some.inj (hword.symm.trans hzero)) (image.function_ne_zero nr)
  · cases hw.symm.trans hword
  · rw [he] at h
    obtain ⟨⟨ret, c₁⟩, hr, rfl⟩ := Option.map_eq_some_iff.mp h
    exact hret ret c₁ hr

namespace Running

variable {k : Entries} {x y : Running} {e : Event}

/-- A process that has not made a system call since it was started. -/
def Preemptible (m : Machine) : Prop := m.sys.cs = userCsSelector ∧ m.sys.rflags &&& 0x202 = 0x202

/-- A process behind a system call. -/
def Uninterrupted (m : Machine) : Prop := m.sys.rflags &&& 0x202 = 2

structure Inv (xs : List Nat) (x : Running) : Prop where
  threaded : x.sched.Threaded xs
  current : x.sched.currentPcb ≠ 0
  mode : Preemptible x.machine ∨ Uninterrupted x.machine

theorem Uninterrupted.disabled {m : Machine} (h : Uninterrupted m) :
    m.sys.rflags &&& interruptFlag = 0 := by
  have he : m.sys.rflags &&& interruptFlag = m.sys.rflags &&& 0x202 &&& 0x200 := by
    rw [BitVec.and_assoc]
    rfl
  rw [he, h]
  decide

/-- Interrupts come only where `iretq` can return to. -/
theorem Inv.preemptible (h : Inv xs x) (hen : x.machine.sys.rflags &&& interruptFlag ≠ 0) :
    Preemptible x.machine := by
  refine h.mode.resolve_right ?_
  intro hu
  exact hen hu.disabled

theorem Preemptible.codeSegment {m : Machine} (h : Preemptible m) :
    BiosKernel.codeSegment m.sys.cs := by
  rw [h.1]
  decide

theorem preemptible_or (f : Word) : (f ||| 0x202) &&& 0x202 = 0x202 := by
  ext i
  simp only [BitVec.getElem_and, BitVec.getElem_or]
  cases f[i] <;> cases (0x202 : Word)[i] <;> rfl

theorem Preemptible.ofContext {m : Machine} (h : Preemptible m) (v e : Word) :
    UserState.ofContext (toCpuStateFromSyscall (Registers.ofMachine m v e)) = .ofMachine m := by
  have hreg : (toCpuStateFromSyscall (Registers.ofMachine m v e)).reg = m.reg := by
    rw [← Registers.ofMachine_reg m v e]
    funext q
    cases q <;> rfl
  have hflags : m.sys.rflags ||| 0x202 = m.sys.rflags := by
    rw [← h.2]
    ext i
    rw [BitVec.getElem_or, BitVec.getElem_and]
    cases m.sys.rflags[i] <;> rfl
  have hofNat (w : Word) : BitVec.ofNat 64 w.toNat = w := by
    rw [BitVec.ofNat_toNat, BitVec.setWidth_eq]
  rw [UserState.ofContext, UserState.ofMachine, hreg, toCpuStateFromSyscall, Registers.ofMachine]
  simp only [hofNat, hflags]

theorem switch_spec (h : Handled k x vector m c) (hyes : c.sched.schedTriggered = true)
    (hret : iretq codeSegment (exec Isr.exit m) = some m₁) (hrun : RunsNext c m₁ m₂)
    (hjump : iretq codeSegment (exec jumpUsermode m₂) = some m') :
    UserState.ofMachine m' = .ofContext (c.sched.pcb x.sched.pick).cpuContext ∧
      Preemptible m' ∧
      m'.sys.cr3 = BitVec.ofNat 64 (c.sched.pcb x.sched.pick).pml4 ∧
      m'.sys.kernelGsBase = x.machine.sys.kernelGsBase := by
  obtain ⟨-, -, hpick, -, m₃, hret', hkgs⟩ := h.switches hyes
  obtain ⟨m₄, hjump', hreg, hsys, -⟩ := jumpUsermode_enters hrun.context
  cases hret.symm.trans hret'
  cases hjump.symm.trans hjump'
  have hcr3 := hrun.cr3
  rw [hpick] at hreg hsys hcr3
  refine ⟨?_, ⟨?_, ?_⟩, ?_, ?_⟩
  · rw [UserState.ofMachine, UserState.ofContext, hreg, hsys]
  · rw [hsys]
  · rw [hsys]
    exact preemptible_or _
  · rw [hsys]
    exact hcr3
  · rw [hsys]
    exact hrun.kernelGsBase.trans hkgs

theorem view_runNext {s : Sched} (hs : s.pcbToRun = q)
    (hu : UserState.ofMachine m = .ofContext (s.pcb q).cpuContext) :
    view ⟨m, s.runNext⟩ p = .ofContext (s.pcb p).cpuContext := by
  rw [view]
  split
  · next hp =>
    have hq : p = q := hp.trans hs
    rw [hu, hq]
  · rfl

theorem returns_uninterrupted (hl : SyscallPath.Layout m₁ kstack)
    (hr : SyscallPath.Returned (SyscallPath.called entry next m₁) m) :
    Uninterrupted (SyscallPath.returns entry m) := by
  obtain ⟨-, -, -, -, hsys⟩ := SyscallPath.returns_spec entry next hl hr
  rw [Uninterrupted, hsys]
  show (2 : Word) &&& 0x202 = 2
  decide

theorem Step.inv (h : Step k x e y) (hi : Inv xs x) :
    Inv xs y ∧ y.machine.sys.kernelGsBase = x.machine.sys.kernelGsBase := by
  cases h with
  | own h =>
    refine ⟨⟨hi.threaded, hi.current, ?_⟩, h.kernelGsBase⟩
    rcases hi.mode with ⟨hcs, hflags⟩ | hu
    · exact .inl ⟨h.cs.elim (·.trans hcs) id, h.rflags.trans hflags⟩
    · exact .inr (h.rflags.trans hu)
  | call hno hl hregs hback hk hr hcr3 =>
    obtain ⟨-, -, -, -, hsys⟩ := SyscallPath.returns_spec k.syscallEntry _ hl hr
    refine ⟨⟨hk.threaded hi.threaded, ?_, .inr (returns_uninterrupted hl hr)⟩, ?_⟩
    · rw [hk.currentPcb]
      exact hi.current
    · rw [hsys]
  | irq h hno hret =>
    have hp := hi.preemptible h.enabled
    obtain ⟨hk, hret'⟩ := h.stays hp.codeSegment hno
    cases hret.symm.trans hret'
    refine ⟨⟨hk.threaded hi.threaded, ?_, .inl hp⟩, rfl⟩
    rw [hk.currentPcb]
    exact hi.current
  | switch h hyes hret hrun hjump =>
    obtain ⟨hk, hlist, hpick, -, -⟩ := h.switches hyes
    obtain ⟨-, hp, -, hkgs⟩ := switch_spec h hyes hret hrun hjump
    have hmem : x.sched.pick ∈ xs := by
      rw [hi.threaded.pick_eq hlist]
      apply Cyclic.next_mem
      rintro rfl
      exact hlist hi.threaded.chain
    rw [← hpick] at hmem
    have ht := hk.threaded hi.threaded
    refine ⟨⟨ht.congr rfl rfl (fun _ => rfl) (.inr hmem), ?_, .inl hp⟩, hkgs⟩
    intro h0
    apply hi.threaded.nonnull
    rw [← h0]
    exact hmem

/-- No step of a device or of another process changes what a process sees. -/
theorem Step.view (h : Step k x e y) (hi : Inv xs x) (he : e.actor ≠ some p) :
    y.view p = x.view p := by
  cases h with
  | own h =>
    have hp : p ≠ x.sched.currentPcb := fun hp => he (congrArg some hp.symm)
    rw [Running.view, Running.view, if_neg hp, if_neg hp]
  | call hno hl hregs hback hk hr hcr3 =>
    have hp : p ≠ x.sched.currentPcb := fun hp => he (congrArg some hp.symm)
    have hp' := hp
    rw [← hk.currentPcb] at hp'
    rw [Running.view, Running.view, if_neg hp, if_neg hp', hk.others p hp]
  | irq h hno hret =>
    obtain ⟨hk, hret'⟩ := h.stays (hi.preemptible h.enabled).codeSegment hno
    cases hret.symm.trans hret'
    rw [Running.view, Running.view, hk.currentPcb]
    split
    · rfl
    · next hp => rw [hk.others p hp]
  | switch h hyes hret hrun hjump =>
    obtain ⟨hk, -, hpick, hctx, -⟩ := h.switches hyes
    obtain ⟨huser, -⟩ := switch_spec h hyes hret hrun hjump
    rw [view_runNext hpick huser, Running.view]
    split
    · next hp =>
      rw [hp, hctx hi.current]
      exact (hi.preemptible h.enabled).ofContext _ _
    · next hp => rw [hk.others p hp]

/-- A number of the table other than those of `exit` and `exec`, which start another process. -/
def KeepsRunning (regs : CpuState) : Prop := 1 < signed64 regs.rax ∧ signed64 regs.rax < sysTLen

theorem Step.ownTables (h : Step k x e y) (hi : Inv xs x)
    (hcall : ∀ p regs, e = .call p regs → KeepsRunning regs)
    (hx : x.machine.sys.cr3 = BitVec.ofNat 64 (x.sched.pcb x.sched.currentPcb).pml4) :
    y.machine.sys.cr3 = BitVec.ofNat 64 (y.sched.pcb y.sched.currentPcb).pml4 := by
  have keeps {s : Sched} (hk : x.sched.Keeps s) :
      (s.pcb s.currentPcb).pml4 = (x.sched.pcb x.sched.currentPcb).pml4 := by
    obtain ⟨ctx, he⟩ := hk.current
    rw [hk.currentPcb, he]
  cases h with
  | own h => exact h.cr3.trans hx
  | call hno hl hregs hback hk hr hcr3 =>
    obtain ⟨-, -, -, -, hsys⟩ := SyscallPath.returns_spec k.syscallEntry _ hl hr
    rw [hsys, keeps hk, ← hx]
    refine hcr3.trans ?_
    obtain ⟨hlow, hhigh⟩ := hcall _ _ rfl
    rw [syscallHandler_back ⟨by omega, hhigh⟩ hback, BitVec.ofNat_toNat, BitVec.setWidth_eq]
  | irq h hno hret =>
    obtain ⟨hk, hret'⟩ := h.stays (hi.preemptible h.enabled).codeSegment hno
    cases hret.symm.trans hret'
    rw [keeps hk]
    exact hx
  | switch h hyes hret hrun hjump =>
    obtain ⟨-, -, hpick, -, -⟩ := h.switches hyes
    obtain ⟨-, -, hcr3, -⟩ := switch_spec h hyes hret hrun hjump
    rw [hcr3, ← hpick]
    rfl

/-- The kernel has started the first of the processes `xs` that runs. -/
structure Started (xs : List Nat) (x : Running) : Prop where
  threaded : x.sched.Threaded xs
  current : x.sched.currentPcb ∈ xs
  jump : ∃ m, PointsTo (x.sched.pcb x.sched.currentPcb).cpuContext m ∧
    m.sys.cr3 = BitVec.ofNat 64 (x.sched.pcb x.sched.currentPcb).pml4 ∧
    iretq codeSegment (exec jumpUsermode m) = some x.machine

theorem Started.inv (h : Started xs x) : Inv xs x ∧
    x.machine.sys.cr3 = BitVec.ofNat 64 (x.sched.pcb x.sched.currentPcb).pml4 := by
  obtain ⟨m, hp, hcr3, hret⟩ := h.jump
  obtain ⟨m', hret', -, hsys, -⟩ := jumpUsermode_enters hp
  cases hret.symm.trans hret'
  refine ⟨⟨h.threaded, ?_, .inl ⟨?_, ?_⟩⟩, ?_⟩
  · intro h0
    exact h.threaded.nonnull (h0 ▸ h.current)
  · rw [hsys]
  · rw [hsys]
    exact preemptible_or _
  · rw [hsys]
    exact hcr3

theorem Inv.trace (hi : Inv xs x) (h : Trace (Step k) x es y) : Inv xs y :=
  h.keeps (Q := fun _ => True) (fun _ _ _ hs _ hi => (hs.inv hi).1) (fun _ _ => trivial) hi

/-- In every run every interrupt comes back, and whatever the devices and the other processes do, a
process finds its registers, its flags and its place as it left them. -/
theorem interrupts_invisible (hx : Started xs x) (hxy : Trace (Step k) x es y) :
    (∀ vector m c, Handled k y vector m c → (iretq codeSegment (exec Isr.exit m)).isSome) ∧
      ∀ es' z p, Trace (Step k) y es' z → (∀ e ∈ es', e.actor ≠ some p) → z.view p = y.view p := by
  have hi := hx.inv.1.trace hxy
  refine ⟨?_, ?_⟩
  · intro vector m c h
    cases htrig : c.sched.schedTriggered with
    | false =>
      obtain ⟨-, hret⟩ := h.stays (hi.preemptible h.enabled).codeSegment htrig
      rw [hret]
      rfl
    | true =>
      obtain ⟨-, -, -, -, m', hret, -⟩ := h.switches htrig
      rw [hret]
      rfl
  · intro es' z p hyz hp
    have hkeep (a : Running) (e : Event) (b : Running) (hs : Step k a e b) (he : e.actor ≠ some p)
        (ha : Inv xs a ∧ a.view p = y.view p) : Inv xs b ∧ b.view p = y.view p :=
      ⟨(hs.inv ha.1).1, (hs.view ha.1 he).trans ha.2⟩
    exact (hyz.keeps hkeep hp ⟨hi, rfl⟩).2

section witness

def exampleEntries : Entries where
  handler _ := 0x811000
  rsp0 := 0x810000
  syscallEntry := 0x812000
  image := exampleImage
  call _ _ c := some (0, c)

/-- The two processes when the first quantum of the older one has passed. -/
def quantumPassed : Sched := { Sched.twoProcesses.runProc 0x2000060 with pitTimeMs := 60 }

theorem quantumPassed_threaded : quantumPassed.Threaded [0x2000260, 0x2000060] :=
  Sched.twoProcesses_built.threaded.congr rfl rfl (fun _ => rfl) (.inr (by decide))

/-- A machine whose `rdi` points to the context. -/
def pointing (c : CpuState) (m : Machine) (cr3 : Word) : Machine :=
  { reg := fun r => if r = .rdi then 0x2000080 else if r = .rsp then 0x80FFF0 else 0
    mem := writeWords m.mem 0x2000080 c.words
    sys := { m.sys with cr3 } }

theorem pointsTo_pointing (c : CpuState) (m : Machine) (cr3 : Word) :
    PointsTo c (pointing c m cr3) := by
  have hrdi : (pointing c m cr3).reg .rdi = 0x2000080 := rfl
  have hrsp : (pointing c m cr3).rsp = 0x80FFF0 := rfl
  refine ⟨holds_writeWords .., ?_, ?_, ?_⟩
  · rw [hrdi]
    decide
  · rw [hrsp]
    decide
  · rw [hrdi, hrsp]
    decide

theorem exists_handled {r : Registers} (hen : x.machine.sys.rflags &&& interruptFlag ≠ 0)
    (hstub : Isr.stub vector = some .noErrCode) (hroom : 184 ≤ (frameTop k.rsp0 x.machine).toNat)
    (hirq : 32 ≤ vector)
    (hisr : isrHandler vector (Registers.ofMachine x.machine (BitVec.ofNat 64 vector) 0)
      ⟨x.machine.sys.cr3.toNat, x.sched⟩ = some (r, c)) : ∃ m, Handled k x vector m c := by
  obtain ⟨tcr3, -, -⟩ := Isr.taken_sys (k.handler vector) k.rsp0 vector x.machine 0 .noErrCode
  have hread := Isr.read_irq (k.handler vector) k.rsp0 0 hstub hirq hroom
  obtain ⟨t, ht⟩ : ∃ t, t = Isr.taken (k.handler vector) k.rsp0 vector x.machine 0 .noErrCode :=
    ⟨_, rfl⟩
  let m : Machine :=
    { t with
      mem := writeWords t.mem t.rsp r.words
      sys := { t.sys with cr3 := BitVec.ofNat 64 c.cr3 } }
  refine ⟨m, hen, hstub, hroom, ?_⟩
  rw [← ht] at tcr3 hread ⊢
  exact ⟨r, by rw [hread, tcr3]; exact hisr, holds_writeWords .., rfl, rfl, rfl, rfl⟩

theorem isrHandler_quantumPassed (cr3 : Nat) {r : Registers} (hcs : r.cs = 0x1B) : ∃ r' c,
    isrHandler 32 r ⟨cr3, quantumPassed⟩ = some (r', c) ∧ c.sched.schedTriggered = true := by
  refine ⟨_, _, rfl, ?_⟩
  dsimp only
  rw [if_pos (show 32 = pitVector from rfl), Sched.handleSchedOnPitTick, hcs, if_neg (by decide),
    if_neg (by decide), Sched.redirect_saveContext, if_pos (by decide)]

theorem exists_switch : ∃ (k : Entries) (x y : Running), Started [0x2000260, 0x2000060] x ∧
    x.sched.currentPcb = 0x2000060 ∧ Step k x (.irq 32) y ∧ y.sched.currentPcb = 0x2000260 := by
  obtain ⟨m, hm, hreg, hsys, -⟩ := jumpUsermode_enters
    (pointsTo_pointing initialContext Isr.startedProcess 0)
  have hx : Started [0x2000260, 0x2000060] ⟨m, quantumPassed⟩ :=
    ⟨quantumPassed_threaded, by simp [quantumPassed, Sched.runProc], _, pointsTo_pointing .., rfl,
      hm⟩
  have hcs : m.sys.cs = userCsSelector := by rw [hsys]
  obtain ⟨r, c, hisr, htrig⟩ := isrHandler_quantumPassed m.sys.cr3.toNat
    (r := Registers.ofMachine m 32 0) (by rw [Registers.ofMachine, hcs]; rfl)
  have hroom : 184 ≤ (frameTop exampleEntries.rsp0 m).toNat := by
    rw [frameTop, hcs]
    exact (by decide : 184 ≤ (0x810000 &&& ~~~0xF : Word).toNat)
  obtain ⟨m₁, hh⟩ := exists_handled (k := exampleEntries) (x := ⟨m, quantumPassed⟩)
    (by rw [hsys]; decide) (by decide) hroom (by decide) hisr
  obtain ⟨-, -, hpick, -, m₂, hret, -⟩ := hh.switches htrig
  have hrun : RunsNext c m₂ (pointing (c.sched.pcb c.sched.pcbToRun).cpuContext m₂
      (BitVec.ofNat 64 (c.sched.pcb c.sched.pcbToRun).pml4)) := ⟨pointsTo_pointing .., rfl, rfl⟩
  obtain ⟨m₃, hjump, -⟩ := jumpUsermode_enters hrun.context
  exact ⟨_, _, _, hx, rfl, .switch hh htrig hret hrun hjump,
    hpick.trans (by decide : quantumPassed.pick = 0x2000260)⟩

/-- The interrupted process keeps its registers through the switch. -/
theorem interrupts_invisible_switch : ∃ (k : Entries) (x y : Running),
    Started [0x2000260, 0x2000060] x ∧ x.sched.currentPcb = 0x2000060 ∧ Step k x (.irq 32) y ∧
      y.sched.currentPcb = 0x2000260 ∧ y.view 0x2000060 = x.view 0x2000060 := by
  obtain ⟨k, x, y, hx, hcur, hstep, hnext⟩ := exists_switch
  refine ⟨k, x, y, hx, hcur, hstep, hnext, ?_⟩
  apply (interrupts_invisible hx .nil).2 [.irq 32] y 0x2000060 (.cons hstep .nil)
  decide

end witness

theorem Step.returned (h : Step k x (.call p regs) y) : ∃ kstack next m,
    SyscallPath.Layout x.machine kstack ∧
      SyscallPath.Returned (SyscallPath.called k.syscallEntry next x.machine) m ∧
      regs = SyscallPath.callerContext x.machine next ∧
      y.machine = SyscallPath.returns k.syscallEntry m := by
  cases h with
  | call hno hl hregs hback hk hr hcr3 =>
    rw [SyscallPath.read_called k.syscallEntry _ hl] at hregs
    exact ⟨_, _, _, hl, hr, hregs, rfl⟩

/-- Behind a system call that has come back nothing but the caller runs before its next system call:
no interrupt gets through, and so no other process is scheduled, however long the run. The call may
have done anything with the scheduler, and may have let interrupts in. -/
theorem unpreempted_until_call (hl : SyscallPath.Layout caller kstack)
    (hr : SyscallPath.Returned (SyscallPath.called k.syscallEntry next caller) m)
    (hy : y.machine = SyscallPath.returns k.syscallEntry m) (hyz : Trace (Step k) y es z)
    (hes : ∀ q regs, .call q regs ∉ es) :
    (∀ e ∈ es, e = .own y.sched.currentPcb) ∧ z.sched = y.sched ∧
      z.machine.sys.rflags &&& interruptFlag = 0 := by
  have hstep (a : Running) (e : Event) (b : Running) (hs : Step k a e b) (he : e ∈ es)
      (ha : Uninterrupted a.machine ∧ a.sched = y.sched) :
      (Uninterrupted b.machine ∧ b.sched = y.sched) ∧ e = .own y.sched.currentPcb := by
    cases hs with
    | own h =>
      refine ⟨⟨h.rflags.trans ha.1, ha.2⟩, ?_⟩
      rw [ha.2]
    | call => exact absurd he (hes _ _)
    | irq h _ _ => exact absurd ha.1.disabled h.enabled
    | switch h _ _ _ _ => exact absurd ha.1.disabled h.enabled
  have hback : Uninterrupted y.machine := by
    rw [hy]
    exact returns_uninterrupted hl hr
  obtain ⟨⟨hu, hsched⟩, hall⟩ := hyz.labels hstep (fun _ he => he) ⟨hback, rfl⟩
  exact ⟨hall, hsched, hu.disabled⟩

section witness

/-- A caller of `time`, whose kernel stack pointer is where `init_syscall` put it. -/
def timeCaller : Machine :=
  { Isr.startedProcess with
    reg := fun r => if r = .rsp then 0x3FFFFEA else if r = .rax then 4 else 0
    mem := writeWord (fun _ => 0) 0x820100 0x80FFF0 }

theorem timeCaller_layout : SyscallPath.Layout timeCaller 0x80FFF0 := by
  refine ⟨by decide, by decide, readWord_writeWord .., by decide, ?_, ?_⟩
  · exact .inr (by decide)
  · exact .inr (by decide)

theorem keeps_saveRegs (c : Cpu) (regs : CpuState) : c.sched.Keeps (c.saveRegs regs).sched := by
  refine ⟨rfl, rfl, rfl, ?_, regs, ?_⟩
  · intro p hp
    simp only [Cpu.saveRegs, Function.update_of_ne hp]
  · simp only [Cpu.saveRegs, Function.update_self]

theorem exists_call : ∃ (k : Entries) (x y : Running) (regs : CpuState),
    x.machine = timeCaller ∧ Step k x (.call 0x2000060 regs) y := by
  have hregs := SyscallPath.read_called exampleEntries.syscallEntry 0x4000100 timeCaller_layout
  let regs := SyscallPath.callerContext timeCaller 0x4000100
  let c : Cpu := { (Cpu.saveRegs ⟨pml4Kernel, quantumPassed⟩ regs) with cr3 := 0xB00000 }
  have hback : (syscallHandler exampleImage (fun _ _ c => some (0, c)) regs
      ⟨timeCaller.sys.cr3.toNat, quantumPassed⟩).back = some c := by
    have hword : exampleImage.word (u64 (exampleImage.tableAddr + 8 * regs.rax)) =
        some 0x810010 := by decide
    rw [syscallHandler]
    dsimp only
    rw [if_neg (by decide), hword]
    rfl
  have hk : quantumPassed.Keeps c.sched := keeps_saveRegs ⟨pml4Kernel, quantumPassed⟩ regs
  let t := SyscallPath.called exampleEntries.syscallEntry 0x4000100 timeCaller
  let m : Machine := { t with sys := { t.sys with cr3 := 0xB00000 } }
  have hr : SyscallPath.Returned t m := ⟨rfl, rfl, rfl, fun _ _ _ => rfl, fun _ _ _ => rfl⟩
  exact ⟨exampleEntries, ⟨timeCaller, quantumPassed⟩, _, regs, rfl,
    .call (by decide) timeCaller_layout hregs.symm hback hk hr rfl⟩

end witness

/-- The handler gets the registers of its caller, which has them back behind the call, but for the
result and for the stack pointer, which is 24 bytes too low. -/
theorem call_returns (h : Step k x (.call p regs) y) : ∃ next,
    regs = SyscallPath.callerContext x.machine next ∧ y.machine.sys.rip = next ∧
      (∀ q, q ≠ .rax → q ≠ .rsp → y.machine.reg q = x.machine.reg q) ∧
      y.machine.reg .rsp = x.machine.reg .rsp - 24 := by
  obtain ⟨kstack, next, m, hl, hr, hregs, hy⟩ := h.returned
  obtain ⟨hq, -, hrsp, -, hsys⟩ := SyscallPath.returns_spec k.syscallEntry _ hl hr
  rw [hy]
  exact ⟨next, hregs, by rw [hsys], hq, hrsp⟩

theorem call_returns_time : ∃ (k : Entries) (x y : Running) (regs : CpuState),
    Step k x (.call 0x2000060 regs) y ∧ y.machine.reg .rbx = x.machine.reg .rbx ∧
      y.machine.reg .rsp = 0x3FFFFD2 := by
  obtain ⟨k, x, y, regs, hx, hcall⟩ := exists_call
  obtain ⟨next, -, -, hq, hrsp⟩ := call_returns hcall
  refine ⟨k, x, y, regs, hcall, hq .rbx (by decide) (by decide), ?_⟩
  rw [hrsp, hx]
  decide

theorem unpreempted_until_call_time : ∃ (k : Entries) (x y : Running) (regs : CpuState),
    Step k x (.call 0x2000060 regs) y ∧ ∀ vector z, ¬ Step k y (.irq vector) z := by
  obtain ⟨k, x, y, regs, -, hcall⟩ := exists_call
  refine ⟨k, x, y, regs, hcall, ?_⟩
  intro vector z hirq
  have hes (q : Nat) (regs' : CpuState) : Event.call q regs' ∉ [Event.irq vector] := by
    intro h
    cases List.mem_singleton.mp h
  obtain ⟨kstack, next, m, hl, hr, -, hy⟩ := hcall.returned
  have h := (unpreempted_until_call hl hr hy (.cons hirq .nil) hes).1 _ List.mem_cons_self
  cases h

/-- As long as all system calls have numbers of the table and none is `exit` or `exec`, a process
runs on its own page tables, and `swapgs` finds what `init_syscall` wrote. -/
theorem own_tables (hx : Started xs x) (hxy : Trace (Step k) x es y)
    (hcalls : ∀ p regs, .call p regs ∈ es → KeepsRunning regs) :
    y.machine.sys.cr3 = BitVec.ofNat 64 (y.sched.pcb y.sched.currentPcb).pml4 ∧
      y.machine.sys.kernelGsBase = x.machine.sys.kernelGsBase := by
  let Own (a : Running) : Prop := Inv xs a ∧
    a.machine.sys.cr3 = BitVec.ofNat 64 (a.sched.pcb a.sched.currentPcb).pml4 ∧
      a.machine.sys.kernelGsBase = x.machine.sys.kernelGsBase
  have hkeep (a : Running) (e : Event) (b : Running) (hs : Step k a e b)
      (he : ∀ p regs, e = .call p regs → KeepsRunning regs)
      (ha : Own a) : Own b := by
    obtain ⟨hi, hcr3, hkgs⟩ := ha
    obtain ⟨hi', hkgs'⟩ := hs.inv hi
    exact ⟨hi', hs.ownTables hi he hcr3, hkgs'.trans hkgs⟩
  refine (hxy.keeps hkeep ?_ ⟨hx.inv.1, hx.inv.2, rfl⟩).2
  rintro e he p regs rfl
  exact hcalls p regs he

theorem own_tables_switch : ∃ (k : Entries) (x y : Running),
    Started [0x2000260, 0x2000060] x ∧ Step k x (.irq 32) y ∧
      y.machine.sys.cr3 = BitVec.ofNat 64 (y.sched.pcb y.sched.currentPcb).pml4 := by
  obtain ⟨k, x, y, hx, -, hstep, -⟩ := exists_switch
  refine ⟨k, x, y, hx, hstep, (own_tables hx (.cons hstep .nil) ?_).1⟩
  intro p regs h
  cases List.mem_singleton.mp h

end Running

end BiosKernel
