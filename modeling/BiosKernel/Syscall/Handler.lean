import BiosKernel.Process.Sched
import Mathlib.Algebra.Group.Int.Defs

namespace BiosKernel
open MachineInt
set_option autoImplicit true

/-- `enum SYSCALL_NR`. -/
inductive SyscallNr where
  | sysExit | sysExec | sysPrintf | sysGetchar | sysTime | sysDate | sysSleep | sysAbort
  | sysMalloc | sysFree | sysPrintHeap | sysStdinClear | sysStdinInsert | sysShutdown | sysTtyInit
  | sysScanf | sysMemset | sysMemcpy | sysFgets | sysOpen | sysClose | sysRead | sysWrite | sysLseek
  | sysListDir | sysPathExists | sysSendDnsRequest
  deriving DecidableEq

/-- `SYSCALL_TABLE`, which has the function of each number at its place. -/
def syscallTable : List SyscallNr :=
  [.sysExit, .sysExec, .sysPrintf, .sysGetchar, .sysTime, .sysDate, .sysSleep, .sysAbort,
    .sysMalloc, .sysFree, .sysPrintHeap, .sysStdinClear, .sysStdinInsert, .sysShutdown, .sysTtyInit,
    .sysScanf, .sysMemset, .sysMemcpy, .sysFgets, .sysOpen, .sysClose, .sysRead, .sysWrite,
    .sysLseek, .sysListDir, .sysPathExists, .sysSendDnsRequest]

/-- `SYS_T_LEN`. -/
def sysTLen : Nat := syscallTable.length

/-- The kernel's memory: the words it can read, with the table in them. `none` is a read that
faults, from which the kernel does not come back. -/
structure KernelImage where
  tableAddr : Nat
  word : Nat → Option Nat
  function : SyscallNr → Nat
  function_ne_zero : ∀ nr, function nr ≠ 0
  word_table : ∀ i nr, syscallTable[i]? = some nr →
    word (u64 (tableAddr + 8 * i)) = some (function nr)

/-- CR3 and what the handler sees of the processes. -/
structure Cpu where
  cr3 : Nat
  sched : Sched

def Cpu.saveRegs (c : Cpu) (regs : CpuState) : Cpu :=
  let saved := { c.sched.pcb c.sched.currentPcb with cpuContext := regs }
  { c with sched := { c.sched with pcb := Function.update c.sched.pcb c.sched.currentPcb saved } }

/-- How a system call ends: in a fault, with `-1` and no call, or with a call of the function at
some address and what the handler returns after it. -/
inductive SyscallOutcome where
  | fault
  | rejected (c : Cpu)
  | called (target : Nat) (returned : Option (Int × Cpu))

/-- `call` is what the function at an address does, `none` if it does not return. Flushing the TLB
writes CR3 back as it is. -/
def syscallHandler (image : KernelImage) (call : Nat → CpuState → Cpu → Option (Int × Cpu))
    (regs : CpuState) (c : Cpu) : SyscallOutcome :=
  let number := signed64 regs.rax
  let prevCr3 := c.cr3
  let c := if prevCr3 ≠ pml4Kernel then { c with cr3 := pml4Kernel } else c
  if number ≥ sysTLen then .rejected c
  else
    match image.word (u64 (image.tableAddr + 8 * regs.rax)) with
    | none => .fault
    | some target =>
      if target = 0 then .rejected c
      else
        let c := c.saveRegs regs
        .called target ((call target regs c).map fun r => (r.1, { r.2 with cr3 := prevCr3 }))

/-- What a caller of the handler relies on. -/
def SyscallOutcome.Safe (image : KernelImage) (number : Int) (cr3 : Nat) : SyscallOutcome → Prop
  | .fault => False
  | .rejected c => c.cr3 = cr3
  | .called target returned =>
    (∃ i nr, number = (i : Nat) ∧ syscallTable[i]? = some nr ∧ target = image.function nr ∧
      target ≠ 0) ∧ ∀ ret c, returned = some (ret, c) → c.cr3 = cr3

variable {image : KernelImage}

theorem slot_eq (h : signed64 n = (i : Nat)) (a : Nat) : u64 (a + 8 * n) = u64 (a + 8 * i) := by
  rw [signed64] at h
  rw [u64, u64]
  split at h
  · omega
  · omega

theorem KernelImage.word_of_number (image : KernelImage)
    (h : 0 ≤ signed64 n ∧ signed64 n < sysTLen) : ∃ (i : Nat) (nr : SyscallNr), signed64 n = i ∧
      syscallTable[i]? = some nr ∧
      image.word (u64 (image.tableAddr + 8 * n)) = some (image.function nr) := by
  obtain ⟨i, hi⟩ := Int.eq_ofNat_of_zero_le h.1
  have hlt : i < sysTLen := by omega
  have hnr := List.getElem?_eq_getElem hlt
  exact ⟨i, _, hi, hnr, by rw [slot_eq hi]; exact image.word_table i _ hnr⟩

/-- What the handler does: without a call it ends on the kernel's page tables, and after one on
those of its caller. -/
theorem syscallHandler_cases (image : KernelImage)
    (call : Nat → CpuState → Cpu → Option (Int × Cpu)) (regs : CpuState) (c : Cpu) :
    ((sysTLen ≤ signed64 regs.rax ∨ image.word (u64 (image.tableAddr + 8 * regs.rax)) = some 0) ∧
      ∃ c', syscallHandler image call regs c = .rejected c' ∧ c'.cr3 = pml4Kernel) ∨
    (signed64 regs.rax < sysTLen ∧ image.word (u64 (image.tableAddr + 8 * regs.rax)) = none ∧
      syscallHandler image call regs c = .fault) ∨
    ∃ target returned, signed64 regs.rax < sysTLen ∧
      image.word (u64 (image.tableAddr + 8 * regs.rax)) = some target ∧ target ≠ 0 ∧
      syscallHandler image call regs c = .called target returned ∧
      ∀ ret c', returned = some (ret, c') → c'.cr3 = c.cr3 := by
  have hcr3 :
      (if c.cr3 ≠ pml4Kernel then { c with cr3 := pml4Kernel } else c).cr3 = pml4Kernel := by
    split
    · rfl
    · next h => exact not_not.mp h
  rw [syscallHandler]
  dsimp only
  by_cases hpast : signed64 regs.rax ≥ sysTLen
  · rw [if_pos hpast]
    exact .inl ⟨.inl hpast, _, rfl, hcr3⟩
  · have hlt : signed64 regs.rax < sysTLen := Int.lt_of_not_ge hpast
    rw [if_neg hpast]
    cases image.word (u64 (image.tableAddr + 8 * regs.rax)) with
    | none => exact .inr (.inl ⟨hlt, rfl, rfl⟩)
    | some target =>
      dsimp only
      by_cases h0 : target = 0
      · rw [if_pos h0, h0]
        exact .inl ⟨.inr rfl, _, rfl, hcr3⟩
      · rw [if_neg h0]
        refine .inr (.inr ⟨target, _, hlt, rfl, h0, rfl, ?_⟩)
        intro ret c' hc
        obtain ⟨r, _, he⟩ := Option.map_eq_some_iff.mp hc
        cases he
        rfl

/-- A system call is safe exactly when its number is in the table, or when the caller runs on the
kernel's own page tables and the number is past the table or finds a zero before it. -/
theorem syscallHandler_safe_iff (image : KernelImage)
    (call : Nat → CpuState → Cpu → Option (Int × Cpu)) (regs : CpuState) (c : Cpu) :
    (syscallHandler image call regs c).Safe image (signed64 regs.rax) c.cr3 ↔
      (0 ≤ signed64 regs.rax ∧ signed64 regs.rax < sysTLen) ∨
      (c.cr3 = pml4Kernel ∧ (sysTLen ≤ signed64 regs.rax ∨
        image.word (u64 (image.tableAddr + 8 * regs.rax)) = some 0)) := by
  obtain ⟨hwhy, c', he, hc'⟩ | ⟨hlt, hw, he⟩ | ⟨target, returned, hlt, hw, h0, he, hret⟩ :=
    syscallHandler_cases image call regs c
  · rw [he, SyscallOutcome.Safe, hc']
    refine ⟨fun h => .inr ⟨h.symm, hwhy⟩, ?_⟩
    rintro (hin | h)
    · obtain ⟨i, nr, _, _, hword⟩ := image.word_of_number hin
      rcases hwhy with hpast | hzero
      · omega
      · exact absurd (Option.some.inj (hword.symm.trans hzero)) (image.function_ne_zero nr)
    · exact h.1.symm
  · rw [he, SyscallOutcome.Safe, hw]
    refine ⟨False.elim, ?_⟩
    rintro (hin | ⟨_, hpast | hzero⟩)
    · obtain ⟨i, nr, _, _, hword⟩ := image.word_of_number hin
      cases hw.symm.trans hword
    · omega
    · cases hzero
  -- Below the table the handler takes what it finds there for a function.
  · rw [he, SyscallOutcome.Safe, hw]
    constructor
    · rintro ⟨⟨i, nr, hi, _⟩, _⟩
      exact .inl ⟨by omega, hlt⟩
    · rintro (hin | ⟨_, hpast | hzero⟩)
      · obtain ⟨i, nr, hi, hnr, hword⟩ := image.word_of_number hin
        exact ⟨⟨i, nr, hi, hnr, Option.some.inj (hw.symm.trans hword), h0⟩, hret⟩
      · omega
      · exact absurd (Option.some.inj hzero) h0

/-- A table with other data of the kernel before it. -/
def exampleImage : KernelImage where
  tableAddr := 0x820000
  word a :=
    if a < 0x820000 then some 0x815000
    else (syscallTable[(a - 0x820000) / 8]?).map fun _ => 0x810010
  function _ := 0x810010
  function_ne_zero _ := by decide
  word_table i nr h := by
    have hi : i < 27 := (List.getElem?_eq_some_iff.mp h).1
    have hu : u64 (0x820000 + 8 * i) = 0x820000 + 8 * i := Nat.mod_eq_of_lt (by omega)
    rw [hu, if_neg (by omega), Nat.add_sub_cancel_left, Nat.mul_div_cancel_left i (by decide), h]
    rfl

/-- A process on its own page tables. -/
def processCpu : Cpu where
  cr3 := 0xB00000
  sched :=
    { pcb := fun _ =>
        { Pcb.cleared with state := .ready, cpuContext := initialContext, listNode := 0x2000220 }
      node := fun _ => ⟨0x2000060, 0⟩, pcbList := 0x2000220, currentPcb := 0x2000060, pitTimeMs := 0
      lastContextSwitchTime := 0, pcbToRun := 0, skipped := false, schedTriggered := false
      runNextProc := 0x810400 }

/-- Number 27 leaves the process on the kernel's page tables, and number -1 calls what lies before
the table. -/
theorem syscallHandler_unsafe :
    ¬ (syscallHandler exampleImage (fun _ _ c => some (0, c)) { initialContext with rax := 27 }
      processCpu).Safe exampleImage (signed64 27) processCpu.cr3 ∧
    ¬ (syscallHandler exampleImage (fun _ _ c => some (0, c))
      { initialContext with rax := 2 ^ 64 - 1 } processCpu).Safe exampleImage
      (signed64 (2 ^ 64 - 1)) processCpu.cr3 := by
  constructor
  · intro h
    exact absurd h (by decide : pml4Kernel ≠ 0xB00000)
  · rintro ⟨⟨i, _, hi, _⟩, _⟩
    have hn : signed64 (2 ^ 64 - 1) = -1 := by decide
    omega

end BiosKernel
