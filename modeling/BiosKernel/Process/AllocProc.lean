import BiosKernel.Process.Bitmaps
import BiosKernel.Paging.Range

namespace BiosKernel
open MachineInt
set_option autoImplicit true

structure Pcb where
  ppid : Nat
  pid : Nat
  realMemAddr : Nat
  pml4 : Nat
  deriving DecidableEq

/-- What is left of a PCB after `free`, which clears the block. -/
def Pcb.cleared : Pcb := { ppid := 0, pid := 0, realMemAddr := 0, pml4 := 0 }

/-- The bookkeeping of the processes: `process_pid_bitmap`, `process_mem_bitmap`, the memory of the
PCBs by their addresses, `pcb_list` and `current_pcb`. -/
structure ProcTable where
  pidBitmap : Nat
  memBitmap : Nat
  pcb : Nat → Pcb
  pcbList : List Nat
  currentPcb : Nat

/-- What `alloc_proc` does to the bookkeeping, when `malloc` gives it `ptr` for the PCB and
`allocate_page` gives it `pml4`. `append_node` puts the PCB at the head of the list. -/
def ProcTable.allocProc (t : ProcTable) (ptr pml4 : Nat) : ProcTable :=
  let (pid, pidBitmap) := allocatePid t.pidBitmap
  let (realMemAddr, memBitmap) := allocateProcMem t.memBitmap
  { t with
    pidBitmap, memBitmap
    pcb := Function.update t.pcb ptr { ppid := 0, pid := u32 pid, realMemAddr, pml4 }
    pcbList := ptr :: t.pcbList }

structure Kernel where
  mmu : Mmu
  procs : ProcTable

/-- `PML4_KERNEL`, the `pml4` of `kpcb`. -/
def pml4Kernel : Nat := 0xd00000

def procBinAddr : Nat := 0x4000000

def procMemSize : Nat := pageSize * 0x1000

def procStackSize : Nat := 0x10 * pageSize

def procSlotSize : Nat := pageSize * 0x20

def procKernelAddr : Nat := procMemSize / 2

def kernelVbase : Nat := 0x810000

def kernelLoadAddr : Nat := 0x10000

def initRecursivePaging (s : Mmu) (pml4 : Nat) : Option Mmu :=
  s.storeEntry (pml4 + 8 * pml4RecursiveEntryNum) (pml4 ||| pageMapFlags)

/-- The part of `alloc_proc` that maps the memory of the new process. While it fills the tables of
the process, the recursive entry of the kernel leads to them. -/
def mapProc (s : Mmu) (pid pml4 realMemAddr : Nat) : Option Mmu := do
  let binStart := procBinAddr - procStackSize
  let binEnd := procBinAddr - procStackSize + procMemSize - 1
  let s ← mapMemoryRange s kernelPid pml4 (pml4 + pageSize - 1) pml4
  let s ← mapMemoryRange s kernelPid binStart binEnd realMemAddr
  let s ← initRecursivePaging s pml4
  let s ← s.storeEntry (pml4Kernel + 8 * pml4RecursiveEntryNum) (pml4 ||| pageMapFlags)
  let s ← mapMemoryRange s pid pml4 (pml4 + pageSize - 1) pml4
  let s ← mapMemoryRange s pid binStart binEnd realMemAddr
  let s ← mapMemoryRange s pid procKernelAddr pageFrameAllocatorEnd (kernelVbase - kernelLoadAddr)
  let s ← mapMemoryRange s pid (pageFrameAllocatorEnd + 1) (pageFrameAllocatorEnd + procSlotSize) 0
  let s ← mapMemoryRange s pid kernelHeapStart (kernelHeapStart + kernelHeapSizePages * 512 - 1)
    kernelHeapStart
  let s ← s.storeEntry (pml4Kernel + 8 * pml4RecursiveEntryNum) (pml4Kernel ||| pageMapFlags)
  unmapMemoryRange s binStart binEnd false

def Kernel.allocProc (k : Kernel) (ptr : Nat) : Option Kernel :=
  let s := { k.mmu with interruptsReady := false, interruptFlag := false }
  let pid := u32 (allocatePid k.procs.pidBitmap).1
  let realMemAddr := (allocateProcMem k.procs.memBitmap).1
  let (pml4, allocator) := allocatePage s.allocator pid
  (mapProc { s with allocator } pid pml4 realMemAddr).map fun s =>
    { mmu := { s with interruptsReady := true, interruptFlag := true }
      procs := k.procs.allocProc ptr pml4 }

section allocator

variable {s s' : Mmu} {k k' : Kernel} {I : PageFrameAllocator → Prop}

theorem mapProc_keeps (hI : ∀ a, I a → I (allocatePage a pid).2)
    (hm : ∀ a i, I a → I (a.mark i pid)) (hI' : ∀ a, I a → I (allocatePage a kernelPid).2)
    (hm' : ∀ a i, I a → I (a.mark i kernelPid)) (h : I s.allocator)
    (hs : mapProc s pid pml4 realMemAddr = some s') : I s'.allocator := by
  obtain ⟨s1, h1, hs⟩ := Option.bind_eq_some_iff.mp hs
  obtain ⟨s2, h2, hs⟩ := Option.bind_eq_some_iff.mp hs
  obtain ⟨s3, h3, hs⟩ := Option.bind_eq_some_iff.mp hs
  obtain ⟨s4, h4, hs⟩ := Option.bind_eq_some_iff.mp hs
  obtain ⟨s5, h5, hs⟩ := Option.bind_eq_some_iff.mp hs
  obtain ⟨s6, h6, hs⟩ := Option.bind_eq_some_iff.mp hs
  obtain ⟨s7, h7, hs⟩ := Option.bind_eq_some_iff.mp hs
  obtain ⟨s8, h8, hs⟩ := Option.bind_eq_some_iff.mp hs
  obtain ⟨s9, h9, hs⟩ := Option.bind_eq_some_iff.mp hs
  obtain ⟨s10, h10, hs⟩ := Option.bind_eq_some_iff.mp hs
  have i2 : I s2.allocator := mapMemoryRange_keeps hI' hm' (mapMemoryRange_keeps hI' hm' h h1) h2
  have i4 : I s4.allocator := by
    rw [storeEntry_allocator h4, storeEntry_allocator h3]
    exact i2
  have i6 : I s6.allocator := mapMemoryRange_keeps hI hm (mapMemoryRange_keeps hI hm i4 h5) h6
  have i8 : I s8.allocator := mapMemoryRange_keeps hI hm (mapMemoryRange_keeps hI hm i6 h7) h8
  rw [unmapMemoryRange_allocator hs, storeEntry_allocator h10]
  exact mapMemoryRange_keeps hI hm i8 h9

theorem Kernel.allocProc_eq (hpid : pid = u32 (allocatePid k.procs.pidBitmap).1)
    (ha : allocatePage k.mmu.allocator pid = (pml4, a)) : k.allocProc ptr =
      (mapProc { k.mmu with interruptsReady := false, interruptFlag := false, allocator := a } pid
        pml4 (allocateProcMem k.procs.memBitmap).1).map fun s =>
          { mmu := { s with interruptsReady := true, interruptFlag := true }
            procs := k.procs.allocProc ptr pml4 } := by
  subst hpid
  rw [allocProc]
  dsimp only
  rw [ha]

theorem Kernel.allocProc_keeps (hpid : pid = u32 (allocatePid k.procs.pidBitmap).1)
    (hI : ∀ a, I a → I (allocatePage a pid).2)
    (hm : ∀ a i, I a → I (a.mark i pid)) (hI' : ∀ a, I a → I (allocatePage a kernelPid).2)
    (hm' : ∀ a i, I a → I (a.mark i kernelPid)) (h : I k.mmu.allocator)
    (hk : k.allocProc ptr = some k') :
    I k'.mmu.allocator ∧ ∃ pml4, k'.procs = k.procs.allocProc ptr pml4 := by
  rw [k.allocProc_eq hpid rfl] at hk
  obtain ⟨s, hs, rfl⟩ := Option.map_eq_some_iff.mp hk
  have hs := mapProc_keeps hI hm hI' hm' (hI _ h) hs
  exact ⟨hs, _, rfl⟩

end allocator

end BiosKernel
