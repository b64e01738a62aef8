import BiosKernel.Lib.Runs
import BiosKernel.Process.LowMemory

namespace BiosKernel
open MachineInt Runs
set_option autoImplicit true

namespace PageFrameAllocator

variable {a : PageFrameAllocator}

/-- Frames that have been handed out are marked, and so is frame 0. -/
structure Sound (a : PageFrameAllocator) : Prop where
  marked : ∀ i ∈ 0 :: a.handedOut, a.bitmap i ≠ 0
  nodup : (0 :: a.handedOut).Nodup

theorem mark_self (a : PageFrameAllocator) (i v : Nat) : (a.mark i v).bitmap i = v % 256 :=
  Function.update_self i _ _

theorem mark_of_ne (a : PageFrameAllocator) (v : Nat) (h : j ≠ i) :
    (a.mark i v).bitmap j = a.bitmap j := Function.update_of_ne h _ _

theorem mark_ne_zero (a : PageFrameAllocator) (i : Nat) (hp : pid % 256 ≠ 0) (hj : a.bitmap j ≠ 0) :
    (a.mark i pid).bitmap j ≠ 0 := by
  by_cases h : j = i
  · rw [h, mark_self]
    exact hp
  · rw [mark_of_ne a pid h]
    exact hj

theorem Sound.mark (h : a.Sound) (hp : pid % 256 ≠ 0) (i : Nat) : (a.mark i pid).Sound :=
  ⟨fun j hj => mark_ne_zero a i hp (h.marked j hj), h.nodup⟩

theorem Sound.allocatePage (h : a.Sound) (hp : pid % 256 ≠ 0) : (allocatePage a pid).2.Sound := by
  rcases allocatePage_cases a pid with ⟨ha, _⟩ | ⟨i, ha, hi, _, _⟩
  · rw [ha]
    exact h
  · have hm := h.mark hp i
    have hperm : (0 :: i :: a.handedOut).Perm (i :: 0 :: a.handedOut) := List.Perm.swap i 0 _
    rw [ha]
    refine ⟨?_, hperm.nodup_iff.mpr (List.nodup_cons.mpr ⟨fun hin => h.marked i hin hi, h.nodup⟩)⟩
    intro j hj
    rcases List.mem_cons.mp (hperm.mem_iff.mp hj) with rfl | hj
    · rw [take, mark_self]
      exact hp
    · exact hm.marked j hj

theorem Sound.init (n : Nat) : (initPageFrameAllocator n).Sound :=
  ⟨fun i hi => by rw [List.mem_singleton.mp hi]; exact Nat.one_ne_zero, List.nodup_singleton 0⟩

end PageFrameAllocator

/-- The calls that take page frames: `alloc_proc`, whose PCB `malloc` puts at `ptr`, and
`allocate_page` with `kpcb` or with the PCB at an address. -/
inductive FrameOp where
  | allocProc (ptr : Nat)
  | allocatePage (owner : Option Nat)

namespace Kernel

variable {k k' : Kernel}

def allocatePage (k : Kernel) (pid : Nat) : Kernel :=
  { k with mmu := { k.mmu with allocator := (BiosKernel.allocatePage k.mmu.allocator pid).2 } }

def step (k : Kernel) : FrameOp → Option Kernel
  | .allocProc ptr => k.allocProc ptr
  | .allocatePage none => some (k.allocatePage kernelPid)
  | .allocatePage (some ptr) =>
    if ptr ∈ k.procs.pcbList then some (k.allocatePage (k.procs.pcb ptr).pid) else none

/-- No process yet, and the frame allocator as `init_page_frame_allocator` leaves it. -/
def boot (s : Mmu) (memorySizePages : Nat) (pcb : Nat → Pcb) : Kernel where
  mmu := { s with allocator := initPageFrameAllocator memorySizePages }
  procs := { pidBitmap := 0, memBitmap := 0, pcb, pcbList := [], currentPcb := 0 }

/-- No frame has been returned twice, and frame 0 never. -/
def FramesApart (k : Kernel) : Prop :=
  k.mmu.allocator.handedOut.Nodup ∧ 0 ∉ k.mmu.allocator.handedOut

def FindsPid (k : Kernel) : FrameOp → Prop
  | .allocProc _ => (allocatePid k.procs.pidBitmap).1 ≠ 0
  | .allocatePage _ => True

structure Sound (k : Kernel) : Prop where
  frames : k.mmu.allocator.Sound
  pids : ∀ ptr ∈ k.procs.pcbList, (k.procs.pcb ptr).pid % 256 ≠ 0

theorem Sound.boot (s : Mmu) (n : Nat) (pcb : Nat → Pcb) : (boot s n pcb).Sound :=
  ⟨.init n, fun _ h => absurd h List.not_mem_nil⟩

theorem Sound.framesApart (h : k.Sound) : k.FramesApart := by
  obtain ⟨hz, hn⟩ := List.nodup_cons.mp h.frames.nodup
  exact ⟨hn, hz⟩

theorem Sound.allocatePage (h : k.Sound) (hp : pid % 256 ≠ 0) : (k.allocatePage pid).Sound :=
  ⟨h.frames.allocatePage hp, h.pids⟩

theorem Sound.allocProc (h : k.Sound) (hf : k.FindsPid (.allocProc ptr))
    (hk : k.allocProc ptr = some k') : k'.Sound := by
  have hlt := allocatePid_lt k.procs.pidBitmap
  have hpid : u32 (allocatePid k.procs.pidBitmap).1 % 256 ≠ 0 := by
    rw [FindsPid] at hf
    rw [u32]
    omega
  have hkernel : kernelPid % 256 ≠ 0 := by decide
  obtain ⟨hframes, pml4, hprocs⟩ := allocProc_keeps rfl (fun _ ha => ha.allocatePage hpid)
    (fun _ i ha => ha.mark hpid i) (fun _ ha => ha.allocatePage hkernel)
    (fun _ i ha => ha.mark hkernel i) h.frames hk
  refine ⟨hframes, ?_⟩
  rw [hprocs]
  intro q hq
  by_cases he : q = ptr
  · rw [he]
    simp only [ProcTable.allocProc, Function.update_self]
    exact hpid
  · simp only [ProcTable.allocProc, Function.update_of_ne he]
    exact h.pids q (List.mem_of_ne_of_mem he hq)

theorem Sound.step (h : k.Sound) (hf : k.FindsPid op) (hk : k.step op = some k') : k'.Sound := by
  match op with
  | .allocProc ptr => exact h.allocProc hf hk
  | .allocatePage none =>
    cases hk
    exact h.allocatePage (by decide)
  | .allocatePage (some ptr) =>
    rw [Kernel.step] at hk
    split at hk
    · next hin =>
      cases hk
      exact h.allocatePage (h.pids ptr hin)
    · cases hk

/-- As long as every `alloc_proc` finds a pid, no frame is handed out twice. -/
theorem framesApart_of_findsPid (hf : Meets Kernel.step FindsPid (boot s n pcb) ops)
    (hr : run Kernel.step (boot s n pcb) ops = some k) : k.FramesApart :=
  (run_invariant (fun _ _ _ h hok hs => Sound.step h hok hs) (Sound.boot s n pcb) hf hr).framesApart

/-- `c` processes have been made in a memory in which `alloc_proc` needs one frame only. -/
structure Ready (k : Kernel) (c : Nat) : Prop where
  flat : Flat k.mmu kernelFrame
  kernel : leafOf k.mmu kernelFrame = entryTo kernelFrame
  free : ∀ q, 0xB20 + c ≤ q → q < kernelFrame → k.mmu.allocator.bitmap q = 0
  held : ∀ q < 0x800, k.mmu.allocator.bitmap q ≠ 0
  numPages : k.mmu.allocator.numPages = memorySizePages

theorem Ready.exists_free (h : k.Ready c) (hc : c < 0x1E0) (pid : Nat) :
    ∃ p, BiosKernel.allocatePage k.mmu.allocator pid =
        (p * pageSize, k.mmu.allocator.take p pid) ∧
      0x800 ≤ p ∧ p ≤ 0xB20 + c := by
  have hfree := h.free (0xB20 + c) (Nat.le_refl _) (by rw [kernelFrame]; omega)
  rcases allocatePage_cases k.mmu.allocator pid with ⟨_, hall⟩ | ⟨p, ha, hp, _, hall⟩
  · refine absurd hfree (hall _ ?_)
    rw [h.numPages, memorySizePages]
    omega
  · refine ⟨p, ha, ?_, ?_⟩
    · by_contra hlt
      exact h.held p (by omega) hp
    · by_contra hlt
      exact hall _ (by omega) hfree

theorem Ready.allocProc (h : k.Ready c) (hc : c < 0x1E0) (ptr : Nat) :
    ∃ k' pml4, k.allocProc ptr = some k' ∧ k'.procs = k.procs.allocProc ptr pml4 ∧
      k'.Ready (c + 1) := by
  obtain ⟨p, ha, hheld, hp⟩ := h.exists_free hc (u32 (allocatePid k.procs.pidBitmap).1)
  have hpk : BehindTables p ∧ p < kernelFrame := by
    rw [BehindTables, ptFrame, kernelFrame]
    omega
  have hflat : Flat { k.mmu with
      interruptsReady := false, interruptFlag := false
      allocator := k.mmu.allocator.take p (u32 (allocatePid k.procs.pidBitmap).1) } kernelFrame :=
    h.flat.congr rfl fun _ _ => rfl
  obtain ⟨s', hs', hf', hk'⟩ := hflat.mapProc h.kernel hpk
    (u32 (allocatePid k.procs.pidBitmap).1) (allocateProcMem k.procs.memBitmap).1
  refine ⟨{ mmu := { s' with interruptsReady := true, interruptFlag := true }
            procs := k.procs.allocProc ptr (p * pageSize) }, p * pageSize, ?_, rfl,
    hf'.flags true, hk'.kernel.trans h.kernel, ?_, ?_, hk'.numPages.trans h.numPages⟩
  · rw [allocProc_eq rfl ha, hs', Option.map_some]
  · intro q hq hqk
    have hne : q ≠ p := by omega
    exact (hk'.bitmap q (.inr (by omega)) hqk hne).trans
      ((PageFrameAllocator.mark_of_ne _ _ hne).trans (h.free q (by omega) hqk))
  · intro q hq
    have hne : q ≠ p := by omega
    rw [hk'.bitmap q (.inl hq) (Nat.lt_trans hq (by decide)) hne]
    exact (PageFrameAllocator.mark_of_ne k.mmu.allocator _ hne).trans_ne (h.held q hq)

/-- `process_pid_bitmap` after `n` processes. -/
def pidBitmapAfter : Nat → Nat
  | 0 => 0
  | n + 1 => (allocatePid (pidBitmapAfter n)).2

theorem Ready.run (h : k.Ready c) (hb : k.procs.pidBitmap = pidBitmapAfter c) (ptrs : List Nat)
    (hc : c + ptrs.length ≤ 0x1E0) :
    ∃ k', Runs.run Kernel.step k (ptrs.map FrameOp.allocProc) = some k' ∧
      k'.Ready (c + ptrs.length) ∧ k'.procs.pidBitmap = pidBitmapAfter (c + ptrs.length) := by
  induction ptrs generalizing k c with
  | nil => exact ⟨k, rfl, h, hb⟩
  | cons ptr ptrs ih =>
    rw [List.length_cons, Nat.add_comm _ 1, ← Nat.add_assoc] at hc ⊢
    obtain ⟨k1, pml4, hk1, hp1, h1⟩ := h.allocProc (by omega) ptr
    have hb1 : k1.procs.pidBitmap = pidBitmapAfter (c + 1) := by
      rw [hp1, pidBitmapAfter, ← hb]
      rfl
    obtain ⟨k', hk', h', hb'⟩ := ih h1 hb1 hc
    refine ⟨k', ?_, h', hb'⟩
    rw [List.map_cons, Runs.run, Kernel.step, hk1, Option.bind_some, hk']

/-- The tables of the first gigabyte, below every frame taken for a PML4. -/
def sharedMmu : Mmu where
  mem n i :=
    if n = pdptFrame then if i = 0 then entryTo pdFrame else 0
    else if n = pdFrame then entryTo (ptFrame i)
    else if ptFrame 0 ≤ n ∧ n < ptFrame 512 then entryTo ((n - ptFrame 0) * 512 + i)
    else if i = 0 then entryTo pdptFrame
    else if i = pml4RecursiveEntryNum then entryTo n else 0
  cr3 := kernelFrame
  allocator := initPageFrameAllocator memorySizePages
  interruptsReady := true
  interruptFlag := true

theorem sharedMmu_flat : Flat sharedMmu kernelFrame := by
  have hroot {n : Nat} (hn : BehindTables n) :
      n ≠ pdptFrame ∧ n ≠ pdFrame ∧ ¬ (ptFrame 0 ≤ n ∧ n < ptFrame 512) := by
    simp only [BehindTables, pdptFrame, pdFrame, ptFrame] at hn ⊢
    omega
  refine ⟨rfl, by decide, by decide, ?_, ?_, by decide, ?_⟩
  · intro n hn _
    obtain ⟨h1, h2, h3⟩ := hroot hn
    simp only [sharedMmu, h1, h2, h3, ↓reduceIte]
    rfl
  · intro n hn
    obtain ⟨h1, h2, h3⟩ := hroot hn
    simp only [sharedMmu, h1, h2, h3, ↓reduceIte]
  · intro j _
    rfl

theorem ready_boot (pcb : Nat → Pcb) : (boot sharedMmu memorySizePages pcb).Ready 0 := by
  have hkernel : leafOf sharedMmu kernelFrame = entryTo kernelFrame := by decide
  refine ⟨sharedMmu_flat.congr rfl fun _ _ => rfl, hkernel, ?_, ?_, rfl⟩
  · intro q hq _
    have hge : ¬ q < (pageFrameAllocatorEnd + pageSize) / pageSize := by
      rw [pageFrameAllocatorEnd, memorySizePages, pageSize]
      omega
    exact if_neg hge
  · intro q hq
    have hlt : q < (pageFrameAllocatorEnd + pageSize) / pageSize := by
      rw [pageFrameAllocatorEnd, memorySizePages, pageSize]
      omega
    have hmark : (initPageFrameAllocator memorySizePages).bitmap q = kernelPid := if_pos hlt
    exact hmark.trans_ne (by decide)

theorem step_allocatePage_pcb (h : ptr ∈ k.procs.pcbList) :
    k.step (.allocatePage (some ptr)) = some (k.allocatePage (k.procs.pcb ptr).pid) := if_pos h

theorem mem_allocProc_pcbList (t : ProcTable) (ptr pml4 : Nat) :
    ptr ∈ (t.allocProc ptr pml4).pcbList := List.mem_cons_self

theorem allocProc_pid (t : ProcTable) (ptr pml4 : Nat) :
    ((t.allocProc ptr pml4).pcb ptr).pid = u32 (allocatePid t.pidBitmap).1 := by
  simp only [ProcTable.allocProc, Function.update_self]

theorem framesApart_three_pages : ∃ k,
    run Kernel.step (boot sharedMmu memorySizePages fun _ => .cleared)
        [.allocProc kernelHeapStart, .allocatePage none,
          .allocatePage (some kernelHeapStart)] = some k ∧
      k.FramesApart := by
  obtain ⟨k1, pml4, hk1, hp1, _⟩ :=
    (ready_boot fun _ => .cleared).allocProc (by decide) kernelHeapStart
  have hmem : kernelHeapStart ∈ (k1.allocatePage kernelPid).procs.pcbList :=
    hp1 ▸ mem_allocProc_pcbList _ _ _
  have hrun : run Kernel.step (boot sharedMmu memorySizePages fun _ => .cleared)
      [.allocProc kernelHeapStart, .allocatePage none, .allocatePage (some kernelHeapStart)] =
      some ((k1.allocatePage kernelPid).allocatePage
        ((k1.allocatePage kernelPid).procs.pcb kernelHeapStart).pid) := by
    rw [run, Kernel.step, hk1, Option.bind_some, run, Kernel.step, Option.bind_some, run,
      step_allocatePage_pcb hmem, Option.bind_some, run]
  have hpid : (allocatePid 0).1 ≠ 0 := by decide
  have hmeets : Meets Kernel.step FindsPid (boot sharedMmu memorySizePages fun _ => .cleared)
      [.allocProc kernelHeapStart, .allocatePage none, .allocatePage (some kernelHeapStart)] :=
    ⟨hpid, fun _ _ => ⟨trivial, fun _ _ => ⟨trivial, fun _ _ => trivial⟩⟩⟩
  exact ⟨_, hrun, framesApart_of_findsPid hmeets hrun⟩

/-- A process without a pid leaves the frames it takes unmarked. -/
theorem allocatePage_zero_twice {a : PageFrameAllocator} (hi : a.bitmap i = 0)
    (hlt : i < a.numPages) : ∃ f,
      (BiosKernel.allocatePage (BiosKernel.allocatePage a 0).2 0).2.handedOut =
        f :: f :: a.handedOut := by
  rcases allocatePage_cases a 0 with ⟨_, hall⟩ | ⟨f, ha, hf, hflt, hall⟩
  · exact absurd hi (hall i hlt)
  -- Marking with 0 changes nothing, so the second search ends at the same frame.
  · have hsame : (a.take f 0).bitmap = a.bitmap := by
      have hu := Function.update_eq_self f a.bitmap
      rw [hf] at hu
      exact hu
    rw [ha]
    refine ⟨f, ?_⟩
    rcases allocatePage_cases (a.take f 0) 0 with ⟨_, hall'⟩ | ⟨g, hg, hg0, _, hall'⟩
    · exact absurd (hsame ▸ hf) (hall' f hflt)
    · rw [hsame] at hg0 hall'
      have hgf : g = f := by
        rcases Nat.lt_trichotomy g f with hh | hh | hh
        · exact absurd hg0 (hall g hh)
        · exact hh
        · exact absurd hf (hall' f hh)
      rw [hg, hgf]
      rfl

theorem pid_of_process_33 : (allocatePid (pidBitmapAfter 32)).1 = 0 := by decide +kernel

/-- The 33rd process takes the same frame twice. -/
theorem frame_twice_for_process_33 : ∃ k, run Kernel.step
    (boot sharedMmu memorySizePages fun _ => .cleared)
    (((List.range 32).map fun i => .allocProc (kernelHeapStart + 0x1000 * (i + 1))) ++
      [.allocProc kernelHeapStart, .allocatePage (some kernelHeapStart),
        .allocatePage (some kernelHeapStart)]) = some k ∧ ¬ k.FramesApart := by
  obtain ⟨k1, hk1, h1, hb1⟩ := (ready_boot fun _ => .cleared).run rfl
    ((List.range 32).map fun i => kernelHeapStart + 0x1000 * (i + 1)) (by decide)
  obtain ⟨k2, pml4, hk2, hp2, h2⟩ := h1.allocProc (by decide) kernelHeapStart
  have hmem : kernelHeapStart ∈ k2.procs.pcbList := hp2 ▸ mem_allocProc_pcbList _ _ _
  have hpid : (k2.procs.pcb kernelHeapStart).pid = 0 := by
    rw [hp2, allocProc_pid, hb1]
    exact congrArg u32 pid_of_process_33
  have hfree := h2.free (0xB20 + 33) (by decide) (by decide)
  obtain ⟨f, hf⟩ := allocatePage_zero_twice hfree (by rw [h2.numPages]; decide)
  refine ⟨(k2.allocatePage 0).allocatePage 0, ?_, ?_⟩
  · rw [List.map_map] at hk1
    rw [run_append]
    refine Option.bind_eq_some_iff.mpr ⟨k1, hk1, ?_⟩
    have hagain : (k2.allocatePage 0).step (.allocatePage (some kernelHeapStart)) =
        some ((k2.allocatePage 0).allocatePage 0) :=
      (step_allocatePage_pcb (k := k2.allocatePage 0) hmem).trans
        (congrArg (fun pid => some ((k2.allocatePage 0).allocatePage pid)) hpid)
    rw [run, Kernel.step, hk2, Option.bind_some, run, step_allocatePage_pcb hmem, hpid,
      Option.bind_some, run, hagain, Option.bind_some, run]
  · rintro ⟨hn, _⟩
    have hnd := hf ▸ hn
    exact (List.nodup_cons.mp hnd).1 List.mem_cons_self

end Kernel

end BiosKernel
