import BiosKernel.Lib.Runs
import BiosKernel.Process.AllocProc

namespace BiosKernel
open MachineInt Runs
set_option autoImplicit true

namespace ProcTable

/-- The address of the PCB, 0 for `NULL`. -/
def findPcbByPid (t : ProcTable) (pid : Nat) : Nat :=
  (t.pcbList.find? fun ptr => (t.pcb ptr).pid = pid).getD 0

-- What the functions below do to the page tables and to the registers is no part of the
-- bookkeeping.

def runProc (t : ProcTable) (ptr : Nat) : ProcTable := { t with currentPcb := ptr }

def exec (t : ProcTable) (ptr pml4 : Nat) : ProcTable :=
  let t := t.allocProc ptr pml4
  if t.currentPcb ≠ 0 then
    let ppid := (t.pcb t.currentPcb).pid
    { t with pcb := Function.update t.pcb ptr { t.pcb ptr with ppid }, currentPcb := ptr }
  else
    runProc { t with pcb := Function.update t.pcb ptr { t.pcb ptr with ppid := kernelPid } } ptr

def exit (t : ProcTable) : ProcTable :=
  let current := t.pcb t.currentPcb
  let memBitmap := deallocateProcMem t.memBitmap current.realMemAddr
  let t := { t with memBitmap, pcb := Function.update t.pcb t.currentPcb .cleared }
  runProc t (t.findPcbByPid current.ppid)

theorem exec_eq (t : ProcTable) (ptr pml4 : Nat) : ∃ ppid, t.exec ptr pml4 =
    { pidBitmap := (allocatePid t.pidBitmap).2
      memBitmap := (allocateProcMem t.memBitmap).2
      pcb := Function.update t.pcb ptr
        { ppid, pid := u32 (allocatePid t.pidBitmap).1
          realMemAddr := (allocateProcMem t.memBitmap).1, pml4 }
      pcbList := ptr :: t.pcbList
      currentPcb := ptr } := by
  simp only [exec, allocProc, runProc, Function.update_idem, Function.update_self]
  split
  · exact ⟨_, rfl⟩
  · exact ⟨_, rfl⟩

theorem exec_pidBitmap (t : ProcTable) (ptr pml4 : Nat) :
    (t.exec ptr pml4).pidBitmap = (allocatePid t.pidBitmap).2 := by
  obtain ⟨ppid, he⟩ := t.exec_eq ptr pml4
  rw [he]

theorem exec_memBitmap (t : ProcTable) (ptr pml4 : Nat) :
    (t.exec ptr pml4).memBitmap = (allocateProcMem t.memBitmap).2 := by
  obtain ⟨ppid, he⟩ := t.exec_eq ptr pml4
  rw [he]

theorem exec_pcbList (t : ProcTable) (ptr pml4 : Nat) :
    (t.exec ptr pml4).pcbList = ptr :: t.pcbList := by
  obtain ⟨ppid, he⟩ := t.exec_eq ptr pml4
  rw [he]

theorem exec_pcb_self (t : ProcTable) (ptr pml4 : Nat) :
    ((t.exec ptr pml4).pcb ptr).pid = u32 (allocatePid t.pidBitmap).1 ∧
    ((t.exec ptr pml4).pcb ptr).realMemAddr = (allocateProcMem t.memBitmap).1 := by
  obtain ⟨ppid, he⟩ := t.exec_eq ptr pml4
  simp only [he, Function.update_self, and_self]

theorem exec_pcb_of_ne (t : ProcTable) (pml4 : Nat) (h : p ≠ ptr) :
    (t.exec ptr pml4).pcb p = t.pcb p := by
  obtain ⟨ppid, he⟩ := t.exec_eq ptr pml4
  simp only [he, Function.update_of_ne h]

end ProcTable

/-- The bookkeeping, and the PCBs of the processes that have been started and have not ended. -/
structure Processes where
  table : ProcTable
  live : List Nat

inductive ProcOp where
  | exec (ptr pml4 : Nat)
  | exit

namespace Processes

/-- `malloc` does not return `NULL`, and `exit` ends the current process. -/
def step (s : Processes) : ProcOp → Option Processes
  | .exec ptr pml4 =>
    if ptr = 0 then none
    else some { table := s.table.exec ptr pml4, live := s.live ++ [ptr] }
  | .exit =>
    if s.table.currentPcb ∈ s.live then
      some { table := s.table.exit, live := s.live.erase s.table.currentPcb }
    else none

def boot (pcb : Nat → Pcb) : Processes where
  table := { pidBitmap := 0, memBitmap := 0, pcb, pcbList := [], currentPcb := 0 }
  live := []

def slotAddr (i : Nat) : Nat :=
  hardwareMemStart + kernelHeapSizePages * pageSize + i * pageSize * 0x1000

variable {s s' : Processes}

/-- The bookkeeping tells the live processes. -/
structure Matches (s : Processes) : Prop where
  pids : ∀ i, s.table.pidBitmap.testBit i = true ↔ ∃ p ∈ s.live, (s.table.pcb p).pid = i
  slots : ∀ i, s.table.memBitmap.testBit i = true ↔
    ∃ p ∈ s.live, (s.table.pcb p).realMemAddr = slotAddr i
  list : s.table.pcbList.Perm s.live
  find : ∀ pid, s.table.findPcbByPid pid = 0 ∨ s.table.findPcbByPid pid ∈ s.live

/-- No process ends, the PCB does not lie on that of a live process, and the pid is below 31. -/
def StartsBelow31 (s : Processes) : ProcOp → Prop
  | .exec ptr _ => ptr ≠ 0 ∧ ptr ∉ s.live ∧ (allocatePid s.table.pidBitmap).1 ≤ 30
  | .exit => False

/-- `n` processes have been started, with the pids from 2 on and the first memory slots. -/
structure Counted (s : Processes) (n : Nat) : Prop where
  pidBitmap : s.table.pidBitmap = 2 ^ (n + 2) - 4
  memBitmap : s.table.memBitmap = 2 ^ n - 1
  pids : s.live.map (fun p => (s.table.pcb p).pid) = List.range' 2 n
  slots : s.live.map (fun p => (s.table.pcb p).realMemAddr) = (List.range n).map slotAddr
  list : s.table.pcbList = s.live.reverse

theorem testBit_pids (n i : Nat) : (2 ^ (n + 2) - 4).testBit i = true ↔ 2 ≤ i ∧ i < 2 + n := by
  have hp : 2 ^ (n + 2) = 2 ^ n * 4 := Nat.pow_add 2 n 2
  have he : 2 ^ (n + 2) - 4 = (2 ^ n - 1) * 2 ^ 2 := by omega
  rw [he, Nat.testBit_mul_two_pow, Nat.testBit_two_pow_sub_one]
  simp only [Bool.and_eq_true, decide_eq_true_eq]
  omega

theorem findPcbByPid_mem (t : ProcTable) (pid : Nat) :
    t.findPcbByPid pid = 0 ∨ t.findPcbByPid pid ∈ t.pcbList := by
  rw [ProcTable.findPcbByPid]
  cases h : t.pcbList.find? fun ptr => (t.pcb ptr).pid = pid with
  | none => exact .inl rfl
  | some ptr => exact .inr (List.mem_of_find?_eq_some h)

theorem Counted.matches (h : s.Counted n) : s.Matches := by
  refine ⟨?_, ?_, ?_, ?_⟩
  · intro i
    rw [h.pidBitmap, testBit_pids, ← List.mem_range'_1, ← h.pids, List.mem_map]
  · intro i
    have hm := List.mem_map (f := fun p => (s.table.pcb p).realMemAddr) (l := s.live)
      (b := slotAddr i)
    rw [h.slots, List.mem_map] at hm
    rw [h.memBitmap, Nat.testBit_two_pow_sub_one, decide_eq_true_eq, ← hm]
    constructor
    · intro hi
      exact ⟨i, List.mem_range.mpr hi, rfl⟩
    · rintro ⟨j, hj, he⟩
      rw [slotAddr, slotAddr] at he
      have hji : j = i := by
        simp only [pageSize] at he
        omega
      rw [← hji]
      exact List.mem_range.mp hj
  · rw [h.list]
    exact s.live.reverse_perm
  · intro pid
    rw [← List.mem_reverse, ← h.list]
    exact findPcbByPid_mem s.table pid

theorem allocatePid_counted :
    ∀ n < 29, allocatePid (2 ^ (n + 2) - 4) = (n + 2, 2 ^ (n + 3) - 4) := by
  decide +kernel

/-- The mask of pid 31 is sign-extended. -/
theorem allocatePid_31 : allocatePid (2 ^ 31 - 4) = (31, 2 ^ 64 - 4) := by decide +kernel

theorem allocateProcMem_counted :
    ∀ n < 29, allocateProcMem (2 ^ n - 1) = (slotAddr n, 2 ^ (n + 1) - 1) := by
  decide +kernel

theorem Counted.exec (h : s.Counted n) (hn : n < 29) (hp : ptr ∉ s.live) (pml4 : Nat) :
    Counted { table := s.table.exec ptr pml4, live := s.live ++ [ptr] } (n + 1) := by
  have hpid := allocatePid_counted n hn
  have hmem := allocateProcMem_counted n hn
  rw [← h.pidBitmap] at hpid
  rw [← h.memBitmap] at hmem
  obtain ⟨hself, hslot⟩ := s.table.exec_pcb_self ptr pml4
  have hold (p : Nat) (hm : p ∈ s.live) : (s.table.exec ptr pml4).pcb p = s.table.pcb p :=
    s.table.exec_pcb_of_ne pml4 fun hh => hp (hh ▸ hm)
  refine ⟨?_, ?_, ?_, ?_, ?_⟩
  · rw [ProcTable.exec_pidBitmap, hpid]
  · rw [ProcTable.exec_memBitmap, hmem]
  · rw [List.map_append, List.range'_1_concat, ← h.pids]
    refine congrArg₂ (· ++ ·) (List.map_congr_left fun p hm => by rw [hold p hm]) ?_
    rw [List.map_cons, hself, hpid, u32, Nat.mod_eq_of_lt (by omega), Nat.add_comm]
    rfl
  · rw [List.map_append, List.range_succ, List.map_append, ← h.slots]
    refine congrArg₂ (· ++ ·) (List.map_congr_left fun p hm => by rw [hold p hm]) ?_
    rw [List.map_cons, hslot, hmem]
    rfl
  · rw [ProcTable.exec_pcbList, h.list, List.reverse_concat']

theorem Counted.pid_mem (h : s.Counted n) (hp : p ∈ s.live) :
    2 ≤ (s.table.pcb p).pid ∧ (s.table.pcb p).pid < 2 + n := by
  have hm := List.mem_map_of_mem (f := fun p => (s.table.pcb p).pid) hp
  rw [h.pids, List.mem_range'_1] at hm
  exact hm

theorem Counted.pid_inj (h : s.Counted n) (hp : p ∈ s.live) (hq : q ∈ s.live)
    (he : (s.table.pcb p).pid = (s.table.pcb q).pid) : p = q :=
  List.inj_on_of_nodup_map (by rw [h.pids]; exact List.nodup_range') hp hq he

theorem Counted.nodup (h : s.Counted n) : s.live.Nodup := by
  have hm : (s.live.map fun p => (s.table.pcb p).pid).Nodup := by
    rw [h.pids]
    exact List.nodup_range'
  exact hm.of_map

/-- The pid of a process that ends stays marked. -/
theorem Counted.not_matches_exit (h : s.Counted n) (hc : s.table.currentPcb ∈ s.live) :
    ¬ Matches { table := s.table.exit, live := s.live.erase s.table.currentPcb } := by
  intro hm
  have hbit : s.table.exit.pidBitmap.testBit (s.table.pcb s.table.currentPcb).pid = true := by
    rw [show s.table.exit.pidBitmap = s.table.pidBitmap from rfl, h.pidBitmap, testBit_pids]
    exact h.pid_mem hc
  obtain ⟨p, hp, he⟩ := (hm.pids _).mp hbit
  obtain ⟨hne, hp⟩ := (h.nodup.mem_erase_iff).mp hp
  have hold : s.table.exit.pcb p = s.table.pcb p := Function.update_of_ne hne _ _
  have he : (s.table.exit.pcb p).pid = (s.table.pcb s.table.currentPcb).pid := he
  rw [hold] at he
  exact hne (h.pid_inj hp hc he)

theorem exec_pids (h : ∃ p ∈ s.live ++ [ptr], ((s.table.exec ptr pml4).pcb p).pid = i) :
    i = u32 (allocatePid s.table.pidBitmap).1 ∨
      ∃ p ∈ s.live, p ≠ ptr ∧ (s.table.pcb p).pid = i := by
  obtain ⟨p, hp, rfl⟩ := h
  by_cases hpp : p = ptr
  · rw [hpp]
    exact .inl (s.table.exec_pcb_self ptr pml4).1
  · rw [s.table.exec_pcb_of_ne pml4 hpp]
    rcases List.mem_append.mp hp with hp | hp
    · exact .inr ⟨p, hp, hpp, rfl⟩
    · exact absurd (List.mem_singleton.mp hp) hpp

/-- Pid 31 marks all higher pids too, and a PCB put on another one hides its pid. -/
theorem Counted.of_matches_exec (h : s.Counted n) (hn : n ≤ 29)
    (hm : Matches { table := s.table.exec ptr pml4, live := s.live ++ [ptr] }) :
    n < 29 ∧ ptr ∉ s.live := by
  have hpids (i : Nat) (hi : (allocatePid s.table.pidBitmap).2.testBit i = true) := by
    rw [← ProcTable.exec_pidBitmap s.table ptr pml4] at hi
    exact exec_pids ((hm.pids i).mp hi)
  rw [h.pidBitmap] at hpids
  have hlt : n < 29 := by
    -- Bit 40 is set with pid 31, and no process has that pid.
    by_contra hge
    obtain rfl : n = 29 := by omega
    rw [allocatePid_31] at hpids
    rcases hpids 40 (by decide) with he | ⟨p, hp, _, he⟩
    · exact absurd he (by decide)
    · have hb := h.pid_mem hp
      omega
  refine ⟨hlt, ?_⟩
  intro hin
  have hb := h.pid_mem hin
  rw [allocatePid_counted n hlt] at hpids
  rcases hpids (s.table.pcb ptr).pid ((testBit_pids (n + 1) _).mpr ⟨hb.1, by omega⟩) with
    he | ⟨p, hp, hne, he⟩
  · rw [u32, Nat.mod_eq_of_lt (by omega)] at he
    omega
  · exact hne (h.pid_inj hp hin he)

theorem step_exec (hp : ptr ≠ 0) : s.step (.exec ptr pml4) =
    some { table := s.table.exec ptr pml4, live := s.live ++ [ptr] } := if_neg hp

theorem Counted.step_matches (h : s.Counted n) (hn : n ≤ 29) (hs : s.step op = some s')
    (hm : s'.Matches) : s.StartsBelow31 op ∧ ∃ n ≤ 29, s'.Counted n := by
  cases op with
  | exec ptr pml4 =>
    by_cases hp : ptr = 0
    · rw [step, if_pos hp] at hs
      cases hs
    · rw [step_exec hp] at hs
      cases hs
      obtain ⟨hlt, hin⟩ := h.of_matches_exec hn hm
      refine ⟨⟨hp, hin, ?_⟩, n + 1, hlt, h.exec hlt hin pml4⟩
      rw [h.pidBitmap, allocatePid_counted n hlt]
      exact Nat.succ_le_succ (Nat.succ_le_of_lt hlt)
  | exit =>
    rw [step] at hs
    split at hs
    · next hc =>
      cases hs
      exact absurd hm (h.not_matches_exit hc)
    · cases hs

theorem Counted.step_of_startsBelow31 (h : s.Counted n) (hn : n ≤ 29)
    (hok : s.StartsBelow31 op) : ∃ s', s.step op = some s' ∧ s'.Matches := by
  cases op with
  | exec ptr pml4 =>
    obtain ⟨hp, hin, hpid⟩ := hok
    have hlt : n < 29 := by
      by_contra hge
      obtain rfl : n = 29 := by omega
      rw [h.pidBitmap, allocatePid_31] at hpid
      exact absurd hpid (by decide)
    exact ⟨_, step_exec hp, (h.exec hlt hin pml4).matches⟩
  | exit => exact hok.elim

theorem counted_boot (pcb : Nat → Pcb) : (boot pcb).Counted 0 := ⟨rfl, rfl, rfl, rfl, rfl⟩

/-- The bookkeeping matches the live processes all along a run exactly when no process ends and no
more than 29 are started. -/
theorem matches_iff_startsBelow31 (pcb : Nat → Pcb) (ops : List ProcOp) :
    Always step Matches (boot pcb) ops ↔ Meets step StartsBelow31 (boot pcb) ops := by
  have hfit : Meets step (fun _ _ => True) (boot pcb) ops := Meets.of_forall fun _ _ => trivial
  refine always_iff_meets (I := fun s => ∃ n ≤ 29, s.Counted n) ?_ ?_
    ⟨0, Nat.zero_le 29, counted_boot pcb⟩ (counted_boot pcb).matches hfit
  · rintro s op s' ⟨n, hn, h⟩ _ hs hm
    exact (h.step_matches hn hs hm).2
  · rintro s op ⟨n, hn, h⟩ _ _
    constructor
    · exact h.step_of_startsBelow31 hn
    · rintro ⟨s', hs, hm⟩
      exact (h.step_matches hn hs hm).1

/-- A process starts another one, which ends: its pid stays marked. -/
theorem exit_leaves_pid : ∃ s, run step (boot fun _ => .cleared)
    [.exec 0x2000020 0xB00000, .exec 0x2000220 0xB20000, .exit] = some s ∧ ¬ s.Matches := by
  refine ⟨_, rfl, fun hm => ?_⟩
  obtain ⟨p, hp, he⟩ := (hm.pids 3).mp (by decide)
  have hp : p ∈ [0x2000020] := hp
  cases List.mem_singleton.mp hp
  exact absurd he (by decide)

end Processes

end BiosKernel
