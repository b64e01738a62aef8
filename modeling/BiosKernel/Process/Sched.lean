import BiosKernel.Process.AllocProc

namespace BiosKernel
open MachineInt
set_option autoImplicit true

structure CpuState where
  (r15 r14 r13 r12 rbp rbx r11 r10 r9 r8 rax rcx rdx rsi rdi eflags rip rsp : Nat)
  deriving DecidableEq

/-- The frame that the interrupt stubs save. -/
structure Registers where
  (cr2 r15 r14 r13 r12 rbp rbx r11 r10 r9 r8 rax rcx rdx rsi rdi : Nat)
  (irqNumber errorCode : Nat)
  (rip cs eflags rsp ss : Nat)
  deriving DecidableEq

inductive ProcState where
  | ready
  | waiting
  | zombie
  deriving DecidableEq

structure LinkedListNode where
  data : Nat
  next : Nat
  deriving DecidableEq

structure ProcessControlBlock extends Pcb where
  state : ProcState
  cpuContext : CpuState
  listNode : Nat
  deriving DecidableEq

/-- The memory of the PCBs and of the nodes of `pcb_list` by their addresses, 0 for `NULL`, and the
variables of the scheduler. `runNextProc` is the address of the function. -/
structure Sched where
  pcb : Nat → ProcessControlBlock
  node : Nat → LinkedListNode
  pcbList : Nat
  currentPcb : Nat
  pitTimeMs : Nat
  lastContextSwitchTime : Nat
  pcbToRun : Nat
  skipped : Bool
  schedTriggered : Bool
  runNextProc : Nat

/-- `PROCESS_RUN_TIME`. -/
def processRunTime : Nat := 50

def userLoadAddr : Nat := 0x4000000

def kernelStackTop : Nat := kernelVbase - 0x10

def toCpuStateFromSyscall (r : Registers) : CpuState where
  rdi := r.rdi
  rsi := r.rsi
  rdx := r.rdx
  rcx := r.rcx
  rbx := r.rbx
  rax := r.rax
  r15 := r.r15
  r14 := r.r14
  r13 := r.r13
  r12 := r.r12
  r11 := r.r11
  r10 := r.r10
  r9 := r.r9
  r8 := r.r8
  rbp := r.rbp
  rip := r.rip
  rsp := r.rsp
  eflags := r.eflags

/-- The context of a process that has not run yet. -/
def initialContext : CpuState :=
  { r15 := 0, r14 := 0, r13 := 0, r12 := 0, rbp := 0, rbx := 0, r11 := 0, r10 := 0, r9 := 0,
    r8 := 0, rax := 0, rcx := 0, rdx := 0, rsi := 0, rdi := 0, eflags := 0, rip := userLoadAddr,
    rsp := userLoadAddr - 0x16 }

namespace Sched

/-- `append_node` on `pcb_list`, when `malloc` gives it `n` for the node. -/
def appendNode (s : Sched) (n data : Nat) : Sched :=
  { s with node := Function.update s.node n { data, next := s.pcbList }, pcbList := n }

/-- What `alloc_proc` does for the scheduler: the PCB at `ptr` with the fields `p`, and its node. -/
def allocProc (s : Sched) (ptr n : Nat) (p : Pcb) : Sched :=
  let new := { p with state := .waiting, cpuContext := initialContext, listNode := 0 }
  let s := { s with pcb := Function.update s.pcb ptr new }
  let s := s.appendNode n ptr
  { s with pcb := Function.update s.pcb ptr { s.pcb ptr with listNode := s.pcbList } }

def setState (s : Sched) (ptr : Nat) (st : ProcState) : Sched :=
  { s with pcb := Function.update s.pcb ptr { s.pcb ptr with state := st } }

/-- The jump to user mode is no part of the state. -/
def runProc (s : Sched) (ptr : Nat) : Sched := { s with currentPcb := ptr }

def runNext (s : Sched) : Sched := s.runProc s.pcbToRun

def saveContext (s : Sched) (r : Registers) : Sched :=
  if s.currentPcb ≠ 0 then
    let saved := { s.pcb s.currentPcb with cpuContext := toCpuStateFromSyscall r }
    { s with pcb := Function.update s.pcb s.currentPcb saved }
  else s

def pick (s : Sched) : Nat :=
  if s.currentPcb = 0 ∨ (s.pcb s.currentPcb).listNode = 0 ∨
      (s.node (s.pcb s.currentPcb).listNode).next = 0 then
    (s.node s.pcbList).data
  else (s.node (s.node (s.pcb s.currentPcb).listNode).next).data

/-- The last part of `handle_sched_on_pit_tick`, which returns into `run_next_proc` if the process
found can run. -/
def redirect (s : Sched) (r : Registers) : Registers × Sched :=
  let s := { s with pcbToRun := s.pick }
  let next := s.pcb s.pcbToRun
  if next.pid ≠ 0 ∧ next.pid ≠ kernelPid ∧ next.state = .ready then
    ({ r with rip := s.runNextProc, cs := 0x08, ss := 0x10, rsp := kernelStackTop,
              eflags := r.eflags &&& (2 ^ 64 - 1 - 2 ^ 9) },
      { s with schedTriggered := true, skipped := false })
  else (r, { s with schedTriggered := false, skipped := true })

def handleSchedOnPitTick (s : Sched) (r : Registers) : Registers × Sched :=
  if r.cs &&& 0x3 = 0 then (r, s)
  else if s.pcbList = 0 ∨
      (u64 (s.pitTimeMs + 2 ^ 64 - s.lastContextSwitchTime) < processRunTime ∧ !s.skipped) then
    (r, s)
  else redirect ({ s with lastContextSwitchTime := s.pitTimeMs }.saveContext r) r

/-- One timer interrupt at the time `now`: `isr_handler` clears `sched_triggered`, and a frame that
was redirected goes on in `run_next_proc`. -/
def tick (s : Sched) (now : Nat) (r : Registers) : Sched :=
  let s := (handleSchedOnPitTick { s with schedTriggered := false, pitTimeMs := now } r).2
  if s.schedTriggered then s.runNext else s

section saveContext

variable (s : Sched) (r : Registers)

theorem saveContext_node : (s.saveContext r).node = s.node := by
  rw [saveContext]
  split <;> rfl

theorem saveContext_pcbList : (s.saveContext r).pcbList = s.pcbList := by
  rw [saveContext]
  split <;> rfl

theorem saveContext_currentPcb : (s.saveContext r).currentPcb = s.currentPcb := by
  rw [saveContext]
  split <;> rfl

theorem saveContext_pcb (p : Nat) : (s.saveContext r).pcb p =
    if p = s.currentPcb ∧ p ≠ 0 then { s.pcb p with cpuContext := toCpuStateFromSyscall r }
    else s.pcb p := by
  rw [saveContext]
  by_cases h0 : s.currentPcb = 0
  · rw [if_neg (not_not_intro h0), if_neg]
    rintro ⟨rfl, hp⟩
    exact hp h0
  · rw [if_pos h0]
    by_cases hp : p = s.currentPcb
    · subst hp
      rw [if_pos ⟨rfl, h0⟩]
      exact Function.update_self ..
    · rw [if_neg (fun hh => hp hh.1)]
      exact Function.update_of_ne hp ..

theorem saveContext_listNode (p : Nat) :
    ((s.saveContext r).pcb p).listNode = (s.pcb p).listNode := by
  rw [saveContext_pcb]
  split <;> rfl

theorem saveContext_pid (p : Nat) : ((s.saveContext r).pcb p).pid = (s.pcb p).pid := by
  rw [saveContext_pcb]
  split <;> rfl

theorem saveContext_state (p : Nat) : ((s.saveContext r).pcb p).state = (s.pcb p).state := by
  rw [saveContext_pcb]
  split <;> rfl

theorem saveContext_pick : (s.saveContext r).pick = s.pick := by
  simp only [pick, saveContext_node, saveContext_pcbList, saveContext_currentPcb,
    saveContext_listNode]

end saveContext

/-- A process that `handle_sched_on_pit_tick` switches to. -/
def Runnable (s : Sched) (p : Nat) : Prop :=
  (s.pcb p).pid ≠ 0 ∧ (s.pcb p).pid ≠ kernelPid ∧ (s.pcb p).state = .ready

instance (s : Sched) (p : Nat) : Decidable (s.Runnable p) :=
  inferInstanceAs (Decidable ((s.pcb p).pid ≠ 0 ∧ (s.pcb p).pid ≠ kernelPid ∧
    (s.pcb p).state = .ready))

theorem redirect_saveContext (s : Sched) (r : Registers) :
    ((s.saveContext r).redirect r).2 =
      if s.Runnable s.pick then
        { s.saveContext r with pcbToRun := s.pick, schedTriggered := true, skipped := false }
      else
        { s.saveContext r with pcbToRun := s.pick, schedTriggered := false, skipped := true } := by
  rw [redirect]
  dsimp only
  rw [saveContext_pick, saveContext_pid, saveContext_state]
  by_cases hr : s.Runnable s.pick
  · rw [if_pos hr]
    exact congrArg Prod.snd (if_pos hr)
  · rw [if_neg hr]
    exact congrArg Prod.snd (if_neg hr)

/-- The state in which the next process is looked for. -/
def saved (s : Sched) (now : Nat) (r : Registers) : Sched :=
  { s with schedTriggered := false, pitTimeMs := now, lastContextSwitchTime := now }.saveContext r

theorem redirect_saved (s : Sched) (now : Nat) (r : Registers) :
    ((s.saved now r).redirect r).2 =
      if s.Runnable s.pick then
        { s.saved now r with pcbToRun := s.pick, schedTriggered := true, skipped := false }
      else { s.saved now r with pcbToRun := s.pick, schedTriggered := false, skipped := true } :=
  redirect_saveContext _ r

theorem tick_cases (s : Sched) (now : Nat) (r : Registers) :
    s.tick now r = { s with schedTriggered := false, pitTimeMs := now } ∨
    (s.pcbList ≠ 0 ∧ s.Runnable s.pick ∧ s.tick now r =
      { s.saved now r with
        pcbToRun := s.pick, schedTriggered := true, skipped := false, currentPcb := s.pick }) ∨
    (s.pcbList ≠ 0 ∧ ¬ s.Runnable s.pick ∧ s.tick now r =
      { s.saved now r with pcbToRun := s.pick, schedTriggered := false, skipped := true }) := by
  rw [tick, handleSchedOnPitTick]
  split
  · exact .inl rfl
  split
  · exact .inl rfl
  · next hdue =>
    have hl : s.pcbList ≠ 0 := fun h0 => hdue (.inl h0)
    have hred := s.redirect_saved now r
    rw [saved] at hred
    dsimp only at hred ⊢
    rw [hred, saved]
    right
    split
    · next hr => exact .inl ⟨hl, hr, rfl⟩
    · next hr => exact .inr ⟨hl, hr, rfl⟩

end Sched

end BiosKernel
