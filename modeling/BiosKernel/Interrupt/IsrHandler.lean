import BiosKernel.Process.RoundRobin
import BiosKernel.Syscall.Handler

namespace BiosKernel
open MachineInt
set_option autoImplicit true

def pml4Boot : Nat := 0x80000

/-- `IRQ_PIT + PIC1_OFFSET`. -/
def pitVector : Nat := 0x20

def pitHandler (s : Sched) : Sched := { s with pitTimeMs := u64 (s.pitTimeMs + 1) }

/-- `none` is the endless loop behind the message of an exception. What the other interrupts call,
the drivers of the keyboard and of the network card, uses neither CR3 nor the scheduler. -/
def isrHandler (isrNum : Nat) (regs : Registers) (c : Cpu) : Option (Registers × Cpu) :=
  let sched := { c.sched with schedTriggered := false }
  let prevCr3 := c.cr3
  let cr3Changed := prevCr3 ≠ pml4Kernel ∧ prevCr3 ≠ pml4Boot
  let cr3 := if cr3Changed then pml4Kernel else prevCr3
  if isrNum ≤ 31 then none
  else
    let handled :=
      if isrNum = pitVector then (pitHandler sched).handleSchedOnPitTick regs else (regs, sched)
    let cr3 := if cr3Changed ∧ handled.2.schedTriggered = false then prevCr3 else cr3
    some (handled.1, ⟨cr3, handled.2⟩)

namespace Sched

/-- The current process and the list stay, and only the current process may get another context. -/
structure Keeps (s s' : Sched) : Prop where
  node : s'.node = s.node
  pcbList : s'.pcbList = s.pcbList
  currentPcb : s'.currentPcb = s.currentPcb
  others : ∀ p, p ≠ s.currentPcb → s'.pcb p = s.pcb p
  current : ∃ ctx, s'.pcb s.currentPcb = { s.pcb s.currentPcb with cpuContext := ctx }

variable {s s' s'' : Sched}

theorem Keeps.pcb_eq (h : s.Keeps s') (p : Nat) :
    ∃ ctx, s'.pcb p = { s.pcb p with cpuContext := ctx } := by
  by_cases hp : p = s.currentPcb
  · rw [hp]
    exact h.current
  · exact ⟨_, h.others p hp⟩

theorem Keeps.threaded (h : s.Keeps s') (ht : s.Threaded xs) : s'.Threaded xs := by
  refine ht.congr h.node h.pcbList (fun p => ?_) (h.currentPcb ▸ ht.current)
  obtain ⟨ctx, he⟩ := h.pcb_eq p
  rw [he]

theorem keeps_of_pcb_eq (hnode : s'.node = s.node) (hlist : s'.pcbList = s.pcbList)
    (hcur : s'.currentPcb = s.currentPcb) (hpcb : s'.pcb = s.pcb) : s.Keeps s' := by
  refine ⟨hnode, hlist, hcur, ?_, (s.pcb s.currentPcb).cpuContext, ?_⟩
  · intro p _
    rw [hpcb]
  · rw [hpcb]

theorem Keeps.trans (h : s.Keeps s') (h' : s'.Keeps s'') : s.Keeps s'' := by
  refine ⟨h'.node.trans h.node, h'.pcbList.trans h.pcbList, h'.currentPcb.trans h.currentPcb,
    ?_, ?_⟩
  · intro p hp
    exact (h'.others p (h.currentPcb ▸ hp)).trans (h.others p hp)
  · obtain ⟨ctx, he⟩ := h.current
    obtain ⟨ctx', he'⟩ := h'.pcb_eq s.currentPcb
    exact ⟨ctx', by rw [he', he]⟩

theorem keeps_saveContext (s : Sched) (r : Registers) : s.Keeps (s.saveContext r) := by
  refine ⟨saveContext_node s r, saveContext_pcbList s r, saveContext_currentPcb s r, ?_, ?_⟩
  · intro p hp
    rw [saveContext_pcb, if_neg (fun h => hp h.1)]
  · rw [saveContext_pcb]
    split
    · exact ⟨_, rfl⟩
    · exact ⟨_, rfl⟩

end Sched

/-- How a timer interrupt of the code with the frame `r` ends: with the frame as it was, or with one
that goes on in `run_next_proc`, and then `r` is the context of the current process. -/
inductive TickOutcome (s : Sched) (r : Registers) : Registers → Sched → Prop where
  | stays (s' : Sched) (htrig : s'.schedTriggered = false) (hk : s.Keeps s') : TickOutcome s r r s'
  | switches (r' : Registers) (s' : Sched) (htrig : s'.schedTriggered = true) (hk : s.Keeps s')
      (hcs : r'.cs = 0x08) (hlist : s.pcbList ≠ 0) (hpick : s'.pcbToRun = s.pick)
      (hctx : s.currentPcb ≠ 0 →
        (s'.pcb s.currentPcb).cpuContext = toCpuStateFromSyscall r) : TickOutcome s r r' s'

theorem TickOutcome.of_keeps {s s₀ : Sched} (h : TickOutcome s₀ r r' s') (hs : s.Keeps s₀)
    (hp : s₀.pick = s.pick) : TickOutcome s r r' s' := by
  cases h with
  | stays _ htrig hk => exact .stays _ htrig (hs.trans hk)
  | switches _ _ htrig hk hcs hlist hpick hctx =>
    rw [hs.pcbList] at hlist
    rw [hs.currentPcb] at hctx
    exact .switches _ _ htrig (hs.trans hk) hcs hlist (hpick.trans hp) hctx

theorem Sched.handleSchedOnPitTick_outcome (s : Sched) (r : Registers)
    (htrig : s.schedTriggered = false) :
    TickOutcome s r (s.handleSchedOnPitTick r).1 (s.handleSchedOnPitTick r).2 := by
  have hstays : TickOutcome s r r s := .stays s htrig (keeps_of_pcb_eq rfl rfl rfl rfl)
  rw [handleSchedOnPitTick]
  split
  · exact hstays
  split
  · exact hstays
  · next hdue =>
    let s₀ := { s with lastContextSwitchTime := s.pitTimeMs }
    have hk : s.Keeps (s₀.saveContext r) :=
      (keeps_of_pcb_eq rfl rfl rfl rfl : s.Keeps s₀).trans (s₀.keeps_saveContext r)
    have hpick : (s₀.saveContext r).pick = s.pick := s₀.saveContext_pick r
    rw [redirect]
    dsimp only
    split
    · refine .switches _ _ rfl (hk.trans (keeps_of_pcb_eq rfl rfl rfl rfl)) rfl
        (fun h0 => hdue (.inl h0)) hpick ?_
      intro h0
      have hpcb := s₀.saveContext_pcb r s.currentPcb
      rw [if_pos ⟨rfl, h0⟩] at hpcb
      exact congrArg (·.cpuContext) hpcb
    · exact .stays _ rfl (hk.trans (keeps_of_pcb_eq rfl rfl rfl rfl))

/-- What the handler does for a device: the page tables of the interrupted code are back unless the
frame goes on in `run_next_proc`. -/
theorem isrHandler_outcome {c c' : Cpu} (h : isrHandler isrNum r c = some (r', c')) :
    32 ≤ isrNum ∧ TickOutcome c.sched r r' c'.sched ∧
      (c'.sched.schedTriggered = false → c'.cr3 = c.cr3) := by
  rw [isrHandler] at h
  dsimp only at h
  split at h
  · cases h
  · next hnum =>
    cases h
    refine ⟨by omega, ?_, ?_⟩
    · split
      · exact (Sched.handleSchedOnPitTick_outcome _ r rfl).of_keeps
          (Sched.keeps_of_pcb_eq rfl rfl rfl rfl) rfl
      · exact .stays _ rfl (Sched.keeps_of_pcb_eq rfl rfl rfl rfl)
    · intro htrig
      dsimp only at htrig ⊢
      rw [htrig]
      split
      · rfl
      · next hno => rw [if_neg (fun hc => hno ⟨hc, rfl⟩)]

end BiosKernel
