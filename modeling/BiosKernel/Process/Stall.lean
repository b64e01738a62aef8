import BiosKernel.Process.RoundRobin

namespace BiosKernel
open MachineInt
set_option autoImplicit true

namespace Sched

variable {s : Sched} {r : Registers}

/-- The PCBs that `pcb_list` holds, whatever their own fields say. -/
def Lists (s : Sched) (xs : List Nat) : Prop :=
  ∃ ns, Linked.Chain 0 (fun n => (s.node n).next) s.pcbList ns ∧
    ns.map (fun n => (s.node n).data) = xs

/-- A tick from user mode with the quantum over, or with a switch still owed. -/
structure Due (s : Sched) (r : Registers) : Prop where
  user : r.cs &&& 0x3 ≠ 0
  expired : processRunTime ≤ u64 (s.pitTimeMs + 2 ^ 64 - s.lastContextSwitchTime) ∨ s.skipped = true

def SelectsReady (s : Sched) (r : Registers) : Prop :=
  (handleSchedOnPitTick s r).2.schedTriggered = true ∧
    ((handleSchedOnPitTick s r).2.pcb (handleSchedOnPitTick s r).2.pcbToRun).state = .ready

theorem Lists.pcbList_ne (h : s.Lists xs) (hp : p ∈ xs) : s.pcbList ≠ 0 := by
  obtain ⟨ns, hchain, rfl⟩ := h
  cases ns with
  | nil => cases hp
  | cons n ns =>
    rw [hchain.head_eq]
    exact hchain.2.1

theorem Due.handle_eq (h : s.Due r) (hl : s.pcbList ≠ 0) : (handleSchedOnPitTick s r).2 =
    if s.Runnable s.pick then
      { { s with lastContextSwitchTime := s.pitTimeMs }.saveContext r with
        pcbToRun := s.pick, schedTriggered := true, skipped := false }
    else
      { { s with lastContextSwitchTime := s.pitTimeMs }.saveContext r with
        pcbToRun := s.pick, schedTriggered := false, skipped := true } := by
  rw [handleSchedOnPitTick, if_neg h.user, if_neg]
  · exact redirect_saveContext _ r
  · rintro (h0 | ⟨hlt, hno⟩)
    · exact hl h0
    · rcases h.expired with hge | hskip
      · omega
      · rw [hskip] at hno
        cases hno

/-- With a process ready somewhere in the list, a tick that is due finds one exactly if the process
behind the current one is ready. -/
theorem selectsReady_iff (h : s.Lists xs) (hd : s.Due r)
    (hready : ∃ p ∈ xs, (s.pcb p).state = .ready ∧ 2 ≤ (s.pcb p).pid) :
    s.SelectsReady r ↔ (s.pcb s.pick).state = .ready ∧ 2 ≤ (s.pcb s.pick).pid := by
  obtain ⟨p, hp, _⟩ := hready
  have hpid : s.Runnable s.pick ↔ (s.pcb s.pick).state = .ready ∧ 2 ≤ (s.pcb s.pick).pid := by
    rw [Runnable, kernelPid]
    constructor
    · rintro ⟨h0, h1, hs⟩
      exact ⟨hs, by omega⟩
    · rintro ⟨hs, h2⟩
      exact ⟨by omega, by omega, hs⟩
  rw [SelectsReady, hd.handle_eq (h.pcbList_ne hp), ← hpid]
  by_cases hr : s.Runnable s.pick
  · rw [if_pos hr]
    refine ⟨fun _ => hr, fun _ => ⟨rfl, ?_⟩⟩
    exact (saveContext_state _ r s.pick).trans hr.2.2
  · rw [if_neg hr]
    refine ⟨?_, fun hh => absurd hh hr⟩
    rintro ⟨hfalse, _⟩
    cases hfalse

theorem lists_twoProcesses : twoProcesses.Lists [0x2000260, 0x2000060] := by
  have h := twoProcesses_built.threaded
  refine ⟨_, h.chain, ?_⟩
  rw [List.map_map]
  exact List.map_congr_left (g := id) h.data |>.trans (List.map_id _)

theorem selectsReady_twoProcesses :
    { twoProcesses with pitTimeMs := 60 }.SelectsReady userFrame :=
  (selectsReady_iff (s := { twoProcesses with pitTimeMs := 60 }) (r := userFrame)
    lists_twoProcesses ⟨by decide, by decide⟩ ⟨0x2000060, by decide, by decide, by decide⟩).mpr
      ⟨by decide, by decide⟩

/-- While the process behind the current one is not ready, no tick switches and every tick looks at
the same process. -/
theorem tick_stalled (h : ¬ s.Runnable s.pick) (now : Nat) (r : Registers) :
    (s.tick now r).schedTriggered = false ∧
      ¬ (s.tick now r).Runnable (s.tick now r).pick := by
  rcases s.tick_cases now r with he | ⟨_, hr, _⟩ | ⟨_, _, he⟩
  · rw [he]
    exact ⟨rfl, h⟩
  · exact absurd hr h
  · rw [he]
    refine ⟨rfl, ?_⟩
    have hpick : (s.saved now r).pick = s.pick := saveContext_pick _ r
    have hrun : (s.saved now r).Runnable s.pick ↔ s.Runnable s.pick := by
      rw [Runnable, saved, saveContext_pid, saveContext_state]
      exact Iff.rfl
    intro hr
    exact h (hrun.mp (hpick ▸ hr))

theorem switches_stalled (h : ¬ s.Runnable s.pick) (ts : List (Nat × Registers)) :
    s.switches ts = [] := by
  induction ts generalizing s with
  | nil => rfl
  | cons t ts ih =>
    obtain ⟨hno, hr⟩ := tick_stalled h t.1 t.2
    rw [switches, hno]
    exact ih hr

/-- The older process is ready, the newer one, which comes first in the list, waits. -/
def oneWaiting : Sched := twoProcesses.setState 0x2000260 .waiting

/-- The ready process is never run. -/
theorem oneWaiting_stalls : oneWaiting.Lists [0x2000260, 0x2000060] ∧
    { oneWaiting with pitTimeMs := 60 }.Due userFrame ∧
    (oneWaiting.pcb 0x2000060).state = .ready ∧ (oneWaiting.pcb 0x2000060).pid = 2 ∧
    ¬ { oneWaiting with pitTimeMs := 60 }.SelectsReady userFrame ∧
    ∀ ts, oneWaiting.switches ts = [] := by
  refine ⟨lists_twoProcesses, ⟨by decide, by decide⟩, by decide, by decide, ?_,
    switches_stalled (by decide)⟩
  rintro ⟨htrig, _⟩
  exact absurd htrig (by decide)

end Sched

end BiosKernel
