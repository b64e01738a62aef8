import BiosKernel.Lib.Priority
import BiosKernel.Lib.Runs
import BiosKernel.Interrupt.PicState

namespace BiosKernel
set_option autoImplicit true

open I8259 Runs

namespace PicState

variable {s : PicState} (handlers : BitVec 8 → X64.Word)

/-- The system after `pic_init`. -/
def boot (p : Pair) : PicState := ⟨picInit p 0x20 0x28, none, []⟩

/-- For every order of requests, masks and interrupts, the pics and their driver are a controller
that gives each line its vector by priority. The kernel stops at a line whose vector has no gate. -/
theorem pics_refine_lines (p : Pair) (hes : ∀ e ∈ es, Fits e) :
    (run (kernelStep handlers) (boot p) es).map lines =
      run IrqLines.step ⟨fun _ => false, p.bit Chip.imr, none, []⟩ es := by
  obtain ⟨hi, hl⟩ := picInit_lines p
  rw [← hl]
  exact (run_map (fun s e hs he => hs.simulates handlers he) hi hes).1

/-- The masks that a firmware may leave. -/
def firmware : Pair :=
  ⟨{ initialised 0xB8 8 4 with irr := 0x40 }, { initialised 0x8E 0x70 2 with isr := 1 }⟩

/-- The timer comes before the network card, and the mouse stops the kernel. -/
theorem pics_refine_lines_firmware :
    (run (kernelStep fun _ => 0x811000) (boot firmware)
      [.request 11, .clearMask 11, .request 0, .take, .finish, .take]).map (·.served) =
        some [43, 32] ∧
      (run (kernelStep fun _ => 0x811000) (boot firmware) [.request 12, .take]).map lines =
        none := by
  refine ⟨?_, ?_⟩
  · have hfits : ∀ e ∈ [.request 11, .clearMask 11, .request 0, .take, .finish, .take], Fits e := by
      decide
    have h := congrArg (Option.map IrqLines.served)
      (pics_refine_lines (fun _ => 0x811000) firmware hfits)
    rw [Option.map_map] at h
    exact h.trans (by decide)
  · rw [pics_refine_lines (fun _ => 0x811000) firmware
      (show ∀ e ∈ [.request 12, .take], Fits e by decide)]
    rfl

end PicState

/-- The kernel handles interrupts, at most `n` of them, and no new ones come. -/
def handleRounds : Nat → List PicEvent
  | 0 => []
  | n + 1 => .take :: .finish :: handleRounds n

namespace IrqLines

theorem ready_served (a : IrqLines) (l : Nat) (serving : Option Nat) (served : List Nat) :
    ready ⟨Function.update a.requested l false, a.masked, serving, served⟩ =
      Function.update a.ready l false := by
  funext k
  by_cases hk : k = l
  · subst hk
    simp only [ready, Function.update_self, Bool.false_and]
  · simp only [ready, Function.update_of_ne hk]

theorem step_take_none {a : IrqLines} (ha : a.serving = none)
    (hf : order.find? a.ready = none) : a.step .take = some a := by
  simp only [step, ha, hf]

theorem step_take_some {a : IrqLines} (ha : a.serving = none)
    (hf : order.find? a.ready = some l) :
    a.step .take = if l ∈ handled then some ⟨Function.update a.requested l false, a.masked,
      some (0x20 + l), (0x20 + l) :: a.served⟩ else none := by
  simp only [step, ha, hf]

theorem rounds_served {a : IrqLines} (ha : a.serving = none) (n : Nat) :
    (run IrqLines.step a (handleRounds n)).map (·.served) =
      if ∀ l ∈ (order.filter a.ready).take n, l ∈ handled then
        some (((order.filter a.ready).take n).reverse.map (0x20 + ·) ++ a.served)
      else none := by
  induction n generalizing a with
  | zero => exact (if_pos (fun l hl => absurd hl List.not_mem_nil)).symm
  | succ n ih =>
    rw [handleRounds, run]
    cases hf : order.find? a.ready with
    | none =>
      have hnone : order.filter a.ready = [] :=
        List.filter_eq_nil_iff.mpr (List.find?_eq_none.mp hf)
      have hfinish : a.step .finish = some a := by rw [step, ← ha]
      have hrest := ih ha
      rw [hnone, List.take_nil] at hrest ⊢
      rw [← hrest, step_take_none ha hf, Option.bind_some, run, hfinish, Option.bind_some]
    | some l =>
      rw [Priority.filter_of_find? (by decide) hf, List.take_succ_cons, step_take_some ha hf]
      by_cases hl : l ∈ handled
      · rw [if_pos hl, Option.bind_some, run, step, Option.bind_some, ih rfl, ready_served]
        simp [hl]
      · rw [if_neg hl, if_neg]
        · rfl
        · intro hall
          exact hl (hall l List.mem_cons_self)

end IrqLines

/-- In every reachable state that handles nothing, the next interrupts are those of the lines that
are requested and not masked, by priority and each of them once, as long as they have gates. -/
theorem PicState.rounds_serve (handlers : BitVec 8 → X64.Word) (p : Pair) (hes : ∀ e ∈ es, Fits e)
    (hrun : run (kernelStep handlers) (boot p) es = some s) (hcur : s.current = none) (n : Nat) :
    (run (kernelStep handlers) s (handleRounds n)).map (·.served) =
      if ∀ l ∈ (order.filter s.pics.ready).take n, l ∈ IrqLines.handled then
        some (((order.filter s.pics.ready).take n).reverse.map (0x20 + ·) ++ s.served)
      else none := by
  have hsim (s : PicState) (e : PicEvent) (hs : Inv s) (he : Fits e) := hs.simulates handlers he
  have hi : Inv s := (run_map hsim (picInit_lines p).1 hes).2 s hrun
  have hfit : ∀ e ∈ handleRounds n, Fits e := by
    intro e he
    induction n with
    | zero => cases he
    | succ n ih =>
      rcases List.mem_cons.mp he with rfl | he
      · trivial
      rcases List.mem_cons.mp he with rfl | he
      · trivial
      · exact ih he
  have hmap := congrArg (Option.map IrqLines.served) (run_map hsim hi hfit).1
  rw [Option.map_map, IrqLines.rounds_served hcur] at hmap
  exact hmap

/-- The three lines with gates ask at once. -/
theorem PicState.rounds_serve_all : ∃ s, run (kernelStep fun _ => 0x811000) (boot firmware)
    [.clearMask 11, .request 11, .request 1, .request 0] = some s ∧
    (run (kernelStep fun _ => 0x811000) s (handleRounds 5)).map (·.served) = some [43, 33, 32] := by
  refine ⟨_, rfl, ?_⟩
  have hfits : ∀ e ∈ [PicEvent.clearMask 11, .request 11, .request 1, .request 0], Fits e := by
    decide
  exact (rounds_serve (fun _ => 0x811000) firmware hfits rfl rfl 5).trans (by decide)

end BiosKernel
