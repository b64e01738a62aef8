import BiosKernel.Interrupt.Pic

namespace BiosKernel
set_option autoImplicit true

open I8259

/-- The pics, the vector that is being handled, and those that the processor has got, the last one
first. -/
structure PicState where
  pics : Pair
  current : Option Nat
  served : List Nat

/-- What happens to the pics. The handler runs with interrupts off, from `take` to `finish`, and
requests come and masks change at any time. -/
inductive PicEvent where
  | request (line : Nat)
  | setMask (line : Nat)
  | clearMask (line : Nat)
  | take
  | finish
  deriving DecidableEq

namespace PicState

/-- `none` is the exception of a vector without a gate, behind whose message the kernel stops. -/
def step (idt : Idt) (s : PicState) : PicEvent → Option PicState
  | .request line => some { s with pics := s.pics.request line }
  | .setMask line => some { s with pics := irqSetMask s.pics line }
  | .clearMask line => some { s with pics := irqClearMask s.pics line }
  | .take =>
    if s.current = none ∧ s.pics.int then
      let (v, pics) := s.pics.acknowledge
      if (idt v).present then some ⟨pics, some v.toNat, v.toNat :: s.served⟩ else none
    else some s
  | .finish =>
    match s.current with
    | none => some s
    | some isrNum => some { s with pics := picSendEoi s.pics (isrNum - 0x20), current := none }

end PicState

/-- What the pics are for: a line is served when it is requested and not masked, and no such line
has a higher priority. -/
structure IrqLines where
  requested : Nat → Bool
  masked : Nat → Bool
  serving : Option Nat
  served : List Nat

namespace IrqLines

/-- The lines of the slave need its input at the master, too. -/
def ready (a : IrqLines) (l : Nat) : Bool :=
  a.requested l && !a.masked l && (l < 8 || !a.masked 2)

/-- The lines whose vectors have a gate. -/
def handled : List Nat := [0, 1, 11]

def step (a : IrqLines) : PicEvent → Option IrqLines
  | .request line => some { a with requested := Function.update a.requested line true }
  | .setMask line => some { a with masked := Function.update a.masked line true }
  | .clearMask line => some { a with masked := Function.update a.masked line false }
  | .take =>
    match a.serving, order.find? a.ready with
    | none, some l =>
      if l ∈ handled then
        some { a with
          requested := Function.update a.requested l false, serving := some (0x20 + l)
          served := (0x20 + l) :: a.served }
      else none
    | _, _ => some a
  | .finish => some { a with serving := none }

end IrqLines

theorem initIsrHandlers_present (handlers : BitVec 8 → X64.Word) :
    ∀ l ∈ order, (initIsrHandlers handlers emptyIdt (BitVec.ofNat 8 (0x20 + l))).present =
      decide (l ∈ IrqLines.handled) := by
  simp only [initIsrHandlers, foldl_idtGateInit_present]
  decide

namespace PicState

/-- What the lines see of the pics. -/
def lines (s : PicState) : IrqLines where
  requested := s.pics.bit Chip.irr
  masked := s.pics.bit Chip.imr
  serving := s.current
  served := s.served

/-- The registers in service while the handler of a vector runs. -/
def InService (p : Pair) : Option Nat → Prop
  | none => p.Idle
  | some isrNum => ∃ l ∈ order, isrNum = 0x20 + l ∧
      if l < 8 then p.master.isr = 1#8 <<< l ∧ p.slave.isr = 0
      else p.master.isr = 1#8 <<< 2 ∧ p.slave.isr = 1#8 <<< (l - 8)

/-- The chips are as `pic_init` left them, but for their requests and masks. -/
structure Configured (p : Pair) : Prop where
  cascaded : p.Cascaded
  master : p.master.icw2 = 0x20 ∧ p.master.icw4 = 1 ∧ p.master.expects = .mask
  slave : p.slave.icw2 = 0x28 ∧ p.slave.icw4 = 1 ∧ p.slave.expects = .mask

structure Inv (s : PicState) : Prop where
  configured : Configured s.pics
  inService : InService s.pics s.current

end PicState

/-- Whatever the firmware left in the chips, `pic_init` keeps its masks and drops the rest. -/
theorem picInit_lines (p : Pair) : PicState.Inv ⟨picInit p 0x20 0x28, none, []⟩ ∧
    PicState.lines ⟨picInit p 0x20 0x28, none, []⟩ =
      ⟨fun _ => false, p.bit Chip.imr, none, []⟩ := by
  have hirr : (picInit p 0x20 0x28).bit Chip.irr = fun _ => false := by
    funext l
    rw [picInit_eq, Pair.bit]
    split
    · exact BitVec.getLsbD_zero
    · exact BitVec.getLsbD_zero
  have hcascaded : (picInit p 0x20 0x28).Cascaded :=
    ⟨rfl, rfl, show (0 : Byte).getLsbD 2 = false by decide⟩
  refine ⟨⟨⟨hcascaded, ⟨rfl, rfl, rfl⟩, ⟨rfl, rfl, rfl⟩⟩, ⟨rfl, rfl⟩⟩, ?_⟩
  rw [PicState.lines, hirr]
  rfl

namespace PicState

variable {s : PicState}

theorem mem_order_iff : l ∈ order ↔ l < 16 ∧ l ≠ 2 := by
  constructor
  · have h : ∀ l ∈ order, l < 16 ∧ l ≠ 2 := by decide
    exact h l
  · rintro ⟨hl, h2⟩
    have h : ∀ l < 16, l ≠ 2 → l ∈ order := by decide
    exact h l hl h2

/-- Events of the lines that the chips have. Line 2 is the one of the slave. -/
def Fits : PicEvent → Prop
  | .request line => line ∈ order
  | .setMask line => line < 16
  | .clearMask line => line < 16
  | .take => True
  | .finish => True

instance : DecidablePred Fits
  | .request line => inferInstanceAs (Decidable (line ∈ order))
  | .setMask line => inferInstanceAs (Decidable (line < 16))
  | .clearMask line => inferInstanceAs (Decidable (line < 16))
  | .take => .isTrue trivial
  | .finish => .isTrue trivial

theorem Configured.congr (h : Configured p)
    (hm : q.master.icw2 = p.master.icw2 ∧ q.master.icw3 = p.master.icw3 ∧
      q.master.icw4 = p.master.icw4 ∧ q.master.expects = p.master.expects)
    (hs : q.slave.icw2 = p.slave.icw2 ∧ q.slave.icw3 = p.slave.icw3 ∧
      q.slave.icw4 = p.slave.icw4 ∧ q.slave.expects = p.slave.expects)
    (hirr : q.bit Chip.irr 2 = false) : Configured q := by
  obtain ⟨hm2, hm3, hm4, hme⟩ := hm
  obtain ⟨hs2, hs3, hs4, hse⟩ := hs
  refine ⟨⟨hm3.trans h.cascaded.master_icw3, hs3.trans h.cascaded.slave_icw3, hirr⟩, ?_, ?_⟩
  · rw [hm2, hm4, hme]
    exact h.master
  · rw [hs2, hs4, hse]
    exact h.slave

theorem InService.congr (h : InService p v) (hm : q.master.isr = p.master.isr)
    (hs : q.slave.isr = p.slave.isr) : InService q v := by
  cases v with
  | none => exact ⟨hm.trans h.master, hs.trans h.slave⟩
  | some v =>
    obtain ⟨l, hl, hv, hr⟩ := h
    refine ⟨l, hl, hv, ?_⟩
    rw [hm, hs]
    exact hr

theorem updateMask_eq (h : Configured p) (change : Byte → Nat → Byte) (l : Nat) :
    updateMask change p l =
      if l < 8 then { p with master := { p.master with imr := change p.master.imr l } }
      else { p with slave := { p.slave with imr := change p.slave.imr (l - 8) } } := by
  have hdata {c : Chip} (hc : c.expects = .mask) (v : Byte) :
      c.writeData v = { c with imr := v } := by
    rw [Chip.writeData, hc]
  by_cases hl : l < 8
  · rw [updateMask, if_pos hl, if_pos hl]
    exact congrArg (fun c => { p with master := c }) (hdata h.master.2.2 _)
  · rw [updateMask, if_neg hl, if_neg hl]
    exact congrArg (fun c => { p with slave := c }) (hdata h.slave.2.2 _)

theorem Inv.updateMask {change : Byte → Nat → Byte} (h : Inv s)
    (hf : ∀ (v : Byte) (i : Nat), i < 8 → ∀ j,
      (change v i).getLsbD j = if i = j then b else v.getLsbD j) (hl : l < 16) :
    Inv { s with pics := BiosKernel.updateMask change s.pics l } ∧
      lines { s with pics := BiosKernel.updateMask change s.pics l } =
        { s.lines with masked := Function.update s.lines.masked l b } := by
  have himr : (BiosKernel.updateMask change s.pics l).bit Chip.imr =
      Function.update (s.pics.bit Chip.imr) l b := by
    apply Pair.bit_update hf hl
    · rw [updateMask_eq h.configured]
      split <;> rfl
    · rw [updateMask_eq h.configured]
      split <;> rfl
  have hirr : (BiosKernel.updateMask change s.pics l).bit Chip.irr = s.pics.bit Chip.irr := by
    rw [updateMask_eq h.configured]
    split <;> rfl
  refine ⟨⟨h.configured.congr ?_ ?_ ?_, h.inService.congr ?_ ?_⟩, ?_⟩
  · rw [updateMask_eq h.configured]
    split <;> exact ⟨rfl, rfl, rfl, rfl⟩
  · rw [updateMask_eq h.configured]
    split <;> exact ⟨rfl, rfl, rfl, rfl⟩
  · rw [hirr]
    exact h.configured.cascaded.master_irr
  · rw [updateMask_eq h.configured]
    split <;> rfl
  · rw [updateMask_eq h.configured]
    split <;> rfl
  · rw [lines, himr, hirr]
    rfl

theorem Inv.request (h : Inv s) (hl : l ∈ order) :
    Inv { s with pics := s.pics.request l } ∧ lines { s with pics := s.pics.request l } =
      { s.lines with requested := Function.update s.lines.requested l true } := by
  obtain ⟨hl, h2⟩ := mem_order_iff.mp hl
  have hirr := Pair.bit_request (p := s.pics) hl
  have himr : (s.pics.request l).bit Chip.imr = s.pics.bit Chip.imr := by
    rw [Pair.request]
    split <;> rfl
  refine ⟨⟨h.configured.congr ?_ ?_ ?_, h.inService.congr ?_ ?_⟩, ?_⟩
  · rw [Pair.request]
    split <;> exact ⟨rfl, rfl, rfl, rfl⟩
  · rw [Pair.request]
    split <;> exact ⟨rfl, rfl, rfl, rfl⟩
  · rw [hirr, Function.update_of_ne (Ne.symm h2)]
    exact h.configured.cascaded.master_irr
  · rw [Pair.request]
    split <;> rfl
  · rw [Pair.request]
    split <;> rfl
  · rw [lines, himr, hirr]
    rfl

theorem Configured.vector (h : Configured p) (hl : l ∈ order) : (p.vector l).toNat = 0x20 + l := by
  have hm : ∀ l < 8, (0x20 &&& 0xF8 ||| BitVec.ofNat 8 l : Byte).toNat = 0x20 + l := by decide
  have hs : ∀ l < 8, (0x28 &&& 0xF8 ||| BitVec.ofNat 8 l : Byte).toNat = 0x28 + l := by decide
  have h16 := (mem_order_iff.mp hl).1
  rw [Pair.vector, Chip.vector, Chip.vector, h.master.1, h.slave.1]
  split
  · next h8 => exact hm l h8
  · rw [hs _ (by omega)]
    omega

theorem Configured.take_isr (h : Configured p) (hi : p.Idle) (l : Nat) :
    if l < 8 then (p.take l).master.isr = 1#8 <<< l ∧ (p.take l).slave.isr = 0
    else (p.take l).master.isr = 1#8 <<< 2 ∧ (p.take l).slave.isr = 1#8 <<< (l - 8) := by
  have htake {c : Chip} (h4 : c.icw4 = 1) (h0 : c.isr = 0) (i : Nat) :
      (c.take i).isr = 1#8 <<< i := by
    rw [Chip.take, h4, h0]
    exact BitVec.zero_or
  rw [Pair.take]
  split
  · exact ⟨htake h.master.2.1 hi.master l, hi.slave⟩
  · exact ⟨htake h.master.2.1 hi.master 2, htake h.slave.2.1 hi.slave (l - 8)⟩

theorem Inv.take (h : Inv s) (hcur : s.current = none) (hl : l ∈ order) :
    Inv ⟨s.pics.take l, some (0x20 + l), (0x20 + l) :: s.served⟩ ∧
      lines ⟨s.pics.take l, some (0x20 + l), (0x20 + l) :: s.served⟩ =
        { s.lines with
          requested := Function.update s.lines.requested l false, serving := some (0x20 + l)
          served := (0x20 + l) :: s.lines.served } := by
  have hi : s.pics.Idle := by
    have hs := h.inService
    rw [hcur] at hs
    exact hs
  obtain ⟨h16, h2⟩ := mem_order_iff.mp hl
  have hirr := Pair.bit_take h.configured.cascaded h16
  have himr : (s.pics.take l).bit Chip.imr = s.pics.bit Chip.imr := by
    rw [Pair.take]
    split <;> rfl
  refine ⟨⟨h.configured.congr ?_ ?_ ?_, l, hl, rfl, h.configured.take_isr hi l⟩, ?_⟩
  · rw [Pair.take]
    split <;> exact ⟨rfl, rfl, rfl, rfl⟩
  · rw [Pair.take]
    split <;> exact ⟨rfl, rfl, rfl, rfl⟩
  · rw [hirr, Function.update_of_ne (Ne.symm h2)]
    exact h.configured.cascaded.master_irr
  · rw [lines, himr, hirr]
    rfl

theorem Inv.finish (h : Inv s) (hcur : s.current = some v) :
    Inv { s with pics := picSendEoi s.pics (v - 0x20), current := none } ∧
      lines { s with pics := picSendEoi s.pics (v - 0x20), current := none } =
        { s.lines with serving := none } := by
  have hs := h.inService
  rw [hcur] at hs
  obtain ⟨l, hl, rfl, hr⟩ := hs
  have h16 := (mem_order_iff.mp hl).1
  have heoi : picSendEoi s.pics (0x20 + l - 0x20) =
      ⟨{ s.pics.master with isr := 0 }, { s.pics.slave with isr := 0 }⟩ := by
    rw [picSendEoi, Nat.add_sub_cancel_left]
    by_cases h8 : l < 8
    · rw [if_pos h8] at hr
      rw [if_neg (by omega)]
      have hm := Chip.writeCommand_eoi hr.1 h8
      have hslave : s.pics.slave = { s.pics.slave with isr := 0 } := by rw [← hr.2]
      show (⟨s.pics.master.writeCommand 0x20, s.pics.slave⟩ : Pair) = _
      rw [hm, ← hslave]
    · rw [if_neg h8] at hr
      rw [if_pos (by omega)]
      have hm := Chip.writeCommand_eoi hr.1 (by decide)
      have hsl := Chip.writeCommand_eoi hr.2 (by omega)
      show (⟨s.pics.master.writeCommand 0x20, s.pics.slave.writeCommand 0x20⟩ : Pair) = _
      rw [hm, hsl]
  rw [heoi]
  exact ⟨⟨h.configured.congr ⟨rfl, rfl, rfl, rfl⟩ ⟨rfl, rfl, rfl, rfl⟩
    h.configured.cascaded.master_irr, ⟨rfl, rfl⟩⟩, rfl⟩

variable (handlers : BitVec 8 → X64.Word)

/-- The system of the kernel, with the gates of `init_isr_handlers`. -/
def kernelStep : PicState → PicEvent → Option PicState := step (initIsrHandlers handlers emptyIdt)

theorem lines_ready (s : PicState) : s.lines.ready = s.pics.ready := rfl

/-- Each step of the pics and their driver is the step of the lines. -/
theorem Inv.simulates (h : Inv s) (he : Fits e) :
    (kernelStep handlers s e).map lines = s.lines.step e ∧
      ∀ s', kernelStep handlers s e = some s' → Inv s' := by
  have hsome {s' : PicState} {a : IrqLines} (hs : Inv s' ∧ s'.lines = a) :
      (some s').map lines = some a ∧ ∀ s'', some s' = some s'' → Inv s'' :=
    ⟨congrArg some hs.2, fun s'' hs' => Option.some.inj hs' ▸ hs.1⟩
  cases e with
  | request l => exact hsome (h.request he)
  | setMask l => exact hsome (h.updateMask (fun v _ hi => getLsbD_set v hi) he)
  | clearMask l => exact hsome (h.updateMask (fun v _ hi => getLsbD_clear v hi) he)
  | finish =>
    rw [kernelStep, step]
    cases hcur : s.current with
    | none =>
      refine hsome ⟨h, ?_⟩
      rw [lines, hcur]
    | some v => exact hsome (h.finish hcur)
  | take =>
    rw [kernelStep, step, IrqLines.step, lines_ready]
    cases hcur : s.current with
    | some v =>
      have hserving : s.lines.serving = some v := hcur
      rw [if_neg (fun hn => Option.some_ne_none v hn.1), hserving]
      exact hsome ⟨h, rfl⟩
    | none =>
      have hserving : s.lines.serving = none := hcur
      have hidle : s.pics.Idle := by
        have hs := h.inService
        rw [hcur] at hs
        exact hs
      obtain ⟨hint, hack⟩ := Pair.acknowledge_of_idle h.configured.cascaded hidle
      rw [hserving, hint]
      cases hf : order.find? s.pics.ready with
      | none =>
        rw [if_neg (fun hn => Bool.false_ne_true hn.2)]
        exact hsome ⟨h, rfl⟩
      | some l =>
        have hl : l ∈ order := List.mem_of_find?_eq_some hf
        have hv := h.configured.vector hl
        have hgate : (initIsrHandlers handlers emptyIdt (s.pics.vector l)).present =
            decide (l ∈ IrqLines.handled) := by
          rw [← initIsrHandlers_present handlers l hl, ← hv, BitVec.ofNat_toNat, BitVec.setWidth_eq]
        rw [if_pos ⟨rfl, rfl⟩, hack l hf]
        dsimp only
        rw [hgate, hv]
        by_cases hh : l ∈ IrqLines.handled
        · rw [if_pos (decide_eq_true hh), if_pos hh]
          exact hsome (h.take hcur hl)
        · rw [if_neg (by rw [decide_eq_false hh]; decide), if_neg hh]
          exact ⟨rfl, fun s' hs' => by cases hs'⟩

end PicState

end BiosKernel
