import BiosKernel.Lib.I8259
import BiosKernel.Interrupt.Entry

namespace BiosKernel
set_option autoImplicit true

open I8259

/-- `idt_gate_descriptor`. -/
structure IdtGateDescriptor where
  offsetLow : BitVec 16
  selector : BitVec 16
  ist : BitVec 8
  typeAttributes : BitVec 8
  offsetMedium : BitVec 16
  offsetHigh : BitVec 32
  deriving DecidableEq

abbrev Idt := BitVec 8 → IdtGateDescriptor

def idtGateInit (idt : Idt) (gateDescriptorNum : BitVec 8) (handler : X64.Word) : Idt :=
  let idtGate :=
    { offsetLow := (handler &&& 0xFFFF).truncate 16
      offsetMedium := (handler >>> 0x10 &&& 0xFFFF).truncate 16
      offsetHigh := (handler >>> 0x20 &&& 0xFFFFFFFF).truncate 32
      selector := kernelCsSelector.truncate 16
      ist := 0x0
      typeAttributes := 0b10001110 }
  Function.update idt gateDescriptorNum idtGate

/-- The exceptions, the interrupts 32 to 34 and the one of the network card. -/
def initIsrHandlers (handlers : BitVec 8 → X64.Word) (idt : Idt) : Idt :=
  ((List.range 35).map (BitVec.ofNat 8) ++ [0x20 + 11]).foldl
    (fun idt v => idtGateInit idt v (handlers v)) idt

namespace IdtGateDescriptor

/-- The processor looks at the bit for a present gate. -/
def present (g : IdtGateDescriptor) : Bool := g.typeAttributes.getLsbD 7

end IdtGateDescriptor

def pic1Command : Nat := 0x20

def pic1Data : Nat := 0x21

def pic2Command : Nat := 0xA0

def pic2Data : Nat := 0xA1

namespace Pic

def outb (p : Pair) (port : Nat) (val : Byte) : Pair :=
  if port = pic1Command then { p with master := p.master.writeCommand val }
  else if port = pic1Data then { p with master := p.master.writeData val }
  else if port = pic2Command then { p with slave := p.slave.writeCommand val }
  else if port = pic2Data then { p with slave := p.slave.writeData val }
  else p

/-- A port without a device reads as ones. -/
def inb (p : Pair) (port : Nat) : Byte :=
  if port = pic1Command then p.master.readCommand
  else if port = pic1Data then p.master.readData
  else if port = pic2Command then p.slave.readCommand
  else if port = pic2Data then p.slave.readData
  else 0xFF

end Pic

open Pic

def picSendEoi (p : Pair) (irq : Nat) : Pair :=
  let p := if irq ≥ 8 then outb p pic2Command 0x20 else p
  outb p pic1Command 0x20

/-- What `pic_init` writes. `io_wait` and `pit_init` write to other ports. -/
def picInit (p : Pair) (offset1 offset2 : Byte) : Pair :=
  let a1 := inb p pic1Data
  let a2 := inb p pic2Data
  [(pic1Command, 0x11), (pic2Command, 0x11), (pic1Data, offset1), (pic2Data, offset2),
    (pic1Data, 4), (pic2Data, 2), (pic1Data, 1), (pic2Data, 1), (pic1Data, a1),
    (pic2Data, a2)].foldl
    (fun p w => outb p w.1 w.2) p

/-- Change the bit of a line in the mask of the pic that has it. -/
def updateMask (change : Byte → Nat → Byte) (p : Pair) (irqLine : Nat) : Pair :=
  let (port, line) := if irqLine < 8 then (pic1Data, irqLine) else (pic2Data, irqLine - 8)
  outb p port (change (inb p port) line)

def irqSetMask : Pair → Nat → Pair := updateMask fun value line => value ||| 1#8 <<< line

def irqClearMask : Pair → Nat → Pair := updateMask fun value line => value &&& ~~~(1#8 <<< line)

/-- No gate is there before `init_isr_handlers`. -/
def emptyIdt : Idt := fun _ => ⟨0, 0, 0, 0, 0, 0⟩

theorem foldl_idtGateInit_present (handlers : BitVec 8 → X64.Word) (vs : List (BitVec 8))
    (idt : Idt) (v : BitVec 8) :
    (vs.foldl (fun idt v => idtGateInit idt v (handlers v)) idt v).present =
      (decide (v ∈ vs) || (idt v).present) := by
  induction vs generalizing idt with
  | nil => rfl
  | cons w vs ih =>
    rw [List.foldl_cons, ih]
    simp only [List.mem_cons]
    by_cases hv : v = w
    · subst hv
      have hp : (idtGateInit idt v (handlers v) v).present = true := by
        rw [idtGateInit, Function.update_self]
        show (142 : BitVec 8).getLsbD 7 = true
        decide
      simp [hp]
    · rw [show idtGateInit idt w (handlers w) v = idt v from Function.update_of_ne hv ..]
      simp [hv]

/-- The chip that `pic_init` leaves behind. -/
def initialised (imr icw2 icw3 : Byte) : Chip :=
  { imr, irr := 0, isr := 0, icw2, icw3, icw4 := 1, expects := .mask, single := false
    needsIcw4 := true, readIsr := false }

theorem picInit_eq (p : Pair) : picInit p 0x20 0x28 =
    ⟨initialised p.master.imr 0x20 4, initialised p.slave.imr 0x28 2⟩ := rfl

end BiosKernel
