import BiosKernel.Lib.Radix
import BiosKernel.Paging.Frames

namespace BiosKernel
set_option autoImplicit true

/-- `PML4_RECURSIVE_ENTRY_NUM`. -/
def pml4RecursiveEntryNum : Nat := 511

def pageMapFlags : Nat := 0b111

/-- The memory that holds the page tables, as frames of 512 entries, with the registers and flags
that the paging code touches. Translations are taken from memory at every access. -/
structure Mmu where
  mem : Nat → Nat → Nat
  cr3 : Nat
  allocator : PageFrameAllocator
  interruptsReady : Bool
  interruptFlag : Bool

def present (e : Nat) : Bool := e % 2 = 1

/-- Bit 7 of an upper level entry: it maps a large page and leads to no table. -/
def large (e : Nat) : Bool := e / 128 % 2 = 1

/-- Bits 12 to 51 of an entry. -/
def frameOf (e : Nat) : Nat := e / pageSize % 2 ^ 40

def tableIndex (va shift : Nat) : Nat := (va >>> shift) &&& 0x1FF

/-- The four-level walk of the processor, down to the frame of the page. -/
def hardwareWalk (mem : Nat → Nat → Nat) (root i4 i3 i2 i1 : Nat) : Option Nat :=
  let e4 := mem root i4
  if !present e4 then none
  else
    let e3 := mem (frameOf e4) i3
    if !present e3 then none
    else if large e3 then some (frameOf e3 / 2 ^ 18 * 2 ^ 18 + i2 * 512 + i1)
    else
      let e2 := mem (frameOf e3) i2
      if !present e2 then none
      else if large e2 then some (frameOf e2 / 512 * 512 + i1)
      else
        let e1 := mem (frameOf e2) i1
        if !present e1 then none else some (frameOf e1)

namespace Mmu

def translate (s : Mmu) (va : Nat) : Option Nat :=
  hardwareWalk s.mem s.cr3 (tableIndex va 39) (tableIndex va 30) (tableIndex va 21)
    (tableIndex va 12)

-- Accesses of aligned `uint64_t` through a virtual address. `none` is a page fault, whose handler
-- does not return.

def loadEntry (s : Mmu) (va : Nat) : Option Nat :=
  (s.translate va).map fun f => s.mem f (va % pageSize / 8)

def storeEntry (s : Mmu) (va v : Nat) : Option Mmu :=
  (s.translate va).map fun f => { s with mem := Radix.set s.mem f (va % pageSize / 8) v }

/-- `memset` of one page to 0. -/
def clearPage (s : Mmu) (va : Nat) : Option Mmu :=
  (s.translate va).map fun f => { s with mem := Function.update s.mem f fun _ => 0 }

end Mmu

def getAddrFromTableIndexes (pml4Index pdptIndex pdIndex ptIndex : Nat) : Nat :=
  let va := (pml4Index &&& 0b111111111) <<< 39
  let va := va ||| (pdptIndex &&& 0b111111111) <<< 30
  let va := va ||| (pdIndex &&& 0b111111111) <<< 21
  let va := va ||| (ptIndex &&& 0b111111111) <<< 12
  if va &&& 1 <<< 47 ≠ 0 then va ||| 0xFFFF000000000000 else va

inductive MapOutcome where
  | pageFault
  | outOfFrames (s : Mmu)
  | returned (s : Mmu)

def MapOutcome.andThen : MapOutcome → (Mmu → MapOutcome) → MapOutcome
  | .returned s, f => f s
  | .outOfFrames s, _ => .outOfFrames s
  | .pageFault, _ => .pageFault

/-- One of the three steps of `map_page` that make a table exist: entry `index` of `table`, both
seen through the recursive window, has to lead to the table seen at `child`. -/
def ensureTable (s : Mmu) (pid table index child : Nat) : MapOutcome :=
  match s.loadEntry (table + 8 * index) with
  | none => .pageFault
  | some e =>
    if present e then .returned s
    else
      let (page, allocator) := allocatePage s.allocator pid
      let s := { s with allocator }
      if page = 0 then .outOfFrames s
      else
        match s.storeEntry (table + 8 * index) (page ||| pageMapFlags) with
        | none => .pageFault
        | some s =>
          match s.clearPage child with
          | none => .pageFault
          | some s => .returned s

def mapPage (s : Mmu) (pid virtualAddress physicalAddress flags : Nat) : MapOutcome :=
  let s := { s with interruptsReady := false, interruptFlag := false }
  let pml4Index := tableIndex virtualAddress 39
  let pdptIndex := tableIndex virtualAddress 30
  let pdIndex := tableIndex virtualAddress 21
  let ptIndex := tableIndex virtualAddress 12
  let rec511 := pml4RecursiveEntryNum
  let pml4Recursive := getAddrFromTableIndexes rec511 rec511 rec511 rec511
  let pdptRecursive := getAddrFromTableIndexes rec511 rec511 rec511 pml4Index
  let pdRecursive := getAddrFromTableIndexes rec511 rec511 pml4Index pdptIndex
  let ptRecursive := getAddrFromTableIndexes rec511 pml4Index pdptIndex pdIndex
  (ensureTable s pid pml4Recursive pml4Index pdptRecursive).andThen fun s =>
  (ensureTable s pid pdptRecursive pdptIndex pdRecursive).andThen fun s =>
  (ensureTable s pid pdRecursive pdIndex ptRecursive).andThen fun s =>
  match s.storeEntry (ptRecursive + 8 * ptIndex) (physicalAddress ||| flags) with
  | none => .pageFault
  | some s => .returned { s with interruptsReady := true, interruptFlag := true }

/-- `is_page_mapped`, which follows the physical addresses in the tables; `none` for its `-1`. -/
def isPageMapped (mem : Nat → Nat → Nat) (pml4 virtualAddress : Nat) : Option Nat :=
  let e4 := mem pml4 (tableIndex virtualAddress 39)
  if !present e4 then none
  else
    let e3 := mem (e4 / pageSize) (tableIndex virtualAddress 30)
    if !present e3 then none
    else
      let e2 := mem (e3 / pageSize) (tableIndex virtualAddress 21)
      if !present e2 then none
      else
        let e1 := mem (e2 / pageSize) (tableIndex virtualAddress 12)
        if !present e1 then none else some e1

end BiosKernel
