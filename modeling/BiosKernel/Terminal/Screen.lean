import BiosKernel.Lib.MachineInt
import Mathlib.Algebra.Group.Int.Defs
import Mathlib.Algebra.Group.Nat.Defs
import Mathlib.Data.List.Basic
import Mathlib.Logic.Function.Basic
import Mathlib.Tactic.Common

namespace BiosKernel
open MachineInt
set_option autoImplicit true

def vgaWidth : Nat := 80

def vgaHeight : Nat := 25

/-- `VGA_EXTENT`, the number of cells of the screen. -/
def vgaExtent : Nat := 80 * 25

def vgaEntryColor (fg bg : UInt8) : UInt8 := fg ||| (bg <<< 4)

def vgaEntry (uc color : UInt8) : UInt16 := uc.toUInt16 ||| (color.toUInt16 <<< 8)

/-- The terminal and the cursor register of the display, with a record of the cells written. -/
structure Terminal where
  terminalRow : Int
  terminalColumn : Int
  terminalColor : UInt8
  terminalBuffer : Nat → UInt16
  cursor : Nat
  written : List Nat

namespace Terminal

def updateCursor (t : Terminal) (x y : Int) : Terminal :=
  { t with
    cursor := (((int32 y + 1) * vgaWidth + int32 x) % 2 ^ 16).toNat
    terminalRow := int32 y
    terminalColumn := int32 x }

def updateCursorAbsolute (t : Terminal) (pos : Nat) : Terminal :=
  t.updateCursor (pos % vgaWidth : Nat) (pos / vgaWidth : Nat)

/-- The register as a position on the screen, a `uint16_t`. -/
def getCursorPosition (t : Terminal) : Nat := (t.cursor + 2 ^ 16 - vgaWidth) % 2 ^ 16

def reverseCursor (t : Terminal) : Terminal :=
  t.updateCursorAbsolute ((t.getCursorPosition + 2 ^ 16 - 1) % 2 ^ 16)

def setCell (t : Terminal) (index : Nat) (entry : UInt16) : Terminal :=
  { t with
    terminalBuffer := Function.update t.terminalBuffer index entry
    written := index :: t.written }

/-- The cells `0 ≤ x < VGA_WIDTH` of the rows from `first` to `last`, in the order of the loops. -/
def eachCell (first last : Nat) (f : Nat → Nat → Terminal → Terminal) (t : Terminal) : Terminal :=
  (List.range' first (last + 1 - first)).foldl
    (fun t y => (List.range vgaWidth).foldl (fun t x => f y x t) t) t

def terminalClear (t : Terminal) : Terminal :=
  eachCell 0 (vgaHeight - 1)
    (fun y x t => t.setCell (y * vgaWidth + x) (vgaEntry 32 t.terminalColor))
    { t with
      terminalRow := 0
      terminalColumn := 0
      terminalColor := vgaEntryColor 10 0 }

/-- The cursor register keeps what it held before. -/
def terminalInitialize (t : Terminal) : Terminal := terminalClear { t with written := [] }

def terminalPutentryat (t : Terminal) (c color : UInt8) (x y : Int) : Terminal :=
  t.setCell ((y * vgaWidth + x) % 2 ^ 64).toNat (vgaEntry c color)

def terminalScrollLineDown (t : Terminal) : Terminal :=
  let t := eachCell 1 (vgaHeight - 1) (fun i j t =>
    t.setCell (j + (i - 1) * vgaWidth) (t.terminalBuffer (j + i * vgaWidth))) t
  let t := eachCell (vgaHeight - 1) (vgaHeight - 1) (fun i j t =>
    t.setCell (j + i * vgaWidth) (vgaEntry 32 t.terminalColor)) t
  t.updateCursor 0 (vgaHeight - 2)

/-- The last lines of `terminal_putchar`. -/
def advanceColumn (t : Terminal) : Terminal :=
  let t := { t with terminalColumn := t.terminalColumn + 1 }
  if t.terminalColumn = (vgaWidth : Int) then
    let t := { t with terminalColumn := 0, terminalRow := t.terminalRow + 1 }
    if t.terminalRow = (vgaHeight : Int) - 1 then t.terminalScrollLineDown else t
  else t

def newline (t : Terminal) : Terminal :=
  let currentRow := (t.getCursorPosition / vgaWidth % 2 ^ 8 + 1) % 2 ^ 8
  if vgaHeight - 1 ≤ currentRow then { t.terminalScrollLineDown with terminalColumn := -1 }
  else t.updateCursor (-1) currentRow

def eraseBefore (t : Terminal) : Terminal :=
  let t := t.reverseCursor
  let t := t.terminalPutentryat 32 t.terminalColor t.terminalColumn t.terminalRow
  t.reverseCursor

def carriageReturn (t : Terminal) : Terminal :=
  t.updateCursor (-1) (t.getCursorPosition / vgaWidth % 2 ^ 8 : Nat)

/-- `terminal_putchar` of a byte that is no control character. -/
def putNormal (t : Terminal) (uc : UInt8) : Terminal :=
  (t.terminalPutentryat uc t.terminalColor t.terminalColumn t.terminalRow).advanceColumn

/-- The tab's `terminal_write("    ", 4)`. -/
def writeTab (t : Terminal) : Terminal :=
  let t := [32, 32, 32, 32].foldl putNormal t
  t.updateCursor t.terminalColumn t.terminalRow

def terminalPutchar (t : Terminal) (uc : UInt8) : Terminal :=
  if uc = 10 then t.newline.advanceColumn
  else if uc = 8 then t.eraseBefore.advanceColumn
  else if uc = 13 then t.carriageReturn.advanceColumn
  else if uc = 9 then t.writeTab.advanceColumn
  else t.putNormal uc

def terminalWrite (t : Terminal) (data : List UInt8) : Terminal :=
  let t := data.foldl terminalPutchar t
  t.updateCursor t.terminalColumn t.terminalRow

theorem terminalPutchar_of_normal (t : Terminal) (hn : uc ≠ 10) (hb : uc ≠ 8) (hr : uc ≠ 13)
    (ht : uc ≠ 9) : t.terminalPutchar uc = t.putNormal uc := by
  rw [terminalPutchar, if_neg hn, if_neg hb, if_neg hr, if_neg ht]

/-- The tab branch is the call of `terminal_write` that the source makes there. -/
theorem writeTab_eq (t : Terminal) : t.writeTab = t.terminalWrite [32, 32, 32, 32] := by
  have hspace : ∀ t : Terminal, t.terminalPutchar 32 = t.putNormal 32 := fun t =>
    t.terminalPutchar_of_normal (by decide) (by decide) (by decide) (by decide)
  simp only [writeTab, terminalWrite, List.foldl_cons, List.foldl_nil, hspace]

def putchar (t : Terminal) (c : UInt8) : Terminal := t.terminalWrite [c]

end Terminal

end BiosKernel
