import BiosKernel.Lib.Runs
import BiosKernel.Terminal.Screen

namespace BiosKernel
open MachineInt Runs
set_option autoImplicit true

namespace Terminal

/-- The cells written are cells of the screen. -/
def Inside (t : Terminal) : Prop := ∀ c ∈ t.written, c < vgaExtent

structure OnScreen (t : Terminal) : Prop where
  row : 0 ≤ t.terminalRow ∧ t.terminalRow < 24
  column : 0 ≤ t.terminalColumn ∧ t.terminalColumn < 80
  inside : t.Inside

theorem Inside.setCell {t : Terminal} (h : t.Inside) (hi : index < vgaExtent) (entry : UInt16) :
    (t.setCell index entry).Inside := List.forall_mem_cons.mpr ⟨hi, h⟩

theorem eachCell_keeps {I : Terminal → Prop} {f : Nat → Nat → Terminal → Terminal} (h : I t)
    (hf : ∀ y x t, first ≤ y → y ≤ last → x < vgaWidth → I t → I (f y x t)) :
    I (eachCell first last f t) := by
  apply List.foldlRecOn _ _ h
  intro t ht y hy
  rw [List.mem_range'_1] at hy
  apply List.foldlRecOn _ _ ht
  intro t ht x hx
  exact hf y x t hy.1 (by omega) (List.mem_range.mp hx) ht

theorem cell_lt (hy : y ≤ 24) (hx : x < vgaWidth) : y * vgaWidth + x < vgaExtent := by
  simp only [vgaWidth, vgaExtent] at *
  omega

theorem firstColumn : (0 : Int) ≤ 0 ∧ (0 : Int) < 80 := by decide

theorem terminalClear_onScreen {t : Terminal} (h : t.Inside) : t.terminalClear.OnScreen := by
  apply eachCell_keeps
  · exact ⟨(by decide : (0 : Int) ≤ 0 ∧ (0 : Int) < 24), firstColumn, h⟩
  · intro y x t _ hy hx ht
    exact ⟨ht.row, ht.column, ht.inside.setCell (cell_lt hy hx) _⟩

theorem updateCursor_row (t : Terminal) (h : -2 ^ 31 ≤ y) (h' : y < 2 ^ 31) :
    (t.updateCursor x y).terminalRow = y := int32_eq h h'

theorem updateCursor_column (t : Terminal) (h : -2 ^ 31 ≤ x) (h' : x < 2 ^ 31) :
    (t.updateCursor x y).terminalColumn = x := int32_eq h h'

theorem updateCursor_written (t : Terminal) : (t.updateCursor x y).written = t.written := by
  rw [updateCursor]

theorem Inside.of_written {t t' : Terminal} (h : t.Inside) (hw : t'.written = t.written) :
    t'.Inside := by
  rw [Inside, hw]
  exact h

theorem Inside.scroll {t : Terminal} (h : t.Inside) : t.terminalScrollLineDown.Inside := by
  apply eachCell_keeps (I := Inside)
  · apply eachCell_keeps h
    intro i j t _ hi hj ht
    refine ht.setCell ?_ _
    rw [Nat.add_comm]
    exact cell_lt (Nat.sub_le_of_le_add (Nat.le_succ_of_le hi)) hj
  · intro i j t _ hi hj ht
    refine ht.setCell ?_ _
    rw [Nat.add_comm]
    exact cell_lt hi hj

theorem scroll_row (t : Terminal) : t.terminalScrollLineDown.terminalRow = 23 :=
  updateCursor_row _ (by decide) (by decide)

theorem scroll_column (t : Terminal) : t.terminalScrollLineDown.terminalColumn = 0 :=
  updateCursor_column _ (by decide) (by decide)

theorem advanceColumn_onScreen {t : Terminal} (hr : 0 ≤ t.terminalRow ∧ t.terminalRow < 24)
    (hc : -1 ≤ t.terminalColumn ∧ t.terminalColumn < 80) (h : t.Inside) :
    t.advanceColumn.OnScreen := by
  have hw : (vgaWidth : Int) = 80 := rfl
  have hh : (vgaHeight : Int) = 25 := rfl
  rw [advanceColumn]
  dsimp only
  split
  · split
    · refine ⟨?_, ?_, Inside.scroll h⟩
      · rw [scroll_row]
        decide
      · rw [scroll_column]
        decide
    · refine ⟨?_, firstColumn, h⟩
      dsimp only
      omega
  · refine ⟨hr, ?_, h⟩
    dsimp only
    omega

theorem OnScreen.putNormal {t : Terminal} (h : t.OnScreen) (uc : UInt8) :
    (t.putNormal uc).OnScreen := by
  obtain ⟨hr, hc, hi⟩ := h
  have hw : (vgaWidth : Int) = 80 := rfl
  have hlt : ((t.terminalRow * vgaWidth + t.terminalColumn) % 2 ^ 64).toNat < vgaExtent := by
    rw [hw, Int.emod_eq_of_lt (by omega) (by omega)]
    simp only [vgaExtent]
    omega
  exact advanceColumn_onScreen hr ⟨Int.le_trans (by decide) hc.1, hc.2⟩ (hi.setCell hlt _)

/-- The row and the column are small enough to be passed as `int`s. -/
def Small (t : Terminal) : Prop :=
  -1 ≤ t.terminalRow ∧ t.terminalRow ≤ 1000 ∧ -1 ≤ t.terminalColumn ∧ t.terminalColumn ≤ 80

theorem OnScreen.small {t : Terminal} (h : t.OnScreen) : t.Small := by
  have hr := h.row
  have hc := h.column
  refine ⟨?_, ?_, ?_, ?_⟩ <;> omega

/-- The terminal is on the screen exactly if `ok`, and close to it otherwise. -/
def Lands (t : Terminal) (ok : Prop) : Prop := t.Small ∧ (t.OnScreen ↔ ok)

theorem OnScreen.lands {t : Terminal} (h : t.OnScreen) (hok : ok) : t.Lands ok :=
  ⟨h.small, fun _ => hok, fun _ => h⟩

theorem advanceColumn_small {t : Terminal} (hr : 0 ≤ t.terminalRow ∧ t.terminalRow < 1000)
    (hc : -1 ≤ t.terminalColumn ∧ t.terminalColumn < 80) : t.advanceColumn.Small := by
  have hw : (vgaWidth : Int) = 80 := rfl
  rw [advanceColumn]
  dsimp only
  split
  · split
    · rw [Small, scroll_row, scroll_column]
      decide
    · refine ⟨?_, ?_, ?_, ?_⟩ <;> dsimp only <;> omega
  · refine ⟨?_, ?_, ?_, ?_⟩ <;> dsimp only <;> omega

theorem updateCursor_onScreen {t : Terminal} (hs : t.Small)
    (h : (t.updateCursor t.terminalColumn t.terminalRow).OnScreen) : t.OnScreen := by
  obtain ⟨hr, hr', hc, hc'⟩ := hs
  have hrow := h.row
  have hcolumn := h.column
  rw [updateCursor_row _ (by omega) (by omega)] at hrow
  rw [updateCursor_column _ (by omega) (by omega)] at hcolumn
  exact ⟨hrow, hcolumn, h.inside.of_written (updateCursor_written t).symm⟩

theorem updateCursor_self {t : Terminal} (h : t.OnScreen) :
    (t.updateCursor t.terminalColumn t.terminalRow).OnScreen ∧
      ((t.updateCursor t.terminalColumn t.terminalRow).cursor : Int) =
        (t.terminalRow + 1) * 80 + t.terminalColumn := by
  obtain ⟨hr, hc, hi⟩ := h
  have hrow : int32 t.terminalRow = t.terminalRow := int32_eq (by omega) (by omega)
  have hcolumn : int32 t.terminalColumn = t.terminalColumn := int32_eq (by omega) (by omega)
  have hw : (vgaWidth : Int) = 80 := rfl
  simp only [updateCursor, hrow, hcolumn, hw]
  refine ⟨⟨hr, hc, hi⟩, ?_⟩
  rw [Int.emod_eq_of_lt (by omega) (by omega), Int.toNat_of_nonneg (by omega)]

theorem OnScreen.writeTab {t : Terminal} (h : t.OnScreen) : t.writeTab.OnScreen := by
  apply (updateCursor_self _).1
  apply List.foldlRecOn _ _ h
  intro t ht uc _
  exact ht.putNormal uc

theorem newline_onScreen {t : Terminal} (h : t.Inside) : t.newline.advanceColumn.OnScreen := by
  rw [newline]
  dsimp only
  split
  · apply advanceColumn_onScreen
    · dsimp only
      rw [scroll_row]
      decide
    · dsimp only
      decide
    · exact fun c hc => h.scroll c hc
  · rename_i hrow
    apply advanceColumn_onScreen
    · rw [updateCursor_row _ (by omega) (by omega)]
      simp only [vgaHeight] at hrow
      omega
    · rw [updateCursor_column _ (by decide) (by decide)]
      decide
    · exact h.of_written t.updateCursor_written

/-- A carriage return comes to the row of the cursor register, a `uint8_t`. -/
theorem carriageReturn_lands {t : Terminal} (h : t.Inside) :
    t.carriageReturn.advanceColumn.Lands (t.getCursorPosition / vgaWidth % 2 ^ 8 < 24) := by
  have hcolumn : t.carriageReturn.terminalColumn = -1 := by
    rw [carriageReturn, updateCursor_column _ (by decide) (by decide)]
  have hrow : t.carriageReturn.terminalRow = (t.getCursorPosition / vgaWidth % 2 ^ 8 : Nat) := by
    rw [carriageReturn, updateCursor_row _ (by omega) (by omega)]
  have hwritten : t.carriageReturn.written = t.written := by
    rw [carriageReturn, updateCursor_written]
  refine ⟨advanceColumn_small (by omega) (by omega), ?_, ?_⟩
  · intro ho
    have hr := ho.row.2
    simp only [advanceColumn, hcolumn, hrow] at hr
    rw [if_neg (by decide)] at hr
    dsimp only at hr
    omega
  · intro hlt
    apply advanceColumn_onScreen
    · omega
    · omega
    · exact h.of_written hwritten

/-- One position back, in 16 bits. -/
def positionBefore (p : Nat) : Nat := (p + 2 ^ 16 - 1) % 2 ^ 16

theorem positionBefore_lt (p : Nat) : positionBefore p < 2 ^ 16 := Nat.mod_lt _ (by decide)

structure Stands (t : Terminal) (pos : Nat) : Prop where
  row : t.terminalRow = (pos / 80 : Nat)
  column : t.terminalColumn = (pos % 80 : Nat)
  position : t.getCursorPosition = pos

theorem updateCursorAbsolute_stands (t : Terminal) (h : pos < 2 ^ 16) :
    (t.updateCursorAbsolute pos).Stands pos := by
  have hrow : int32 (pos / 80 : Nat) = (pos / 80 : Nat) := int32_eq (by omega) (by omega)
  have hcolumn : int32 (pos % 80 : Nat) = (pos % 80 : Nat) := int32_eq (by omega) (by omega)
  refine ⟨hrow, hcolumn, ?_⟩
  simp only [getCursorPosition, updateCursorAbsolute, updateCursor, vgaWidth, hrow, hcolumn]
  omega

theorem reverseCursor_stands (t : Terminal) :
    t.reverseCursor.Stands (positionBefore t.getCursorPosition) :=
  updateCursorAbsolute_stands t (positionBefore_lt _)

theorem reverseCursor_written (t : Terminal) : t.reverseCursor.written = t.written := by
  rw [reverseCursor, updateCursorAbsolute, updateCursor_written]

theorem putentryat_position (t : Terminal) :
    (t.terminalPutentryat uc color x y).getCursorPosition = t.getCursorPosition := by
  simp only [getCursorPosition, terminalPutentryat, setCell]

theorem eraseBefore_stands (t : Terminal) :
    t.eraseBefore.Stands (positionBefore (positionBefore t.getCursorPosition)) := by
  have h := reverseCursor_stands (t.reverseCursor.terminalPutentryat 32
    t.reverseCursor.terminalColor t.reverseCursor.terminalColumn t.reverseCursor.terminalRow)
  rw [putentryat_position, (reverseCursor_stands t).position] at h
  exact h

theorem eraseBefore_inside {t : Terminal} (h : t.Inside)
    (hp : positionBefore t.getCursorPosition < vgaExtent) : t.eraseBefore.Inside := by
  have hs := reverseCursor_stands t
  apply Inside.of_written _ (reverseCursor_written _)
  apply Inside.setCell
  · exact h.of_written t.reverseCursor_written
  · rw [hs.row, hs.column]
    have hw : (vgaWidth : Int) = 80 := rfl
    have := positionBefore_lt t.getCursorPosition
    rw [hw, Int.emod_eq_of_lt (by omega) (by omega)]
    omega

/-- A backspace takes the cursor back by two and then one forward. -/
theorem eraseBefore_lands {t : Terminal} (h : t.Inside) : t.eraseBefore.advanceColumn.Lands
    (2 ≤ t.getCursorPosition ∧ t.getCursorPosition ≤ 24 * 80 + 1) := by
  have hs := eraseBefore_stands t
  have hsmall : positionBefore (positionBefore t.getCursorPosition) < 2 ^ 16 := positionBefore_lt _
  have hlt : t.getCursorPosition < 2 ^ 16 := Nat.mod_lt _ (by decide)
  have hmove : positionBefore (positionBefore t.getCursorPosition) < 24 * 80 ↔
      2 ≤ t.getCursorPosition ∧ t.getCursorPosition ≤ 24 * 80 + 1 := by
    simp only [positionBefore]
    omega
  rw [← hmove]
  refine ⟨advanceColumn_small (by rw [hs.row]; omega) (by rw [hs.column]; omega), ?_, ?_⟩
  · intro ho
    by_contra hge
    have hrow : 24 ≤ t.eraseBefore.terminalRow := by
      rw [hs.row]
      omega
    have hr := ho.row.2
    have hh : (vgaHeight : Int) = 25 := rfl
    rw [advanceColumn] at hr
    dsimp only at hr
    split at hr
    · rw [if_neg (by omega)] at hr
      dsimp only at hr
      omega
    · dsimp only at hr
      omega
  · intro hlt
    apply advanceColumn_onScreen
    · rw [hs.row]
      omega
    · rw [hs.column]
      omega
    · apply eraseBefore_inside h
      simp only [positionBefore, vgaExtent] at *
      omega

theorem terminalPutchar_lands {t : Terminal} (h : t.OnScreen) (c : UInt8) :
    (t.terminalPutchar c).Lands
      ((c = 8 → 2 ≤ t.getCursorPosition ∧ t.getCursorPosition ≤ 24 * 80 + 1) ∧
        (c = 13 → t.getCursorPosition / vgaWidth % 2 ^ 8 < 24)) := by
  rw [terminalPutchar]
  by_cases hn : c = 10
  · subst hn
    rw [if_pos rfl]
    exact (newline_onScreen h.inside).lands
      ⟨fun h => absurd h (by decide), fun h => absurd h (by decide)⟩
  by_cases hb : c = 8
  · subst hb
    obtain ⟨hs, hiff⟩ := eraseBefore_lands h.inside
    rw [if_neg hn, if_pos rfl]
    refine ⟨hs, hiff.trans ?_⟩
    exact ⟨fun hp => ⟨fun _ => hp, fun h => absurd h (by decide)⟩, fun hp => hp.1 rfl⟩
  by_cases hr : c = 13
  · subst hr
    obtain ⟨hs, hiff⟩ := carriageReturn_lands h.inside
    rw [if_neg hn, if_neg hb, if_pos rfl]
    refine ⟨hs, hiff.trans ?_⟩
    exact ⟨fun hp => ⟨fun h => absurd h (by decide), fun _ => hp⟩, fun hp => hp.2 rfl⟩
  rw [if_neg hn, if_neg hb, if_neg hr]
  refine OnScreen.lands ?_ ⟨fun h => absurd h hb, fun h => absurd h hr⟩
  by_cases ht : c = 9
  · have htab := h.writeTab
    rw [if_pos ht]
    exact advanceColumn_onScreen htab.row
      ⟨Int.le_trans (by decide) htab.column.1, htab.column.2⟩ htab.inside
  · rw [if_neg ht]
    exact h.putNormal c

theorem Lands.updateCursor {t : Terminal} (h : t.Lands ok) :
    ok ↔ (t.updateCursor t.terminalColumn t.terminalRow).OnScreen ∧
      ((t.updateCursor t.terminalColumn t.terminalRow).cursor : Int) =
        ((t.updateCursor t.terminalColumn t.terminalRow).terminalRow + 1) * 80 +
          (t.updateCursor t.terminalColumn t.terminalRow).terminalColumn := by
  obtain ⟨⟨hr, hr', hc, hc'⟩, hiff⟩ := h
  constructor
  · intro hok
    obtain ⟨ho, hcursor⟩ := updateCursor_self (hiff.mpr hok)
    refine ⟨ho, ?_⟩
    rw [updateCursor_row _ (by omega) (by omega), updateCursor_column _ (by omega) (by omega)]
    exact hcursor
  · rintro ⟨ho, -⟩
    exact hiff.mp (updateCursor_onScreen ⟨hr, hr', hc, hc'⟩ ho)

end Terminal

/-- A terminal with the number of bytes it has been given. -/
structure TerminalRun where
  terminal : Terminal
  bytes : Nat

namespace TerminalRun

def start (prior : Terminal) : TerminalRun := ⟨prior.terminalInitialize, 0⟩

/-- The record of the cells starts anew with each byte. -/
def step (s : TerminalRun) (c : UInt8) : Option TerminalRun :=
  some ⟨Terminal.putchar { s.terminal with written := [] } c, s.bytes + 1⟩

/-- The row, the column and the cells are on the screen, and the cursor register agrees as soon as
a byte has been written. -/
def Agrees (s : TerminalRun) : Prop :=
  s.terminal.OnScreen ∧ (s.bytes ≠ 0 →
    (s.terminal.cursor : Int) = (s.terminal.terminalRow + 1) * 80 + s.terminal.terminalColumn)

/-- A backspace finds the cursor behind the first two cells, and a carriage return finds it in a row
of the screen. -/
def ControlFits (s : TerminalRun) (c : UInt8) : Prop :=
  (c = 8 → 2 ≤ s.terminal.getCursorPosition ∧ s.terminal.getCursorPosition ≤ 24 * 80 + 1) ∧
    (c = 13 → s.terminal.getCursorPosition / vgaWidth % 2 ^ 8 < 24)

theorem agrees_step_iff (h : Agrees s) :
    s.ControlFits c ↔ ∃ s', s.step c = some s' ∧ Agrees s' := by
  have hclean : Terminal.OnScreen { s.terminal with written := [] } :=
    ⟨h.1.row, h.1.column, List.forall_mem_nil _⟩
  have hiff := (Terminal.terminalPutchar_lands hclean c).updateCursor
  simp only [step, Option.some.injEq, exists_eq_left']
  constructor
  · intro hf
    obtain ⟨ho, hcursor⟩ := hiff.mp hf
    exact ⟨ho, fun _ => hcursor⟩
  · rintro ⟨ho, hcursor⟩
    exact hiff.mpr ⟨ho, hcursor (Nat.succ_ne_zero _)⟩

theorem start_agrees (prior : Terminal) : (start prior).Agrees :=
  ⟨Terminal.terminalClear_onScreen (List.forall_mem_nil _), fun h => absurd rfl h⟩

/-- Whatever the cursor register holds before, the terminal stays on the screen over exactly the
bytes on which each backspace and carriage return finds the cursor where it can move it. -/
theorem always_agrees_iff (prior : Terminal) (bytes : List UInt8) :
    Always step Agrees (start prior) bytes ↔ Meets step ControlFits (start prior) bytes := by
  have hf : Meets step (fun _ _ => True) (start prior) bytes := Meets.of_forall fun _ _ => trivial
  refine always_iff_meets (I := fun _ => True) (fun _ _ _ _ _ _ _ => trivial) ?_ trivial
    (start_agrees prior) hf
  intro s c _ hs _
  exact agrees_step_iff hs

/-- With the cursor on the first cell, an `a` that is taken back leaves the terminal in row 819, and
the next byte is written outside the screen. -/
theorem backspace_leaves_screen :
    ∃ s, run step (start ⟨0, 0, 0, fun _ => 0, 80, []⟩) [97, 8, 98] = some s ∧
      s.terminal.terminalRow = 819 ∧ 65536 ∈ s.terminal.written := by
  exact ⟨_, rfl, by decide +kernel, by decide +kernel⟩

end TerminalRun

end BiosKernel
