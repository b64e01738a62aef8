import BiosKernel.Lib.Lines
import BiosKernel.Terminal.Scroll

namespace BiosKernel
open Lines MachineInt
set_option autoImplicit true

namespace Terminal

/-- The rows of the screen show the lines, padded with blanks. -/
def Displays (buffer : Nat → UInt16) (color : UInt8) (ls : List (List UInt8)) : Prop :=
  ∀ y < vgaHeight, ∀ x < vgaWidth,
    buffer (y * vgaWidth + x) = vgaEntry ((ls.getD y []).getD x 32) color

theorem getD_of_le {ls : List α} (h : ls.length ≤ y) (d : α) : ls.getD y d = d := by
  rw [List.getD_eq_getElem?_getD, List.getElem?_eq_none h, Option.getD_none]

theorem getD_append_singleton (ls : List α) (l d : α) (y : Nat) :
    (ls ++ [l]).getD y d = if y = ls.length then l else ls.getD y d := by
  simp only [List.getD_eq_getElem?_getD, List.getElem?_append]
  split
  · rename_i hlt
    rw [if_neg (Nat.ne_of_lt hlt)]
  · rename_i hge
    split
    · rename_i heq
      rw [heq, Nat.sub_self]
      rfl
    · rw [List.getElem?_eq_none (by rw [List.length_singleton]; omega),
        List.getElem?_eq_none (by omega)]

theorem Displays.push (h : Displays buffer color ls) : Displays buffer color (ls ++ [[]]) := by
  intro y hy x hx
  rw [h y hy x hx, getD_append_singleton]
  split
  · rename_i hlast
    rw [getD_of_le (Nat.le_of_eq hlast.symm)]
  · rfl

theorem Displays.put (h : Displays buffer color (ls ++ [l])) (hx : l.length < vgaWidth)
    (c : UInt8) :
    Displays (Function.update buffer (ls.length * vgaWidth + l.length) (vgaEntry c color)) color
      (ls ++ [l ++ [c]]) := by
  intro y hy x hx'
  have hold := h y hy x hx'
  rw [getD_append_singleton] at hold ⊢
  rw [Function.update_apply]
  by_cases hcell : y = ls.length ∧ x = l.length
  · obtain ⟨rfl, rfl⟩ := hcell
    rw [if_pos rfl, if_pos rfl, getD_append_singleton, if_pos rfl]
  · have hne : y * vgaWidth + x ≠ ls.length * vgaWidth + l.length := by
      rw [vgaWidth] at *
      omega
    rw [if_neg hne, hold]
    split
    · rename_i hy
      rw [getD_append_singleton, if_neg fun hx => hcell ⟨hy, hx⟩]
    · rfl

theorem Displays.scroll {t : Terminal} (h : Displays t.terminalBuffer t.terminalColor ls)
    (hlen : ls.length ≤ 24) :
    Displays t.terminalScrollLineDown.terminalBuffer t.terminalColor ls.tail := by
  intro y hy x hx
  have hwidth : vgaWidth = 80 := rfl
  have hheight : vgaHeight = 25 := rfl
  have hextent : vgaExtent = 80 * 25 := rfl
  have hrow : ls.tail.getD y [] = ls.getD (y + 1) [] := by
    cases ls <;> rfl
  rw [(scroll_spec t).2 _ (by rw [hwidth] at hx ⊢; omega), hrow]
  split
  · have hbelow : y * vgaWidth + x + vgaWidth = (y + 1) * vgaWidth + x := by rw [hwidth]; omega
    rw [hbelow, h (y + 1) (by rw [hwidth] at *; omega) x hx]
  · rename_i hlast
    have hblank : ls.getD (y + 1) [] = [] := getD_of_le (by rw [hwidth] at hx hlast; omega) []
    rw [hblank]
    rfl

/-- The screen shows the newest lines, and the next character belongs behind the last one. -/
structure Leaves (t : Terminal) (w : Wrapped UInt8) : Prop where
  displays : Displays t.terminalBuffer t.terminalColor (newest 24 w.lines)
  short : w.current.length < vgaWidth
  row : t.terminalRow = (min w.complete.length 23 : Nat)
  column : t.terminalColumn = w.current.length

/-- The cursor register agrees, as it does behind every `update_cursor`. -/
structure Follows (t : Terminal) (w : Wrapped UInt8) : Prop extends Leaves t w where
  cursor : t.cursor = (min w.complete.length 23 + 1) * vgaWidth + w.current.length

theorem Leaves.follows {t : Terminal} (h : t.Leaves w) :
    (t.updateCursor t.terminalColumn t.terminalRow).Follows w := by
  have hwidth : vgaWidth = 80 := rfl
  have hshort := h.short
  have hrow := h.row
  have hcolumn := h.column
  have hrow' : int32 t.terminalRow = t.terminalRow := int32_eq (by omega) (by omega)
  have hcolumn' : int32 t.terminalColumn = t.terminalColumn := int32_eq (by omega) (by omega)
  refine ⟨⟨h.displays, h.short, hrow'.trans hrow, hcolumn'.trans hcolumn⟩, ?_⟩
  rw [updateCursor, hrow', hcolumn', hrow, hcolumn]
  dsimp only
  rw [hwidth]
  omega

theorem Follows.position {t : Terminal} (h : t.Follows w) :
    t.getCursorPosition = min w.complete.length 23 * vgaWidth + w.current.length := by
  have hwidth : vgaWidth = 80 := rfl
  have hshort := h.short
  rw [getCursorPosition, h.cursor, hwidth]
  omega

theorem Displays.newRow (h : Displays buffer color (newest 23 complete ++ [l]))
    (hlen : complete.length < 23) :
    Displays buffer color (newest 24 (Wrapped.mk (complete ++ [l]) []).lines) := by
  have hlines : newest 24 (Wrapped.mk (complete ++ [l]) []).lines =
      newest 23 complete ++ [l] ++ [[]] := by
    rw [Wrapped.lines, newest_succ_append, newest_succ_append, newest_of_le (by omega),
      newest_of_le (by omega)]
  rw [hlines]
  exact h.push

theorem Displays.scrolledRow {t : Terminal}
    (h : Displays t.terminalBuffer t.terminalColor (newest 23 complete ++ [l]))
    (hlen : 23 ≤ complete.length) :
    Displays t.terminalScrollLineDown.terminalBuffer t.terminalScrollLineDown.terminalColor
      (newest 24 (Wrapped.mk (complete ++ [l]) []).lines) := by
  have hfull : (newest 23 complete).length = 23 := by
    rw [length_newest]
    omega
  have hne : newest 23 complete ≠ [] := List.ne_nil_of_length_pos (by omega)
  have hlines : newest 24 (Wrapped.mk (complete ++ [l]) []).lines =
      (newest 23 complete ++ [l]).tail ++ [[]] := by
    rw [Wrapped.lines, newest_succ_append, newest_succ_append, List.tail_append_of_ne_nil hne,
      tail_newest hlen]
  rw [hlines, (scroll_spec t).1]
  apply Displays.push
  apply h.scroll
  rw [List.length_append, hfull]
  exact Nat.le_refl _

theorem advanceColumn_leaves {t : Terminal}
    (h : Displays t.terminalBuffer t.terminalColor (newest 23 complete ++ [l ++ [c]]))
    (hrow : t.terminalRow = (min complete.length 23 : Nat)) (hcolumn : t.terminalColumn = l.length)
    (hshort : l.length < vgaWidth) (hc : c ≠ 10) :
    t.advanceColumn.Leaves (feed vgaWidth 10 ⟨complete, l⟩ c) := by
  have hwidth : vgaWidth = 80 := rfl
  have hheight : (vgaHeight : Int) = 25 := rfl
  have hempty : 0 < vgaWidth := by decide
  rw [advanceColumn, feed, if_neg hc]
  dsimp only
  by_cases hfull : l.length + 1 = vgaWidth
  · rw [if_pos (by rw [hcolumn]; omega), if_pos hfull]
    by_cases hlast : complete.length < 23
    · rw [if_neg (by rw [hrow, hheight]; omega)]
      refine ⟨h.newRow hlast, hempty, ?_, rfl⟩
      dsimp only
      rw [hrow, List.length_append, List.length_singleton]
      omega
    · rw [if_pos (by rw [hrow, hheight]; omega)]
      refine ⟨Displays.scrolledRow h (by omega), hempty, ?_, scroll_column _⟩
      rw [scroll_row, List.length_append]
      omega
  · rw [if_neg (by rw [hcolumn]; omega), if_neg hfull]
    refine ⟨?_, ?_, hrow, ?_⟩
    · rw [Wrapped.lines, newest_succ_append]
      exact h
    · rw [List.length_append, List.length_singleton]
      omega
    · dsimp only
      rw [hcolumn, List.length_append]
      rfl

theorem Follows.putNormal {t : Terminal} (h : t.Follows w) (hc : c ≠ 10) :
    (t.putNormal c).Leaves (feed vgaWidth 10 w c) := by
  have hwidth : vgaWidth = 80 := rfl
  have hshort := h.short
  have hd := h.displays
  rw [Wrapped.lines, newest_succ_append] at hd
  have hlen : (newest 23 w.complete).length = min w.complete.length 23 := length_newest _ _
  have hcell : ((t.terminalRow * vgaWidth + t.terminalColumn) % 2 ^ 64).toNat =
      (newest 23 w.complete).length * vgaWidth + w.current.length := by
    rw [h.row, h.column, hlen, hwidth]
    omega
  rw [Terminal.putNormal, terminalPutentryat, hcell]
  exact advanceColumn_leaves (hd.put hshort c) h.row h.column hshort hc

theorem Follows.newline {t : Terminal} (h : t.Follows w) :
    t.newline.advanceColumn.Leaves (feed vgaWidth 10 w 10) := by
  have hwidth : vgaWidth = 80 := rfl
  have hshort := h.short
  have hd := h.displays
  rw [Wrapped.lines, newest_succ_append] at hd
  have hnext : (t.getCursorPosition / vgaWidth % 2 ^ 8 + 1) % 2 ^ 8 =
      min w.complete.length 23 + 1 := by
    rw [h.position, hwidth]
    omega
  have hempty : 0 < vgaWidth := by decide
  rw [Terminal.newline, hnext, feed, if_pos rfl]
  dsimp only
  by_cases hlast : w.complete.length < 23
  · have hrow : (t.updateCursor (-1) (min w.complete.length 23 + 1 : Nat)).terminalRow =
        (min w.complete.length 23 + 1 : Nat) := updateCursor_row _ (by omega) (by omega)
    have hcolumn : (t.updateCursor (-1) (min w.complete.length 23 + 1 : Nat)).terminalColumn = -1 :=
      updateCursor_column _ (by decide) (by decide)
    rw [if_neg (by rw [vgaHeight]; omega), advanceColumn, hcolumn]
    dsimp only
    rw [if_neg (by decide)]
    refine ⟨?_, hempty, ?_, ?_⟩
    · dsimp only
      rw [updateCursor_buffer, updateCursor_color]
      exact hd.newRow hlast
    · dsimp only
      rw [hrow, List.length_append, List.length_singleton]
      omega
    · dsimp only
      rfl
  · rw [if_pos (by rw [vgaHeight]; omega), advanceColumn]
    dsimp only
    rw [if_neg (by decide)]
    refine ⟨?_, hempty, ?_, ?_⟩
    · dsimp only
      exact Displays.scrolledRow hd (by omega)
    · dsimp only
      rw [scroll_row, List.length_append]
      omega
    · dsimp only
      rfl

/-- A character of a text: one that can be printed, or the end of a line. -/
def TextChar (c : UInt8) : Prop := 32 ≤ c ∧ c ≤ 126 ∨ c = 10

instance (c : UInt8) : Decidable (TextChar c) :=
  inferInstanceAs (Decidable (32 ≤ c ∧ c ≤ 126 ∨ c = 10))

theorem Follows.putchar {t : Terminal} (h : t.Follows w) (hc : TextChar c) :
    (t.putchar c).Follows (feed vgaWidth 10 w c) := by
  apply Leaves.follows
  change (t.terminalPutchar c).Leaves _
  rcases hc with hc | rfl
  · have hcontrol : ∀ d ∈ [(10 : UInt8), 8, 13, 9], ¬ 32 ≤ d := by decide +kernel
    have hne : ∀ d ∈ [(10 : UInt8), 8, 13, 9], c ≠ d := by
      rintro d hd rfl
      exact hcontrol c hd hc.1
    simp only [List.forall_mem_cons] at hne
    rw [t.terminalPutchar_of_normal hne.1 hne.2.1 hne.2.2.1 hne.2.2.2.1]
    exact h.putNormal hne.1
  · rw [terminalPutchar, if_pos rfl]
    exact h.newline

theorem Follows.foldl {t : Terminal} {text : List UInt8} (h : t.Follows w)
    (htext : ∀ c ∈ text, TextChar c) :
    (text.foldl Terminal.putchar t).Follows (text.foldl (feed vgaWidth 10) w) := by
  induction text generalizing t w with
  | nil => exact h
  | cons c text ih =>
    rw [List.forall_mem_cons] at htext
    exact ih (h.putchar htext.1) htext.2

/-- A blank screen with the row, the column and the cursor register at its first cell. -/
structure Cleared (t : Terminal) : Prop where
  blank : ∀ p < vgaExtent, t.terminalBuffer p = vgaEntry 32 t.terminalColor
  row : t.terminalRow = 0
  column : t.terminalColumn = 0
  cursor : t.cursor = vgaWidth

theorem terminalClear_cleared {t : Terminal} (h : t.cursor = vgaWidth) :
    t.terminalClear.Cleared := by
  obtain ⟨hrow, hcolumn, hcursor, hblank⟩ := terminalClear_spec t
  exact ⟨hblank, hrow, hcolumn, hcursor.trans h⟩

theorem Cleared.follows {t : Terminal} (h : t.Cleared) : t.Follows ⟨[], []⟩ := by
  refine ⟨⟨?_, by decide, h.row, h.column⟩, h.cursor⟩
  intro y hy x hx
  have hcell : y * vgaWidth + x < vgaExtent := cell_lt (Nat.le_of_lt_succ hy) hx
  have hblank : (newest 24 (Wrapped.lines (α := UInt8) ⟨[], []⟩)).getD y [] = [] := by
    cases y <;> rfl
  rw [h.blank _ hcell, hblank]
  rfl

/-- The screen shows the last 24 lines of the text, the one that is being written among them, or
all of them with blank rows behind. The next character belongs to the end of the last line. -/
structure ShowsTail (t : Terminal) (text : List UInt8) : Prop where
  rows : ∀ y < 24, ∀ x < vgaWidth, t.terminalBuffer (y * vgaWidth + x) =
    vgaEntry (((newest 24 (wrap vgaWidth 10 text).lines).getD y []).getD x 32) t.terminalColor
  lastRow : ∀ x < vgaWidth, t.terminalBuffer (24 * vgaWidth + x) = vgaEntry 32 t.terminalColor
  row : t.terminalRow = (min (wrap vgaWidth 10 text).lines.length 24 - 1 : Nat)
  column : t.terminalColumn = (wrap vgaWidth 10 text).current.length
  position : (t.getCursorPosition : Int) = t.terminalRow * vgaWidth + t.terminalColumn

theorem Follows.showsTail {t : Terminal} (h : t.Follows (wrap vgaWidth 10 text)) :
    t.ShowsTail text := by
  refine ⟨fun y hy => h.displays y (Nat.lt_succ_of_lt hy), ?_, ?_, h.column, ?_⟩
  · intro x hx
    have hlen : (newest 24 (wrap vgaWidth 10 text).lines).length ≤ 24 := by
      rw [length_newest]
      omega
    rw [h.displays 24 (by decide) x hx, getD_of_le hlen]
    rfl
  · rw [h.row, Wrapped.lines, List.length_append, List.length_singleton]
    omega
  · rw [h.position, h.row, h.column]
    push_cast
    rfl

/-- From a cleared screen on, the screen shows the tail of the text. -/
theorem putchar_showsTail {t : Terminal} {text : List UInt8} (h : t.Cleared)
    (htext : ∀ c ∈ text, TextChar c) :
    (text.foldl Terminal.putchar t).ShowsTail text :=
  (h.follows.foldl htext).showsTail

theorem ShowsTail.second {t : Terminal} (h : t.ShowsTail [104, 105, 10, 33]) :
    t.terminalBuffer (1 * vgaWidth + 0) = vgaEntry 33 t.terminalColor ∧
      t.terminalRow = 1 ∧ t.terminalColumn = 1 := by
  have hwrap : wrap vgaWidth 10 [(104 : UInt8), 105, 10, 33] = ⟨[[104, 105]], [33]⟩ := rfl
  obtain ⟨hrows, _, hrow, hcolumn, _⟩ := h
  have hcell := hrows 1 (by decide) 0 (by decide)
  rw [hwrap] at hcell hrow hcolumn
  exact ⟨hcell, hrow, hcolumn⟩

/-- "hi", a new line and "!" on a screen cleared before. -/
theorem putchar_showsTail_second :
    let t := [104, 105, 10, 33].foldl Terminal.putchar
      (terminalClear ⟨0, 0, 0, fun _ => 0, 80, []⟩)
    t.terminalBuffer (1 * vgaWidth + 0) = vgaEntry 33 t.terminalColor ∧
      t.terminalRow = 1 ∧ t.terminalColumn = 1 := by
  intro t
  have htail : t.ShowsTail [104, 105, 10, 33] :=
    putchar_showsTail (terminalClear_cleared rfl) (by decide +kernel)
  exact htail.second

end Terminal

end BiosKernel
