import BiosKernel.Terminal.Cursor

namespace BiosKernel
set_option autoImplicit true

namespace Terminal

theorem eachCell_counts {I : Nat → Terminal → Prop} {f : Nat → Nat → Terminal → Terminal}
    (first last : Nat) (hle : first ≤ last + 1) (h : I (first * vgaWidth) t)
    (hf : ∀ y x t, first ≤ y → y ≤ last → x < vgaWidth → I (y * vgaWidth + x) t →
      I (y * vgaWidth + x + 1) (f y x t)) :
    I ((last + 1) * vgaWidth) (eachCell first last f t) := by
  have hrow (y : Nat) (hy : first ≤ y) (hy' : y ≤ last) (t : Terminal) (h : I (y * vgaWidth) t) :
      ∀ n ≤ vgaWidth, I (y * vgaWidth + n) ((List.range n).foldl (fun t x => f y x t) t) := by
    intro n hn
    induction n with
    | zero => exact h
    | succ n ih =>
      rw [List.range_succ, List.foldl_append]
      exact hf y n _ hy hy' hn (ih (Nat.le_of_succ_le hn))
  have hrows : ∀ k ≤ last + 1 - first, I ((first + k) * vgaWidth)
      ((List.range' first k).foldl
        (fun t y => (List.range vgaWidth).foldl (fun t x => f y x t) t) t) := by
    intro k hk
    induction k with
    | zero => exact h
    | succ k ih =>
      have hlast := hrow (first + k) (by omega) (by omega) _ (ih (by omega)) vgaWidth
        (Nat.le_refl _)
      rw [List.range'_concat, List.foldl_append, Nat.one_mul, ← Nat.add_assoc, Nat.succ_mul]
      exact hlast
  have hall := hrows (last + 1 - first) (Nat.le_refl _)
  rw [Nat.add_sub_cancel' hle] at hall
  exact hall

theorem setCell_buffer (t : Terminal) (index : Nat) (entry : UInt16) (p : Nat) :
    (t.setCell index entry).terminalBuffer p =
      if p = index then entry else t.terminalBuffer p :=
  Function.update_apply ..

/-- Only the cells differ. -/
structure SameButCells (t t' : Terminal) : Prop where
  row : t'.terminalRow = t.terminalRow
  column : t'.terminalColumn = t.terminalColumn
  color : t'.terminalColor = t.terminalColor
  cursor : t'.cursor = t.cursor

theorem SameButCells.setCell (h : SameButCells t t') (index : Nat) (entry : UInt16) :
    SameButCells t (t'.setCell index entry) := ⟨h.row, h.column, h.color, h.cursor⟩

theorem SameButCells.refl (t : Terminal) : SameButCells t t := ⟨rfl, rfl, rfl, rfl⟩

/-- The cells that the loops have filled with blanks. -/
def blanked (t : Terminal) (first last : Nat) : Terminal :=
  eachCell first last (fun y x t => t.setCell (y * vgaWidth + x) (vgaEntry 32 t.terminalColor)) t

theorem blanked_spec (t : Terminal) (first last : Nat) (hle : first ≤ last + 1) :
    SameButCells t (t.blanked first last) ∧
      ∀ p, (t.blanked first last).terminalBuffer p =
        if first * vgaWidth ≤ p ∧ p < (last + 1) * vgaWidth then vgaEntry 32 t.terminalColor
        else t.terminalBuffer p := by
  refine eachCell_counts (I := fun q t' => SameButCells t t' ∧ ∀ p, t'.terminalBuffer p =
    if first * vgaWidth ≤ p ∧ p < q then vgaEntry 32 t.terminalColor else t.terminalBuffer p)
    first last hle ?_ ?_
  · refine ⟨.refl t, fun p => ?_⟩
    rw [if_neg (by omega)]
  · rintro y x t' hy hy' hx ⟨hsame, hcells⟩
    refine ⟨hsame.setCell _ _, fun p => ?_⟩
    have hfirst : first * vgaWidth ≤ y * vgaWidth := Nat.mul_le_mul_right _ hy
    rw [setCell_buffer, hcells, hsame.color]
    by_cases hp : p = y * vgaWidth + x
    · rw [if_pos hp, if_pos (by omega)]
    · rw [if_neg hp]
      by_cases hin : first * vgaWidth ≤ p ∧ p < y * vgaWidth + x
      · rw [if_pos hin, if_pos (by omega)]
      · rw [if_neg hin, if_neg (by omega)]

theorem terminalClear_spec (t : Terminal) :
    t.terminalClear.terminalRow = 0 ∧ t.terminalClear.terminalColumn = 0 ∧
      t.terminalClear.cursor = t.cursor ∧
      ∀ p < vgaExtent, t.terminalClear.terminalBuffer p =
        vgaEntry 32 t.terminalClear.terminalColor := by
  obtain ⟨hsame, hcells⟩ := blanked_spec
    { t with terminalRow := 0, terminalColumn := 0, terminalColor := vgaEntryColor 10 0 }
    0 (vgaHeight - 1) (Nat.zero_le _)
  refine ⟨hsame.row, hsame.column, hsame.cursor, fun p hp => ?_⟩
  have hin : 0 * vgaWidth ≤ p ∧ p < (vgaHeight - 1 + 1) * vgaWidth := by
    rw [vgaExtent] at hp
    rw [vgaWidth, vgaHeight]
    omega
  have hcell := hcells p
  rw [if_pos hin] at hcell
  exact hcell.trans (congrArg (vgaEntry 32) hsame.color.symm)

/-- The rows moved up by one. -/
def movedUp (t : Terminal) : Terminal :=
  eachCell 1 (vgaHeight - 1) (fun i j t =>
    t.setCell (j + (i - 1) * vgaWidth) (t.terminalBuffer (j + i * vgaWidth))) t

/-- Each cell is read before it is written. -/
theorem movedUp_spec (t : Terminal) : SameButCells t t.movedUp ∧
    ∀ p, t.movedUp.terminalBuffer p =
      if p + vgaWidth < vgaExtent then t.terminalBuffer (p + vgaWidth)
      else t.terminalBuffer p := by
  refine eachCell_counts (I := fun q t' => SameButCells t t' ∧ ∀ p, t'.terminalBuffer p =
    if p + vgaWidth < q then t.terminalBuffer (p + vgaWidth) else t.terminalBuffer p)
    1 (vgaHeight - 1) (by decide) ?_ ?_
  · refine ⟨.refl t, fun p => ?_⟩
    rw [if_neg (by omega)]
  · rintro y x t' hy hy' hx ⟨hsame, hcells⟩
    refine ⟨hsame.setCell _ _, fun p => ?_⟩
    have hrow : (y - 1) * vgaWidth + vgaWidth = y * vgaWidth := by
      rw [← Nat.succ_mul]
      congr 1
      omega
    have hread : t'.terminalBuffer (x + y * vgaWidth) = t.terminalBuffer (x + y * vgaWidth) := by
      rw [hcells, if_neg (by omega)]
    rw [setCell_buffer, hread, hcells]
    by_cases hp : p = x + (y - 1) * vgaWidth
    · have hfrom : x + y * vgaWidth = p + vgaWidth := by omega
      rw [if_pos hp, if_pos (by omega), hfrom]
    · rw [if_neg hp]
      by_cases hin : p + vgaWidth < y * vgaWidth + x
      · rw [if_pos hin, if_pos (by omega)]
      · rw [if_neg hin, if_neg (by omega)]

theorem updateCursor_buffer (t : Terminal) (x y : Int) :
    (t.updateCursor x y).terminalBuffer = t.terminalBuffer := rfl

theorem updateCursor_color (t : Terminal) (x y : Int) :
    (t.updateCursor x y).terminalColor = t.terminalColor := rfl

theorem scroll_eq (t : Terminal) :
    t.terminalScrollLineDown = (t.movedUp.blanked 24 24).updateCursor 0 23 := by
  have hclear : (fun (i j : Nat) (t : Terminal) =>
      t.setCell (j + i * vgaWidth) (vgaEntry 32 t.terminalColor)) =
      fun y x t => t.setCell (y * vgaWidth + x) (vgaEntry 32 t.terminalColor) := by
    funext i j t
    rw [Nat.add_comm]
  rw [terminalScrollLineDown, blanked, ← hclear]
  rfl

theorem scroll_spec (t : Terminal) :
    t.terminalScrollLineDown.terminalColor = t.terminalColor ∧
      ∀ p < vgaExtent, t.terminalScrollLineDown.terminalBuffer p =
        if p + vgaWidth < vgaExtent then t.terminalBuffer (p + vgaWidth)
        else vgaEntry 32 t.terminalColor := by
  obtain ⟨hmoved, hcells⟩ := movedUp_spec t
  obtain ⟨hsame, hblank⟩ := blanked_spec t.movedUp 24 24 (by decide)
  rw [scroll_eq, updateCursor_color, updateCursor_buffer]
  refine ⟨hsame.color.trans hmoved.color, fun p hp => ?_⟩
  rw [hblank, hcells, hmoved.color]
  have hwidth : vgaWidth = 80 := rfl
  have hextent : vgaExtent = 80 * 25 := rfl
  by_cases hlast : p + vgaWidth < vgaExtent
  · rw [if_neg (by omega), if_pos hlast, if_pos hlast]
  · rw [if_pos (by omega), if_neg hlast]

end Terminal

end BiosKernel
