import BiosKernel.Keyboard.LineEditor

namespace BiosKernel
open Checked
set_option autoImplicit true

/-- `gets_s` edits a line that ends with a newline in a buffer of zeros: the loops end, every byte
that is written is inside the buffer, and the result is the edited line followed by zeros. -/
def GetsEdits (size : UInt64) (cs : List Int) : Prop :=
  ∃ n, ∀ fuel ≥ n,
    (getsS fuel (List.replicate size.toNat 0) size (cs ++ [newlineKey])).map Prod.fst =
      .ok (if edited size.toNat cs = [] then none
        else some (edited size.toNat cs ++
          List.replicate (size.toNat - (edited size.toNat cs).length) 0))

theorem getsEdits_of_short (hpos : 0 < size.toNat) {cs : List Int} (hcs : ∀ c ∈ cs, Typed c)
    (hshort : min size.toNat (cs.length + 1) ≤ 2 ^ 32)
    (hsize : size.toNat < 2 ^ 32 ∨ edited size.toNat cs = []) : GetsEdits size cs := by
  refine ⟨size.toNat + 1, fun fuel hfuel => ?_⟩
  obtain ⟨s, hkeys, hs⟩ := (LineEditor.holds_start hpos).keys_typed
    (by rwa [List.length_nil, Nat.zero_add]) (Nat.le_of_succ_le hfuel) hcs
  have hiff : newlineKey = eof ∨ s.i = 0 ↔ edited size.toNat cs = [] := by
    rw [← List.length_eq_zero_iff, edited, ← hs.i_eq, or_iff_right (by decide), ← UInt32.toNat_inj]
    rfl
  rw [getsS, hkeys, ok_bind]
  dsimp only
  by_cases hnil : edited size.toNat cs = []
  · rw [if_pos hnil, if_pos (hiff.mpr hnil)]
    rfl
  · have hzero : ∀ j, s.i.toNat ≤ j → s.str.getD j 0 = 0 := by
      intro j hj
      rw [hs.i_eq] at hj
      rw [hs.str_eq, List.getD_eq_getElem?_getD, List.getElem?_append_right hj,
        List.getElem?_replicate]
      split <;> rfl
    have hlast := zeroLoop_eq (hsize.resolve_right hnil) s.i (by rw [hs.i_eq]; exact hs.room.le)
      (show size.toNat - s.i.toNat < fuel by omega) hs.str_length hzero
    rw [if_neg hnil, if_neg (mt hiff.mp hnil), hlast, ok_bind, hs.str_eq]
    rfl

theorem edited_eq_nil_of_getsEdits (hsize : 2 ^ 32 ≤ size.toNat) (h : GetsEdits size cs) :
    edited size.toNat cs = [] := by
  obtain ⟨n, hn⟩ := h
  by_contra hne
  have hedit := hn n (Nat.le_refl n)
  rw [if_neg hne] at hedit
  obtain ⟨⟨r, printed⟩, hok, hr⟩ := of_map_eq_ok hedit
  obtain ⟨⟨c, s⟩, -, hrest⟩ := of_bind_eq_ok hok
  dsimp only at hrest hr
  split at hrest
  · cases hrest
    cases hr
  · obtain ⟨str, hlast, -⟩ := of_bind_eq_ok hrest
    exact zeroLoop_ne_ok hsize _ _ _ _ hlast

/-- Every line is edited exactly if the size fits in the 32 bits of the index. Of the lines of fewer
keys than that, those that are empty in the end are edited with any size. -/
theorem getsEdits_iff (size : UInt64) (h : 1 ≤ size.toNat) :
    ((∀ cs, (∀ c ∈ cs, Typed c) → GetsEdits size cs) ↔ size.toNat < 2 ^ 32) ∧
    ∀ cs, (∀ c ∈ cs, Typed c) → cs.length < 2 ^ 32 →
      (GetsEdits size cs ↔ size.toNat < 2 ^ 32 ∨ edited size.toNat cs = []) := by
  have hlarge (cs : List Int) (hedit : GetsEdits size cs) :
      size.toNat < 2 ^ 32 ∨ edited size.toNat cs = [] :=
    (Nat.lt_or_ge size.toNat (2 ^ 32)).imp_right fun hsize => edited_eq_nil_of_getsEdits hsize hedit
  refine ⟨⟨fun hall => ?_, fun hsize cs hcs => ?_⟩, fun cs hcs hlen => ⟨hlarge cs, ?_⟩⟩
  · refine (hlarge [97] (hall [97] (by simp [Typed, newlineKey]))).elim id fun hnil => ?_
    by_contra hsize
    rw [edited, List.foldl_cons, List.foldl_nil, editKey, if_neg (by decide), if_neg (by decide),
      if_neg (by decide), if_pos (by rw [List.length_nil]; omega)] at hnil
    cases hnil
  · exact getsEdits_of_short h hcs (by omega) (.inl hsize)
  · exact getsEdits_of_short h hcs (by omega)

/-- `lb`, a backspace and `s` in the buffer of a command, and an `a` that is taken back in a buffer
of 4 GiB. -/
theorem getsEdits_command : (edited 256 [108, 98, 8, 115] = [108, 115] ∧
    GetsEdits 256 [108, 98, 8, 115]) ∧ GetsEdits 0x100000000 [97, 8] :=
  ⟨⟨by decide, (getsEdits_iff 256 (by decide)).1.mpr (by decide) _ (by decide)⟩,
    ((getsEdits_iff 0x100000000 (by decide)).2 _ (by decide) (by decide)).mpr (.inr (by decide))⟩

/-- The index comes back to 0 before it reaches a size of 2³². -/
theorem gets_a_endless : ¬GetsEdits 0x100000000 [97] := by
  intro h
  exact absurd (edited_eq_nil_of_getsEdits (by decide) h) (by decide)

end BiosKernel
