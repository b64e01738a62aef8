import BiosKernel.Vfs.Walk

namespace BiosKernel
open Segments
set_option autoImplicit true

/-- The names between the separators of a path. -/
def components (path : CString) : List CString := segments pathSeperator path

/-- A name as it stands in a normalised path. -/
structure Component (c : CString) : Prop extends Proper pathSeperator c where
  no_nul : 0 ∉ c

theorem preprocessPath_joined (h : preprocessPath s = some t) (hne : t ≠ []) :
    ∃ xs, (∀ x ∈ xs, Proper pathSeperator x) ∧
      (t = pathSeperator :: (joined pathSeperator xs).tail ∨
        t.at0 ≠ pathSeperator ∧ t = (joined pathSeperator xs).tail) := by
  have hsingle := preprocessPath_single h
  cases t with
  | nil => exact absurd rfl hne
  | cons a u =>
    by_cases ha : a = pathSeperator
    · subst ha
      cases u with
      | nil => exact ⟨[], fun x hx => absurd hx List.not_mem_nil, .inl rfl⟩
      | cons b u =>
        have hchain := List.isChain_cons.mp hsingle
        have hlast := preprocessPath_trimmed h (by simp)
        rw [List.getLast?_cons_of_ne_nil (List.cons_ne_nil _ _)] at hlast
        obtain ⟨xs, _, hxs, hu⟩ := exists_joined (List.cons_ne_nil b u)
          (fun hb => hchain.1 _ hb ⟨rfl, rfl⟩) hlast hchain.2
        exact ⟨xs, hxs, .inl (by rw [← hu])⟩
    · obtain ⟨xs, _, hxs, hu⟩ := exists_joined hne (fun hb => ha (Option.some.inj hb))
        (preprocessPath_trimmed h fun he => ha (List.cons.inj he).1) hsingle
      exact ⟨xs, hxs, .inr ⟨ha, hu⟩⟩

theorem preprocessPath_components (h : preprocessPath s = some t) (hne : t ≠ []) :
    (∀ c ∈ components t, Component c) ∧
      (if t.at0 = pathSeperator then t.tail else t) =
        (joined pathSeperator (components t)).tail := by
  obtain ⟨xs, hxs, ht⟩ := preprocessPath_joined h hne
  have hcomponents : components t = xs := by
    rcases ht with rfl | ⟨_, rfl⟩
    · rw [components, segments_cons_sep, segments_joined_tail hxs]
    · exact segments_joined_tail hxs
  have hsuffix : (joined pathSeperator xs).tail <:+ t := by
    rcases ht with ht | ⟨_, ht⟩
    · rw [ht]
      exact List.suffix_cons _ _
    · rw [← ht]
  rw [hcomponents]
  refine ⟨fun c hc => ⟨hxs c hc, ?_⟩, ?_⟩
  · intro h0
    exact (preprocessPath_pathByte h (hsuffix.subset (mem_joined_tail hc h0))).1 rfl
  · rcases ht with rfl | ⟨h0, rfl⟩
    · exact if_pos rfl
    · exact if_neg h0

theorem length_components_le (h : preprocessPath s = some t) (hne : t ≠ []) :
    (components t).length ≤ t.length := by
  obtain ⟨hcomponent, hposition⟩ := preprocessPath_components h hne
  refine Nat.le_trans (length_le_joined_tail fun c hc => (hcomponent c hc).toProper) ?_
  rw [← hposition]
  split
  · exact (List.tail_suffix t).length_le
  · exact Nat.le_refl _

theorem nextSeparatorPosition_component (hc : Component c) (cs : List CString) :
    nextSeparatorPosition (c ++ joined pathSeperator cs) = joined pathSeperator cs := by
  rw [nextSeparatorPosition, strchr_append hc.no_sep hc.no_nul]
  cases cs with
  | nil =>
    have hnone : strchr (joined pathSeperator []) pathSeperator = none := rfl
    rw [hnone]
    dsimp only
    rw [joined_nil, List.append_nil, strchr_zero hc.no_nul]
    rfl
  | cons d cs => rfl

theorem position_component (hc : Component c) (cs : List CString) :
    CString.at0 (c ++ joined pathSeperator cs) ≠ 0 ∧
      (CString.at0 (joined pathSeperator cs) = 0 ↔ cs = []) := by
  refine ⟨?_, ?_⟩
  · cases c with
    | nil => exact absurd rfl hc.ne_nil
    | cons a c => exact fun ha => hc.no_nul (ha ▸ List.mem_cons_self)
  · cases cs with
    | nil => exact ⟨fun _ => rfl, fun _ => rfl⟩
    | cons d cs =>
      exact ⟨fun h => absurd h (by decide : pathSeperator ≠ 0),
        fun h => absurd h (List.cons_ne_nil _ _)⟩

end BiosKernel
