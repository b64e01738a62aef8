import BiosKernel.Vfs.Components
import Mathlib.Data.List.Destutter
import Mathlib.Data.List.TakeWhile

namespace BiosKernel
open Segments
set_option autoImplicit true

/-- The bytes of a path before its first white space. -/
def pathWord (s : CString) : CString := s.text.takeWhile (!isspace ·)

/-- Not two separators in a row. -/
def Single (a b : UInt8) : Prop := ¬ (a = pathSeperator ∧ b = pathSeperator)

instance (a b : UInt8) : Decidable (Single a b) := inferInstanceAs (Decidable (¬ _))

/-- What a normalised path is for: one separator for each run of them, and none at the end unless
it is all there is. -/
def normalForm (s : CString) : CString :=
  let single := (pathWord s).destutter Single
  if single ≠ [pathSeperator] ∧ single.getLast? = some pathSeperator then single.dropLast
  else single

theorem pathWord_cons (c : UInt8) (s : CString) :
    pathWord (c :: s) = if c = 0 ∨ isspace c then [] else c :: pathWord s := by
  by_cases hc : c = 0
  · have hnil : CString.text (c :: s) = [] := CString.text_eq_nil_iff.mpr hc
    rw [pathWord, hnil, if_pos (.inl hc)]
    rfl
  · rw [pathWord, CString.text_cons hc, List.takeWhile_cons]
    by_cases hs : isspace c
    · simp [hs]
    · simp [hs, hc, pathWord]

theorem pathWord_eq_self (h : ∀ c ∈ s, PathByte c) : pathWord s = s := by
  induction s with
  | nil => rfl
  | cons c s ih =>
    have hc := h c List.mem_cons_self
    rw [pathWord_cons, if_neg (by simpa [PathByte] using hc),
      ih fun d hd => h d (List.mem_cons_of_mem c hd)]

/-- The first loop from behind a byte that has been kept, which may be a separator or not. -/
theorem collapseSeperators_destutter' (s : CString) :
    (∀ c ≠ pathSeperator,
      c :: collapseSeperators s false = (pathWord s).destutter' Single c) ∧
    pathSeperator :: collapseSeperators s true =
      (pathWord s).destutter' Single pathSeperator := by
  induction s with
  | nil => exact ⟨fun c _ => rfl, rfl⟩
  | cons x s ih =>
    obtain ⟨hother, hsep⟩ := ih
    rw [pathWord_cons, collapseSeperators, collapseSeperators]
    by_cases hstop : x = 0 ∨ isspace x
    · simp only [if_pos hstop]
      exact ⟨fun c _ => rfl, rfl⟩
    · simp only [if_neg hstop]
      by_cases hx : x = pathSeperator
      · subst hx
        refine ⟨fun c hc => ?_, ?_⟩
        · rw [List.destutter'_cons_pos _ fun h => hc h.1, ← hsep]
          rfl
        · rw [List.destutter'_cons_neg _ fun h => h ⟨rfl, rfl⟩, ← hsep]
          rfl
      · simp only [if_neg hx]
        refine ⟨fun c _ => ?_, ?_⟩
        · rw [List.destutter'_cons_pos _ fun h => hx h.2, hother x hx]
        · rw [List.destutter'_cons_pos _ fun h => hx h.2, hother x hx]

theorem collapseSeperators_destutter (s : CString) :
    collapseSeperators s false = (pathWord s).destutter Single := by
  cases s with
  | nil => rfl
  | cons x s =>
    obtain ⟨hother, hsep⟩ := collapseSeperators_destutter' s
    rw [collapseSeperators, pathWord_cons]
    by_cases hstop : x = 0 ∨ isspace x
    · rw [if_pos hstop, if_pos hstop, List.destutter_nil]
    · rw [if_neg hstop, if_neg hstop, List.destutter_cons']
      by_cases hx : x = pathSeperator
      · subst hx
        exact hsep
      · rw [if_neg hx]
        exact hother x hx

theorem dropSeperators_of_ne (hc : c ≠ pathSeperator) (s : CString) :
    dropSeperators (c :: s) = c :: s := by
  cases s with
  | nil => rfl
  | cons d s => rw [dropSeperators, if_neg hc]

theorem dropSeperators_single (h : s.IsChain Single) : (dropSeperators s.reverse).reverse =
    if s ≠ [pathSeperator] ∧ s.getLast? = some pathSeperator then s.dropLast else s := by
  rcases List.eq_nil_or_concat' s with rfl | ⟨front, c, rfl⟩
  · rfl
  rw [List.reverse_append, List.getLast?_append_of_ne_nil _ (List.cons_ne_nil _ _),
    List.dropLast_concat]
  by_cases hc : c = pathSeperator
  · subst hc
    rcases List.eq_nil_or_concat' front with rfl | ⟨front, d, rfl⟩
    · rfl
    · have hd : d ≠ pathSeperator := by
        intro hd
        rw [List.append_assoc] at h
        exact (List.isChain_cons.mp h.right_of_append).1 _ rfl ⟨hd, rfl⟩
      have hne : front ++ [d] ++ [pathSeperator] ≠ [pathSeperator] := by
        intro he
        simpa using congrArg List.length he
      rw [if_pos ⟨hne, rfl⟩, List.reverse_append, List.reverse_singleton,
        List.reverse_singleton, List.singleton_append, List.singleton_append, dropSeperators,
        if_pos rfl, dropSeperators_of_ne hd]
      simp
  · rw [if_neg fun h => hc (Option.some.inj h.2), List.reverse_singleton, List.singleton_append,
      dropSeperators_of_ne hc]
    simp

theorem preprocessPath_normalForm (h : s.at0 ≠ 0) :
    preprocessPath s = some (normalForm s) := by
  rw [preprocessPath, if_neg h, dropSeperators_single (collapseSeperators_single s false).1,
    collapseSeperators_destutter]
  rfl

theorem normalForm_sublist (s : CString) : (normalForm s).Sublist s.text := by
  have hsingle : ((pathWord s).destutter Single).Sublist s.text :=
    (List.destutter_sublist Single _).trans (List.takeWhile_sublist _)
  rw [normalForm]
  split
  · exact (List.dropLast_sublist _).trans hsingle
  · exact hsingle

theorem components_collapseSeperators (s : CString) :
    (∀ front : CString, components (front ++ collapseSeperators s false) =
      components (front ++ pathWord s)) ∧
    components (collapseSeperators s true) = components (pathWord s) := by
  induction s with
  | nil => exact ⟨fun front => rfl, rfl⟩
  | cons x s ih =>
    obtain ⟨hother, hsep⟩ := ih
    rw [pathWord_cons, collapseSeperators, collapseSeperators]
    by_cases hstop : x = 0 ∨ isspace x
    · simp only [if_pos hstop]
      exact ⟨fun front => trivial, trivial⟩
    · simp only [if_neg hstop]
      by_cases hx : x = pathSeperator
      · subst hx
        refine ⟨fun front => ?_, ?_⟩
        · have hsep' := congrArg (components front ++ ·) hsep
          rw [components, components, segments_append_sep]
          exact (segments_append_sep front _).trans hsep'
        · exact hsep.trans (segments_cons_sep _).symm
      · simp only [if_neg hx]
        refine ⟨fun front => ?_, hother [x]⟩
        have hfront := hother (front ++ [x])
        rwa [List.append_assoc, List.append_assoc] at hfront

theorem components_normalForm (s : CString) :
    components (normalForm s) = components (pathWord s) := by
  have hcollapse : components ((pathWord s).destutter Single) = components (pathWord s) := by
    rw [← collapseSeperators_destutter]
    exact (components_collapseSeperators s).1 []
  rw [normalForm]
  split
  · next h =>
    have hlast := List.dropLast_append_getLast? _ h.2
    rw [← hcollapse]
    conv_rhs => rw [← hlast]
    rw [components, components, segments_append_sep]
    exact (List.append_nil _).symm
  · exact hcollapse

theorem preprocessPath_at0 (h : preprocessPath s = some t) (hs : PathByte s.at0) :
    t ≠ [] ∧ t.at0 = s.at0 := by
  obtain ⟨hfront, hne⟩ := preprocessPath_spec h
  cases s with
  | nil => exact absurd rfl hs.1
  | cons c s =>
    have hc : PathByte c := hs
    have hcollapse : ∃ rest, collapseSeperators (c :: s) false = c :: rest := by
      rw [collapseSeperators, if_neg (by simpa [PathByte] using hc)]
      split
      · next hsep => exact ⟨collapseSeperators s true, by rw [hsep]; rfl⟩
      · exact ⟨_, rfl⟩
    obtain ⟨rest, hrest⟩ := hcollapse
    rw [hrest] at hfront hne
    cases t with
    | nil => exact absurd rfl (hne (List.cons_ne_nil _ _))
    | cons d t => exact ⟨List.cons_ne_nil _ _, (List.cons_prefix_cons.mp hfront).1⟩

theorem preprocessPath_determined (h : preprocessPath s = some t) (hs : PathByte s.at0) :
    t = if s.at0 = pathSeperator
      then pathSeperator :: (joined pathSeperator (components (pathWord s))).tail
      else (joined pathSeperator (components (pathWord s))).tail := by
  obtain ⟨hne, hat⟩ := preprocessPath_at0 h hs
  have hform : t = normalForm s := Option.some.inj (h.symm.trans (preprocessPath_normalForm hs.1))
  obtain ⟨-, hjoined⟩ := preprocessPath_components h hne
  rw [hat] at hjoined
  rw [← components_normalForm, ← hform, ← hjoined]
  split
  · next hc => exact CString.eq_cons_of_at0 (hat.trans hc) (by decide)
  · rfl

/-- What is asked of the copy `t` of a path `s`. -/
structure Normalised (s t : CString) : Prop where
  result : t = normalForm s
  single : ¬ [pathSeperator, pathSeperator] <:+: t
  bytes : ∀ c ∈ t, PathByte c
  trimmed : t.getLast? = some pathSeperator → t = [pathSeperator]
  /-- What the first loop stores, with the terminator, has room. -/
  stored : (collapseSeperators s false).length + 1 ≤ strlen s + 1
  fits : t.length + 1 ≤ strlen s + 1
  fixed : t ≠ [] → preprocessPath t = some t

theorem normalForm_eq_self (hsingle : t.IsChain Single) (hbytes : ∀ c ∈ t, PathByte c)
    (htrimmed : t ≠ [pathSeperator] → t.getLast? ≠ some pathSeperator) : normalForm t = t := by
  rw [normalForm, pathWord_eq_self hbytes, List.destutter_of_isChain Single t hsingle,
    if_neg fun h => htrimmed h.1 h.2]

theorem preprocessPath_normalised (h : preprocessPath s = some t) (hs : s.at0 ≠ 0) :
    Normalised s t := by
  have hform : t = normalForm s := Option.some.inj (h.symm.trans (preprocessPath_normalForm hs))
  have hbytes : ∀ c ∈ t, PathByte c := fun c => preprocessPath_pathByte h
  have hself : normalForm t = t :=
    normalForm_eq_self (preprocessPath_single h) hbytes (preprocessPath_trimmed h)
  refine ⟨hform, ?_, hbytes, ?_, ?_, ?_, ?_⟩
  · rintro ⟨front, rest, hparts⟩
    have hchain := preprocessPath_single h
    rw [← hparts, List.append_assoc] at hchain
    exact (List.isChain_cons_cons.mp hchain.right_of_append).1 ⟨rfl, rfl⟩
  · intro hlast
    exact of_not_not fun hne => preprocessPath_trimmed h hne hlast
  · rw [collapseSeperators_destutter]
    exact Nat.succ_le_succ
      ((List.destutter_sublist Single _).trans (List.takeWhile_sublist _)).length_le
  · rw [hform]
    exact Nat.succ_le_succ (normalForm_sublist s).length_le
  · intro hne
    have ht : t.at0 ≠ 0 := mt (CString.at0_eq_zero_iff fun h0 => (hbytes 0 h0).1 rfl).mp hne
    rw [preprocessPath_normalForm ht, hself]

theorem pathWord_of_no_space {s : CString} (h : ∀ c ∈ s.text, isspace c = false) :
    pathWord s = s.text := by
  apply List.takeWhile_eq_self_iff.mpr
  intro c hc
  rw [h c hc]
  rfl

theorem at0_pathByte {s : CString} (h : ∀ c ∈ s.text, isspace c = false) (h0 : s.at0 ≠ 0) :
    PathByte s.at0 := by
  refine ⟨h0, h s.at0 ?_⟩
  rw [CString.eq_cons_of_at0 rfl h0, CString.text_cons h0]
  exact List.mem_cons_self

/-- A path is brought to its normal form, which tells the names and the first separator only. -/
theorem preprocessPath_normal_form :
    (∀ s : CString, s.at0 ≠ 0 → ∃ t, preprocessPath s = some t ∧ Normalised s t) ∧
    ∀ s s' : CString, s.at0 ≠ 0 → s'.at0 ≠ 0 → (∀ c ∈ s.text, isspace c = false) →
      (∀ c ∈ s'.text, isspace c = false) → (s.at0 = pathSeperator ↔ s'.at0 = pathSeperator) →
      components s.text = components s'.text → preprocessPath s = preprocessPath s' := by
  refine ⟨fun s hs => ?_, fun s s' hs hs' hspace hspace' hlead hnames => ?_⟩
  · have h := preprocessPath_normalForm hs
    exact ⟨normalForm s, h, preprocessPath_normalised h hs⟩
  · have h := preprocessPath_normalForm hs
    have h' := preprocessPath_normalForm hs'
    rw [h, h', preprocessPath_determined h (at0_pathByte hspace hs),
      preprocessPath_determined h' (at0_pathByte hspace' hs'), pathWord_of_no_space hspace,
      pathWord_of_no_space hspace', hnames]
    simp only [hlead]

/-- `//a///b/ c` and the two spellings `/a//b` and `//a/b/` of one path. -/
theorem preprocessPath_normal_form_spellings :
    (∃ t, preprocessPath [47, 47, 97, 47, 47, 47, 98, 47, 32, 99] = some t ∧
      Normalised [47, 47, 97, 47, 47, 47, 98, 47, 32, 99] t) ∧
    preprocessPath [47, 97, 47, 47, 98] = preprocessPath [47, 47, 97, 47, 98, 47] :=
  ⟨preprocessPath_normal_form.1 _ (by decide),
    preprocessPath_normal_form.2 _ _ (by decide) (by decide) (by decide +kernel)
      (by decide +kernel) (by decide) (by decide)⟩

end BiosKernel
