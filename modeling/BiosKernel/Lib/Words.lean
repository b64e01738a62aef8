import Mathlib.Data.List.Basic
import Mathlib.Tactic.Common

namespace Words
set_option autoImplicit true

variable {α : Type u} [DecidableEq α] {sep : α}

/-- The maximal runs of elements other than `sep`. -/
def words (sep : α) (s : List α) : List (List α) := (s.splitOn sep).filter (· ≠ [])

@[simp] theorem words_sep_cons (s : List α) : words sep (sep :: s) = words sep s := by
  rw [words, List.splitOn, List.splitOnP_cons_eq_if_modifyHead, if_pos (beq_self_eq_true sep)]
  rfl

theorem words_append (hx : sep ∉ x) (hne : x ≠ []) (s : List α) :
    words sep (x ++ sep :: s) = x :: words sep s := by
  have hx' : ∀ a ∈ x, (a == sep) = false := fun a ha => beq_false_of_ne fun h => hx (h ▸ ha)
  rw [words, List.splitOn, List.splitOnP_append_cons_of_forall_mem hx' _ (beq_self_eq_true sep),
    List.filter_cons_of_pos (by simpa using hne)]
  rfl

theorem words_of_not_mem (hx : sep ∉ x) (hne : x ≠ []) : words sep x = [x] := by
  have hx' : ∀ a ∈ x, (a == sep) = false := fun a ha => beq_false_of_ne fun h => hx (h ▸ ha)
  rw [words, List.splitOn, List.splitOnP_eq_singleton hx',
    List.filter_cons_of_pos (by simpa using hne)]
  rfl

theorem exists_word (ha : a ≠ sep) (s : List α) :
    ∃ x, sep ∉ x ∧ x ≠ [] ∧ (a :: s = x ∨ ∃ t, a :: s = x ++ sep :: t) := by
  induction s generalizing a with
  | nil =>
    refine ⟨[a], ?_, List.cons_ne_nil _ _, .inl rfl⟩
    exact fun h => ha (List.mem_singleton.mp h).symm
  | cons b s ih =>
    by_cases hb : b = sep
    · subst hb
      refine ⟨[a], ?_, List.cons_ne_nil _ _, .inr ⟨s, rfl⟩⟩
      exact fun h => ha (List.mem_singleton.mp h).symm
    · obtain ⟨x, hx, -, hs⟩ := ih hb
      refine ⟨a :: x, ?_, List.cons_ne_nil _ _, ?_⟩
      · exact List.not_mem_cons_of_ne_of_not_mem (Ne.symm ha) hx
      · rcases hs with hs | ⟨t, hs⟩
        · exact .inl (congrArg (a :: ·) hs)
        · exact .inr ⟨t, congrArg (a :: ·) hs⟩

/-- Induction over a list by its separators and words. -/
theorem words_induction {P : List α → Prop} (sep : α) (nil : P []) (skip : ∀ s, P s → P (sep :: s))
    (last : ∀ x, sep ∉ x → x ≠ [] → P x)
    (word : ∀ x s, sep ∉ x → x ≠ [] → P s → P (x ++ sep :: s)) (s : List α) : P s := by
  induction hn : s.length using Nat.strongRecOn generalizing s with
  | ind n ih =>
    subst hn
    cases s with
    | nil => exact nil
    | cons a s =>
      by_cases ha : a = sep
      · subst ha
        exact skip s (ih s.length (Nat.lt_succ_self _) s rfl)
      · obtain ⟨x, hx, hne, hs | ⟨t, hs⟩⟩ := exists_word ha s
        · rw [hs]
          exact last x hx hne
        · rw [hs]
          refine word x t hx hne (ih t.length ?_ t rfl)
          rw [hs, List.length_append, List.length_cons]
          omega

theorem word_subset (hx : x ∈ words sep s) : x ⊆ s := by
  induction s using words_induction sep with
  | nil => cases hx
  | skip s ih =>
    rw [words_sep_cons] at hx
    exact List.Subset.trans (ih hx) (List.subset_cons_self ..)
  | last y hy hne =>
    rw [words_of_not_mem hy hne, List.mem_singleton] at hx
    rw [hx]
    exact List.Subset.refl _
  | word y s hy hne ih =>
    rw [words_append hy hne] at hx
    rcases List.mem_cons.mp hx with rfl | hx
    · exact List.subset_append_left ..
    · have hs := List.Subset.trans (ih hx) (List.subset_cons_self sep s)
      exact List.Subset.trans hs (List.subset_append_right ..)

theorem word_ne_nil (hx : x ∈ words sep s) : x ≠ [] := by
  simpa using (List.mem_filter.mp hx).2

end Words
