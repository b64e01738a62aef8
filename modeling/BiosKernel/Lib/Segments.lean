import Mathlib.Data.List.Chain

namespace Segments
set_option autoImplicit true

variable {α : Type u} {sep : α}

/-- The segments with a separator before each. -/
def joined (sep : α) (xs : List (List α)) : List α := xs.flatMap (sep :: ·)

@[simp] theorem joined_nil : joined sep [] = [] := rfl

@[simp] theorem joined_cons (x : List α) (xs : List (List α)) :
    joined sep (x :: xs) = sep :: (x ++ joined sep xs) := List.flatMap_cons

theorem mem_joined_tail {xs : List (List α)} (hx : x ∈ xs) (ha : a ∈ x) :
    a ∈ (joined sep xs).tail := by
  cases xs with
  | nil => cases hx
  | cons y xs =>
    rw [joined_cons, List.tail_cons, List.mem_append]
    rcases List.mem_cons.mp hx with rfl | hx
    · exact .inl ha
    · exact .inr (List.mem_flatMap.mpr ⟨x, hx, List.mem_cons_of_mem _ ha⟩)

/-- What is joined begins with a separator or not at all, so a segment ends where it does. -/
theorem segment_eq (hx : sep ∉ x) (hy : sep ∉ y)
    (h : x ++ joined sep xs = y ++ joined sep ys) : x = y ∧ joined sep xs = joined sep ys := by
  induction x generalizing y with
  | nil =>
    cases y with
    | nil => exact ⟨rfl, h⟩
    | cons b y =>
      cases xs with
      | nil => cases h
      | cons z xs =>
        rw [joined_cons] at h
        obtain ⟨rfl, _⟩ := List.cons.inj h
        exact absurd List.mem_cons_self hy
  | cons a x ih =>
    cases y with
    | nil =>
      cases ys with
      | nil => cases h
      | cons z ys =>
        rw [joined_cons] at h
        obtain ⟨rfl, _⟩ := List.cons.inj h
        exact absurd List.mem_cons_self hx
    | cons b y =>
      obtain ⟨rfl, htail⟩ := List.cons.inj h
      obtain ⟨rfl, hrest⟩ := ih (fun hm => hx (List.mem_cons_of_mem _ hm))
        (fun hm => hy (List.mem_cons_of_mem _ hm)) htail
      exact ⟨rfl, hrest⟩

theorem joined_injective (hx : ∀ x ∈ xs, sep ∉ x) (hy : ∀ y ∈ ys, sep ∉ y)
    (h : joined sep xs = joined sep ys) : xs = ys := by
  induction xs generalizing ys with
  | nil =>
    cases ys with
    | nil => rfl
    | cons y ys => cases h
  | cons x xs ih =>
    cases ys with
    | nil => cases h
    | cons y ys =>
      rw [joined_cons, joined_cons] at h
      obtain ⟨rfl, hrest⟩ := segment_eq (hx x List.mem_cons_self) (hy y List.mem_cons_self)
        (List.cons.inj h).2
      rw [ih (fun x hm => hx x (List.mem_cons_of_mem _ hm))
        (fun y hm => hy y (List.mem_cons_of_mem _ hm)) hrest]

/-- A segment that is not empty and has no separator in it. -/
structure Proper (sep : α) (x : List α) : Prop where
  ne_nil : x ≠ []
  no_sep : sep ∉ x

theorem length_le_joined_tail (h : ∀ x ∈ xs, Proper sep x) :
    xs.length ≤ (joined sep xs).tail.length := by
  have hdouble : 2 * xs.length ≤ (joined sep xs).length := by
    induction xs with
    | nil => exact Nat.le_refl 0
    | cons x xs ih =>
      have hx := List.length_pos_iff.mpr (h x List.mem_cons_self).ne_nil
      have hxs := ih fun y hy => h y (List.mem_cons_of_mem x hy)
      rw [joined_cons, List.length_cons, List.length_cons, List.length_append]
      omega
  rw [List.length_tail]
  omega

section Split

variable [DecidableEq α]

/-- What stands between the separators, where anything does. -/
def segments (sep : α) (s : List α) : List (List α) := (s.splitOn sep).filter (!·.isEmpty)

theorem segments_append_sep (x s : List α) :
    segments sep (x ++ sep :: s) = segments sep x ++ segments sep s := by
  rw [segments, List.splitOn_append_cons_self, List.filter_append]
  rfl

theorem segments_cons_sep (s : List α) : segments sep (sep :: s) = segments sep s :=
  segments_append_sep [] s

theorem segments_of_proper (h : Proper sep x) : segments sep x = [x] := by
  rw [segments, List.splitOn_eq_singleton h.no_sep]
  exact List.filter_cons_of_pos (by simp [h.ne_nil])

theorem segments_append (h : Proper sep x) (s : List α) :
    segments sep (x ++ sep :: s) = x :: segments sep s := by
  rw [segments_append_sep, segments_of_proper h, List.singleton_append]

theorem segments_joined_tail (h : ∀ x ∈ xs, Proper sep x) :
    segments sep (joined sep xs).tail = xs := by
  induction xs with
  | nil => rfl
  | cons x xs ih =>
    have hx := h x List.mem_cons_self
    rw [joined_cons, List.tail_cons]
    cases xs with
    | nil => rw [joined_nil, List.append_nil, segments_of_proper hx]
    | cons y ys =>
      have hrest := ih fun z hz => h z (List.mem_cons_of_mem _ hz)
      rw [joined_cons, List.tail_cons] at hrest
      rw [joined_cons, segments_append hx, hrest]

theorem segments_joined (h : ∀ x ∈ xs, Proper sep x) : segments sep (joined sep xs) = xs := by
  cases xs with
  | nil => rfl
  | cons x xs =>
    have htail := segments_joined_tail h
    rw [joined_cons, List.tail_cons] at htail
    rw [joined_cons, segments_cons_sep, htail]

/-- A list without two separators in a row and with none at its ends is one of segments joined. -/
theorem exists_joined (hne : s ≠ []) (hhead : s.head? ≠ some sep) (hlast : s.getLast? ≠ some sep)
    (hsingle : s.IsChain fun a b => ¬ (a = sep ∧ b = sep)) :
    ∃ xs, xs ≠ [] ∧ (∀ x ∈ xs, Proper sep x) ∧ s = (joined sep xs).tail := by
  induction hn : s.length using Nat.strong_induction_on generalizing s with
  | h n ih =>
    by_cases hm : sep ∈ s
    · obtain ⟨x, rest, rfl, hx⟩ := List.eq_append_cons_of_mem hm
      have hxne : x ≠ [] := by
        rintro rfl
        exact hhead rfl
      have hrest : rest ≠ [] := by
        rintro rfl
        exact hlast (by simp)
      have hchain := List.isChain_cons.mp hsingle.right_of_append
      rw [List.getLast?_append_of_ne_nil _ (List.cons_ne_nil _ _),
        List.getLast?_cons_of_ne_nil hrest] at hlast
      obtain ⟨xs, hxs, hproper, rfl⟩ := ih rest.length (by simp [← hn]; omega) hrest
        (fun h => hchain.1 sep h ⟨rfl, rfl⟩) hlast hchain.2 rfl
      refine ⟨x :: xs, List.cons_ne_nil _ _, List.forall_mem_cons.mpr ⟨⟨hxne, hx⟩, hproper⟩, ?_⟩
      cases xs with
      | nil => exact absurd rfl hxs
      | cons y ys => simp
    · refine ⟨[s], List.cons_ne_nil _ _, ?_, ?_⟩
      · intro x hx
        cases List.mem_singleton.mp hx
        exact ⟨hne, hm⟩
      · simp

end Split

end Segments
