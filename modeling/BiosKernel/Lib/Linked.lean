import Mathlib.Data.List.Basic
import Mathlib.Data.List.Nodup

namespace Linked
set_option autoImplicit true

variable {α : Type u} {next next' back back' : α → α}

/-- The links from `cur` visit exactly `xs` and end in `null`. -/
def Chain (null : α) (next : α → α) : α → List α → Prop
  | cur, [] => cur = null
  | cur, x :: xs => cur = x ∧ x ≠ null ∧ Chain null next (next x) xs

/-- Every back link names the element before it, the first one `p`. -/
def BackLinks (back : α → α) : α → List α → Prop
  | _, [] => True
  | p, x :: xs => back x = p ∧ BackLinks back x xs

theorem Chain.congr (h : Chain null next cur xs) (hn : ∀ x ∈ xs, next' x = next x) :
    Chain null next' cur xs := by
  induction xs generalizing cur with
  | nil => exact h
  | cons x xs ih =>
    obtain ⟨he, hx, hr⟩ := h
    refine ⟨he, hx, ?_⟩
    rw [hn x List.mem_cons_self]
    exact ih hr (fun y hy => hn y (List.mem_cons_of_mem _ hy))

theorem Chain.ne_null (h : Chain null next cur xs) (hx : x ∈ xs) : x ≠ null := by
  induction xs generalizing cur with
  | nil => cases hx
  | cons y xs ih =>
    obtain ⟨he, hy, hr⟩ := h
    rcases List.mem_cons.mp hx with hxy | hx
    · rw [hxy]; exact hy
    · exact ih hr hx

theorem Chain.head_eq (h : Chain null next cur (x :: xs)) : cur = x := h.1

theorem Chain.eq_nil (h : Chain null next null xs) : xs = [] := by
  cases xs with
  | nil => rfl
  | cons x xs => exact absurd h.1.symm h.2.1

theorem Chain.unique (h : Chain null next cur xs) (h' : Chain null next cur ys) : xs = ys := by
  induction xs generalizing cur ys with
  | nil =>
    have he : cur = null := h
    subst he
    exact h'.eq_nil.symm
  | cons x xs ih =>
    cases ys with
    | nil => exact absurd (h.1.symm.trans h') h.2.1
    | cons y ys =>
      have he : x = y := h.1.symm.trans h'.1
      subst he
      rw [ih h.2.2 h'.2.2]

theorem Chain.suffix (h : Chain null next cur (pre ++ x :: post)) :
    Chain null next x (x :: post) := by
  induction pre generalizing cur with
  | nil => exact ⟨rfl, h.2⟩
  | cons y pre ih => exact ih h.2.2

theorem Chain.nodup (h : Chain null next cur xs) : xs.Nodup := by
  induction xs generalizing cur with
  | nil => exact List.nodup_nil
  | cons x xs ih =>
    refine List.nodup_cons.mpr ⟨?_, ih h.2.2⟩
    intro hx
    obtain ⟨pre, post, he⟩ := List.append_of_mem hx
    have hs : Chain null next cur ((x :: pre) ++ x :: post) := by
      rw [List.cons_append, ← he]
      exact h
    have hx : Chain null next x (x :: xs) := ⟨rfl, h.2⟩
    have hl := congrArg List.length (hs.suffix.unique hx)
    rw [List.length_cons, List.length_cons, he, List.length_append, List.length_cons] at hl
    omega

theorem Chain.tail (h : Chain null next cur (x :: post)) : Chain null next (next x) post := h.2.2

theorem Chain.skip [DecidableEq α] (h : Chain null next cur (pre ++ y :: x :: post)) :
    Chain null (Function.update next y (next x)) cur (pre ++ y :: post) := by
  have hn := h.nodup
  induction pre generalizing cur with
  | nil =>
    obtain ⟨he, hy, _, hx, hr⟩ := h
    refine ⟨he, hy, ?_⟩
    rw [Function.update_self]
    apply hr.congr
    intro z hz
    apply Function.update_of_ne
    rintro rfl
    simp only [List.nil_append, List.nodup_cons, List.mem_cons] at hn
    exact hn.1 (.inr hz)
  | cons z pre ih =>
    obtain ⟨he, hz, hr⟩ := h
    rw [List.cons_append, List.nodup_cons] at hn
    refine ⟨he, hz, ?_⟩
    rw [Function.update_of_ne]
    · exact ih hr hn.2
    · rintro rfl
      exact hn.1 (List.mem_append_right _ List.mem_cons_self)

theorem BackLinks.congr (h : BackLinks back p xs) (hb : ∀ x ∈ xs, back' x = back x) :
    BackLinks back' p xs := by
  induction xs generalizing p with
  | nil => trivial
  | cons x xs ih =>
    refine ⟨(hb x List.mem_cons_self).trans h.1, ih h.2 ?_⟩
    intro y hy
    exact hb y (List.mem_cons_of_mem _ hy)

theorem backLinks_append : BackLinks back p (xs ++ ys) ↔
    BackLinks back p xs ∧ BackLinks back (xs.getLastD p) ys := by
  induction xs generalizing p with
  | nil => exact ⟨fun h => ⟨trivial, h⟩, fun h => h.2⟩
  | cons x xs ih =>
    rw [List.cons_append, BackLinks, BackLinks, ih, List.getLastD_cons]
    exact and_assoc.symm

theorem BackLinks.rehead [DecidableEq α] (h : BackLinks back p (x :: xs)) (hx : x ∉ xs) (q : α) :
    BackLinks (Function.update back x q) q (x :: xs) := by
  refine ⟨Function.update_self .., h.2.congr ?_⟩
  intro y hy
  apply Function.update_of_ne
  rintro rfl
  exact hx hy

theorem BackLinks.skip [DecidableEq α] (h : BackLinks back p (pre ++ x :: z :: post))
    (hn : (pre ++ x :: z :: post).Nodup) :
    BackLinks (Function.update back z (back x)) p (pre ++ z :: post) := by
  rw [backLinks_append] at h ⊢
  obtain ⟨hpre, hx, hz⟩ := h
  have hzpre : z ∉ pre := by
    intro hm
    exact (List.disjoint_of_nodup_append hn) hm (by simp)
  have hzpost : z ∉ post := (List.nodup_cons.mp (List.nodup_cons.mp
    (List.Nodup.of_append_right hn)).2).1
  refine ⟨hpre.congr ?_, ?_⟩
  · intro y hy
    apply Function.update_of_ne
    rintro rfl
    exact hzpre hy
  · rw [← hx]
    exact hz.rehead hzpost _

theorem BackLinks.next_back (hc : Chain null next cur xs) (hb : BackLinks back p xs)
    (hx : x ∈ xs) (hn : next x ≠ null) : back (next x) = x := by
  induction xs generalizing cur p with
  | nil => cases hx
  | cons y xs ih =>
    rcases List.mem_cons.mp hx with he | hx
    · subst he
      cases xs with
      | nil => exact absurd hc.2.2 hn
      | cons z xs =>
        rw [hc.2.2.1]
        exact hb.2.1
    · exact ih hc.2.2 hb.2 hx

theorem BackLinks.of_next_back (hc : Chain null next cur xs)
    (h : ∀ x ∈ xs, next x ≠ null → back (next x) = x) : BackLinks back (back cur) xs := by
  induction xs generalizing cur with
  | nil => trivial
  | cons x xs ih =>
    obtain ⟨rfl, hx, hr⟩ := hc
    refine ⟨rfl, ?_⟩
    have hi := ih hr (fun y hy => h y (List.mem_cons_of_mem _ hy))
    cases xs with
    | nil => trivial
    | cons y xs =>
      have hy : next cur = y := hr.1
      rw [h cur List.mem_cons_self (by rw [hy]; exact hr.2.1)] at hi
      exact hi

theorem Chain.next_mem (h : Chain null next cur xs) (hx : x ∈ xs) :
    next x = null ∨ next x ∈ xs := by
  induction xs generalizing cur with
  | nil => cases hx
  | cons y xs ih =>
    rcases List.mem_cons.mp hx with rfl | hx
    · cases xs with
      | nil => exact .inl h.2.2
      | cons z xs =>
        rw [h.2.2.1]
        exact .inr (List.mem_cons_of_mem _ List.mem_cons_self)
    · exact (ih h.2.2 hx).imp_right (List.mem_cons_of_mem _)

/-- The back link of an element is the last one before it, `p` if there is none. -/
theorem BackLinks.at (h : BackLinks back p (pre ++ x :: post)) : back x = pre.getLastD p :=
  (backLinks_append.mp h).2.1

theorem Chain.next_ne (h : Chain null next cur (pre ++ x :: post)) : next x ≠ x := by
  intro he
  have hs := h.suffix
  have hp : Chain null next x post := he ▸ hs.2.2
  have hl := congrArg List.length (hp.unique hs)
  rw [List.length_cons] at hl
  omega

theorem BackLinks.back_cases (h : BackLinks back p (pre ++ x :: post)) :
    pre = [] ∧ back x = p ∨ back x ∈ pre := by
  have hx := h.at
  rcases List.eq_nil_or_concat pre with rfl | ⟨pre, y, rfl⟩
  · exact .inl ⟨rfl, hx⟩
  · right
    rw [hx, List.concat_eq_append]
    simp

theorem Chain.push [DecidableEq α] (h : Chain null next cur xs) (hx : x ≠ null) (hn : x ∉ xs) :
    Chain null (Function.update next x cur) x (x :: xs) := by
  refine ⟨rfl, hx, ?_⟩
  rw [Function.update_self]
  apply h.congr
  intro y hy
  apply Function.update_of_ne
  rintro rfl
  exact hn hy

theorem BackLinks.push [DecidableEq α] (hc : Chain null next cur xs) (h : BackLinks back p xs)
    (hn : x ∉ xs) :
    BackLinks (if cur ≠ null then Function.update back cur x else back) (back x) (x :: xs) := by
  cases xs with
  | nil =>
    have h0 : cur = null := hc
    rw [if_neg (fun hh => hh h0)]
    exact ⟨rfl, trivial⟩
  | cons y xs =>
    have hd := hc.nodup
    obtain ⟨rfl, hy, _⟩ := hc
    rw [if_pos hy]
    refine ⟨Function.update_of_ne ?_ .., h.rehead (List.nodup_cons.mp hd).1 x⟩
    rintro rfl
    exact hn List.mem_cons_self

/-- Taking out `x`: the link to it is redirected, or the list starts after it. -/
theorem Chain.unlink [DecidableEq α] (h : Chain null next cur (pre ++ x :: post))
    (hb : BackLinks back p (pre ++ x :: post)) (hp : pre = [] → p = null) :
    Chain null (if back x ≠ null then Function.update next (back x) (next x) else next)
      (if back x ≠ null then cur else next x) (pre ++ post) := by
  have hx := hb.at
  rcases List.eq_nil_or_concat pre with rfl | ⟨pre, y, rfl⟩
  · have h0 : back x = null := hx.trans (hp rfl)
    rw [if_neg (fun hh => hh h0), if_neg (fun hh => hh h0)]
    exact h.tail
  · rw [List.concat_eq_append] at hx h ⊢
    have hy : back x = y := by rw [hx]; simp
    have hyn : y ≠ null := h.ne_null (by simp)
    rw [hy, if_pos hyn, if_pos hyn, List.append_assoc]
    rw [List.append_assoc] at h
    exact h.skip

theorem BackLinks.unlink [DecidableEq α] (h : Chain null next cur (pre ++ x :: post))
    (hb : BackLinks back p (pre ++ x :: post)) :
    BackLinks (if next x ≠ null then Function.update back (next x) (back x) else back) p
      (pre ++ post) := by
  have hs := h.suffix
  cases post with
  | nil =>
    have h0 : next x = null := hs.2.2
    rw [if_neg (fun hh => hh h0), List.append_nil]
    exact (backLinks_append.mp hb).1
  | cons z post =>
    obtain ⟨hz, hzn, _⟩ := hs.2.2
    rw [hz, if_pos hzn]
    exact hb.skip h.nodup

/-- Follow the links from `cur` to the first element that passes the test. `none` is a walk that
has not ended after the given number of elements. -/
def search [DecidableEq α] (null : α) (next : α → α) (p : α → Bool) : Nat → α → Option (Option α)
  | 0, _ => none
  | n + 1, cur =>
    if cur = null then some none
    else if p cur then some (some cur)
    else search null next p n (next cur)

theorem Chain.search_eq [DecidableEq α] (h : Chain null next cur xs) (p : α → Bool)
    (hf : xs.length < n) : search null next p n cur = some (xs.find? p) := by
  induction xs generalizing cur n with
  | nil =>
    obtain ⟨k, rfl⟩ : ∃ k, n = k + 1 := ⟨n - 1, by simp at hf; omega⟩
    have he : cur = null := h
    rw [search, if_pos he]
    rfl
  | cons x xs ih =>
    obtain ⟨k, rfl⟩ : ∃ k, n = k + 1 := ⟨n - 1, by simp at hf; omega⟩
    obtain ⟨rfl, hx, hr⟩ := h
    rw [search, if_neg hx]
    cases hp : p cur with
    | true => rw [if_pos rfl, List.find?_cons_of_pos hp]
    | false =>
      rw [if_neg Bool.false_ne_true, List.find?_cons_of_neg (by rw [hp]; exact Bool.false_ne_true)]
      exact ih hr (by rw [List.length_cons] at hf; omega)

theorem Chain.mem_closed {S : α → Prop} (h : Chain null next cur xs)
    (hS : ∀ x, S x → next x = null ∨ S (next x)) (hc : cur = null ∨ S cur) : ∀ x ∈ xs, S x := by
  induction xs generalizing cur with
  | nil =>
    intro x hx
    cases hx
  | cons y xs ih =>
    obtain ⟨rfl, hy, hr⟩ := h
    have hs := hc.resolve_left hy
    intro x hx
    rcases List.mem_cons.mp hx with rfl | hx
    · exact hs
    · exact ih hr (hS cur hs) x hx

/-- Inside a set closed under the links, a walk sees only that set. -/
theorem search_congr [DecidableEq α] {S : α → Prop} (hS : ∀ x, S x → next x = null ∨ S (next x))
    (hn : ∀ x, S x → next' x = next x) (hp : ∀ x, S x → p' x = p x)
    (hc : cur = null ∨ S cur) : search null next' p' n cur = search null next p n cur := by
  induction n generalizing cur with
  | zero => rfl
  | succ n ih =>
    rw [search, search]
    by_cases h0 : cur = null
    · rw [if_pos h0, if_pos h0]
    · have hs := hc.resolve_left h0
      rw [if_neg h0, if_neg h0, hp cur hs, hn cur hs, ih (hS cur hs)]

theorem search_mem [DecidableEq α] {S : α → Prop} (hS : ∀ x, S x → next x = null ∨ S (next x))
    (hc : cur = null ∨ S cur) (h : search null next p n cur = some (some x)) :
    S x ∧ p x = true := by
  induction n generalizing cur with
  | zero => cases h
  | succ n ih =>
    rw [search] at h
    split at h
    · cases h
    · next h0 =>
      have hs := hc.resolve_left h0
      split at h
      · next hp =>
        cases h
        exact ⟨hs, hp⟩
      · exact ih (hS cur hs) h

end Linked
