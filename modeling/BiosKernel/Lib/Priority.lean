import Mathlib.Data.List.Nodup
import Mathlib.Logic.Function.Basic

namespace Priority
set_option autoImplicit true

variable [DecidableEq α]

theorem filter_update_of_not_mem {order : List α} {ready : α → Bool} (h : a ∉ order) :
    order.filter (Function.update ready a false) = order.filter ready := by
  apply List.filter_congr
  intro b hb
  rw [Function.update_of_ne]
  rintro rfl
  exact h hb

/-- What is served first is the first of all that are ready, and the others stay. -/
theorem filter_of_find? {order : List α} {ready : α → Bool} (hd : order.Nodup)
    (h : order.find? ready = some a) :
    order.filter ready = a :: order.filter (Function.update ready a false) := by
  induction order with
  | nil => cases h
  | cons b order ih =>
    obtain ⟨hb, hd⟩ := List.nodup_cons.mp hd
    cases hr : ready b with
    | true =>
      rw [List.find?_cons_of_pos hr] at h
      cases h
      rw [List.filter_cons_of_pos hr,
        List.filter_cons_of_neg (by rw [Function.update_self]; decide),
        filter_update_of_not_mem hb]
    | false =>
      have hr' : ¬ ready b = true := by
        rw [hr]
        decide
      rw [List.find?_cons_of_neg hr'] at h
      have hne : b ≠ a := by
        rintro rfl
        exact hb (List.mem_of_find?_eq_some h)
      have hu : ¬ Function.update ready a false b = true := by
        rw [Function.update_of_ne hne]
        exact hr'
      rw [List.filter_cons_of_neg hr', List.filter_cons_of_neg hu]
      exact ih hd h

end Priority
