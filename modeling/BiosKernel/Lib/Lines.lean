import Mathlib.Data.List.Basic
import Mathlib.Tactic.Common

/-! Text in lines of a fixed width, with a new line as soon as one is full. -/

namespace Lines
set_option autoImplicit true

variable {α : Type}

/-- The lines that are complete, and the one that is being written. -/
structure Wrapped (α : Type) where
  complete : List (List α)
  current : List α

def Wrapped.lines (w : Wrapped α) : List (List α) := w.complete ++ [w.current]

/-- One more character. A line of `width` characters is complete. -/
def feed [DecidableEq α] (width : Nat) (newline : α) (w : Wrapped α) (c : α) : Wrapped α :=
  if c = newline then ⟨w.complete ++ [w.current], []⟩
  else if w.current.length + 1 = width then ⟨w.complete ++ [w.current ++ [c]], []⟩
  else ⟨w.complete, w.current ++ [c]⟩

def wrap [DecidableEq α] (width : Nat) (newline : α) (text : List α) : Wrapped α :=
  text.foldl (feed width newline) ⟨[], []⟩

/-- The last `n` lines, or all if there are fewer. -/
def newest (n : Nat) (ls : List (List α)) : List (List α) := ls.drop (ls.length - n)

theorem length_newest (n : Nat) (ls : List (List α)) :
    (newest n ls).length = min ls.length n := by
  rw [newest, List.length_drop]
  omega

theorem newest_of_le {ls : List (List α)} (h : ls.length ≤ n) : newest n ls = ls := by
  rw [newest, Nat.sub_eq_zero_of_le h, List.drop_zero]

theorem newest_succ_append (n : Nat) (ls : List (List α)) (l : List α) :
    newest (n + 1) (ls ++ [l]) = newest n ls ++ [l] := by
  rw [newest, newest, List.length_append, List.length_singleton,
    List.drop_append_of_le_length (by omega)]
  congr 2
  omega

theorem tail_newest {ls : List (List α)} (h : n < ls.length) :
    (newest (n + 1) ls).tail = newest n ls := by
  rw [newest, newest, List.tail_drop]
  congr 1
  omega

end Lines
