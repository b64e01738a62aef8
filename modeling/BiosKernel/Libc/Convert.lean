import BiosKernel.Libc.Text
import Mathlib.Data.List.DropRight
import Mathlib.Data.Nat.Digits.Defs

namespace BiosKernel
set_option autoImplicit true

def isdigit (c : UInt8) : Bool := 48 ≤ c ∧ c ≤ 57

def isxdigit (c : UInt8) : Bool := (48 ≤ c ∧ c ≤ 57) ∨ (97 ≤ c ∧ c ≤ 102) ∨ (65 ≤ c ∧ c ≤ 70)

def tolower (c : UInt8) : UInt8 := if 65 ≤ c ∧ c ≤ 90 then c + 32 else c

def isnumber (s : CString) : Bool := s.text.all isdigit

def atoi (nptr : CString) : Int64 :=
  let s : CString := nptr.dropWhile isspace
  let sign : Int64 := if s.at0 = 45 then -1 else 1
  let s := if s.at0 = 45 ∨ s.at0 = 43 then s.tail else s
  sign * (s.takeWhile isdigit).foldl (fun num c => num * 10 + (Int64.ofNat c.toNat - 48)) 0

/-- `itoa` for a number that can be negated. -/
def itoa (num : Int) (base : Nat) : CString :=
  if num = 0 then [48]
  else
    (if num < 0 ∧ base = 10 then [45] else []) ++
      (Nat.digits base num.natAbs).reverse.map fun rem =>
        UInt8.ofNat (if 9 < rem then rem - 10 + 97 else rem + 48)

/-- The loop of `trimwhitespace` that goes back from `s[n]`. -/
def trimEnd (s : CString) : Nat → Nat
  | 0 => 0
  | n + 1 => if isspace (s.getD (n + 1) 0) then trimEnd s n else n + 1

/-- What the buffer is behind `trimwhitespace`, and the string in it that the call returns. -/
def trimwhitespace (ptr : CString) : CString × CString :=
  let lead := (ptr.takeWhile isspace).length
  let s : CString := ptr.drop lead
  if s.at0 = 0 then (ptr, s)
  else
    let s := s.set (trimEnd s (strlen s - 1) + 1) 0
    (ptr.take lead ++ s, s)

example : (itoa (-1203) 10, itoa 255 16, atoi [32, 45, 49, 50, 120]) =
    ([45, 49, 50, 48, 51], [102, 102], -12) := by decide +kernel

/-- A string without the white space around it. -/
def trimmed (t : CString) : CString := (t.dropWhile isspace).rdropWhile isspace

theorem trimmed_append {r : CString} (hr : ∀ c ∈ r, isspace c = true) (t : CString) :
    trimmed (t ++ r) = trimmed t := by
  have hfront : r.dropWhile isspace = [] := List.dropWhile_eq_nil_iff.mpr hr
  have hback (x : CString) : (x ++ r).rdropWhile isspace = x.rdropWhile isspace := by
    rw [List.rdropWhile, List.rdropWhile, List.reverse_append, List.dropWhile_append_of_pos]
    intro c hc
    exact hr c (List.mem_reverse.mp hc)
  rw [trimmed, trimmed, List.dropWhile_append, hfront]
  split
  · rename_i hempty
    rw [List.isEmpty_iff.mp hempty]
  · exact hback _

theorem ne_zero_of_isspace (h : isspace c = true) : c ≠ 0 := by
  rintro rfl
  exact absurd h (by decide)

theorem text_dropWhile (s : CString) :
    CString.text (s.dropWhile isspace) = s.text.dropWhile isspace := by
  induction s with
  | nil => rfl
  | cons c s ih =>
    by_cases hc : isspace c = true
    · rw [List.dropWhile_cons_of_pos hc, CString.text_cons (ne_zero_of_isspace hc),
        List.dropWhile_cons_of_pos hc]
      exact ih
    · rw [List.dropWhile_cons_of_neg hc]
      by_cases h0 : c = 0
      · rw [h0]
        rfl
      · rw [CString.text_cons h0, List.dropWhile_cons_of_neg hc]

theorem text_set_zero {s : CString} (h : n ≤ strlen s) :
    CString.text (s.set n 0) = s.text.take n := by
  induction s generalizing n with
  | nil =>
    rw [Nat.le_zero.mp h]
    rfl
  | cons c s ih =>
    cases n with
    | zero => rfl
    | succ n =>
      have hc : c ≠ 0 := by
        rintro rfl
        exact absurd h (Nat.not_succ_le_zero n)
      rw [strlen, CString.text_cons hc] at h
      rw [List.set_cons_succ, CString.text_cons hc, CString.text_cons hc, List.take_succ_cons,
        ih (Nat.le_of_succ_le_succ h)]

theorem trimEnd_spec (s : CString) (n : Nat) :
    trimEnd s n ≤ n ∧ ∀ i, trimEnd s n < i → i ≤ n → isspace (s.getD i 0) = true := by
  induction n with
  | zero => exact ⟨Nat.le_refl 0, fun i hlt hle => absurd hlt (by rw [trimEnd]; omega)⟩
  | succ n ih =>
    rw [trimEnd]
    split
    · rename_i hspace
      refine ⟨Nat.le_succ_of_le ih.1, ?_⟩
      intro i hlt hle
      rcases Nat.lt_or_eq_of_le hle with hi | rfl
      · exact ih.2 i hlt (Nat.le_of_lt_succ hi)
      · exact hspace
    · exact ⟨Nat.le_refl _, fun i hlt hle => absurd hle (by omega)⟩

theorem getElem?_text {s : CString} (h : i < strlen s) : s.text[i]? = some (s.getD i 0) := by
  have hsplit : s[i]? = s.text[i]? :=
    (congrArg (·[i]?) List.takeWhile_append_dropWhile.symm).trans (List.getElem?_append_left h)
  rw [List.getD_eq_getElem?_getD, hsplit, List.getElem?_eq_getElem h, Option.getD_some]

theorem take_trimEnd {s : CString} (hs : isspace s.at0 = false) (hn : n < strlen s) :
    s.text.take (trimEnd s n + 1) = (s.text.take (n + 1)).rdropWhile isspace := by
  induction n with
  | zero =>
    have hfirst : s.text.take 1 = [s.at0] := by
      rw [List.take_add_one, getElem?_text hn]
      cases s with
      | nil => cases hn
      | cons c s => rfl
    rw [trimEnd, hfirst, List.rdropWhile_singleton, hs]
    rfl
  | succ n ih =>
    have hlast : s.text.take (n + 1 + 1) = s.text.take (n + 1) ++ [s.getD (n + 1) 0] := by
      rw [List.take_add_one, getElem?_text hn]
      rfl
    rw [trimEnd, hlast, List.rdropWhile_concat]
    split
    · exact ih (Nat.lt_of_succ_lt hn)
    · exact hlast

theorem isspace_at0_dropWhile (s : CString) :
    isspace (CString.at0 (s.dropWhile isspace)) = false := by
  have hhead := List.head?_dropWhile_not isspace s
  cases h : s.dropWhile isspace with
  | nil => rfl
  | cons c t =>
    rw [h] at hhead
    exact hhead

theorem drop_takeWhile (s : CString) :
    s.drop (s.takeWhile isspace).length = s.dropWhile isspace :=
  (congrArg (List.drop _) List.takeWhile_append_dropWhile.symm).trans List.drop_left

theorem strlen_pos {s : CString} (h : s.at0 ≠ 0) : 0 < strlen s := by
  cases s with
  | nil => exact absurd rfl h
  | cons c s =>
    have hc : c ≠ 0 := h
    rw [strlen, CString.text_cons hc]
    exact Nat.succ_pos _

theorem text_trimwhitespace (ptr : CString) : (trimwhitespace ptr).2.text = trimmed ptr.text := by
  rw [trimwhitespace, drop_takeWhile, trimmed, ← text_dropWhile]
  have hspace := isspace_at0_dropWhile ptr
  generalize ptr.dropWhile isspace = s at hspace ⊢
  dsimp only
  split
  · rename_i h0
    have hempty : CString.text s = [] := by
      cases s with
      | nil => rfl
      | cons c s =>
        rw [show c = 0 from h0]
        rfl
    rw [hempty]
    rfl
  · rename_i h0
    have hpos := strlen_pos h0
    have hend := (trimEnd_spec s (strlen s - 1)).1
    rw [text_set_zero (by omega), take_trimEnd hspace (by omega), Nat.sub_add_cancel hpos,
      strlen, List.take_length]

end BiosKernel
