import Mathlib.Data.List.Induction
import Mathlib.Data.Nat.Digits.Defs
import Mathlib.Tactic.Common

/-! Numerals as bytes of ASCII text, the most significant digit first. -/

namespace Positional
set_option autoImplicit true

def digitChar (d : Nat) : UInt8 := UInt8.ofNat (if 9 < d then d - 10 + 97 else d + 48)

/-- The digits are 0 to 9 and the small letters. -/
def digitValue (c : UInt8) : Option Nat :=
  if 48 ≤ c ∧ c ≤ 57 then some (c.toNat - 48)
  else if 97 ≤ c ∧ c ≤ 122 then some (c.toNat - 87)
  else none

/-- Read one more digit. -/
def readDigit (base v : Nat) (c : UInt8) : Option Nat :=
  (digitValue c).bind fun d => if d < base then some (v * base + d) else none

/-- The number that a text stands for, if it is a row of digits. -/
def value (base : Nat) (s : List UInt8) : Option Nat := s.foldlM (readDigit base) 0

/-- A row of at least one digit that stands for the number. -/
def Denotes (base : Nat) (s : List UInt8) (n : Nat) : Prop := s ≠ [] ∧ value base s = some n

instance (base : Nat) (s : List UInt8) (n : Nat) : Decidable (Denotes base s n) :=
  inferInstanceAs (Decidable (s ≠ [] ∧ value base s = some n))

/-- The digits of a number, none for zero. -/
def digits (base n : Nat) : List UInt8 := (Nat.digits base n).reverse.map digitChar

def numeral (base n : Nat) : List UInt8 := if n = 0 then [48] else digits base n

/-- The canonical decimal text of a number: a minus sign if it is negative, then decimal digits
without a leading zero. -/
def IsDecimal (s : List UInt8) (n : Int) : Prop :=
  ∃ ds, s = (if n < 0 then [45] else []) ++ ds ∧ (∀ c ∈ ds, 48 ≤ c ∧ c ≤ 57) ∧
    (ds.head? = some 48 → ds = [48]) ∧ Denotes 10 ds n.natAbs

def decimal (n : Int) : List UInt8 := (if n < 0 then [45] else []) ++ numeral 10 n.natAbs

theorem digitValue_digitChar (h : d < 36) : digitValue (digitChar d) = some d := by
  revert d
  decide

theorem digitChar_decimal (h : d < 10) : 48 ≤ digitChar d ∧ digitChar d ≤ 57 := by
  revert d
  decide

theorem digitChar_ne_zero (h0 : 0 < d) (h : d < 36) : digitChar d ≠ 48 := by
  intro heq
  have hvalue := digitValue_digitChar h
  rw [heq] at hvalue
  exact Nat.ne_of_lt h0 (Option.some.inj hvalue)

theorem digits_succ (hb : 1 < base) (hn : 0 < n) :
    digits base n = digits base (n / base) ++ [digitChar (n % base)] := by
  rw [digits, digits, Nat.digits_def' hb hn, List.reverse_cons, List.map_append, List.map_singleton]

theorem length_digits (base n : Nat) : (digits base n).length = (Nat.digits base n).length := by
  rw [digits, List.length_map, List.length_reverse]

theorem value_concat (base : Nat) (s : List UInt8) (e : UInt8) :
    value base (s ++ [e]) = (value base s).bind fun u => readDigit base u e := by
  rw [value, List.foldlM_append]
  simp only [List.foldlM_cons, List.foldlM_nil, bind_pure]
  rfl

theorem readDigit_of_lt (hc : digitValue c = some d) (hd : d < base) (v : Nat) :
    readDigit base v c = some (v * base + d) := by
  rw [readDigit, hc]
  exact if_pos hd

theorem value_append_digit (hs : value base s = some v) (hd : d < base) (h : base ≤ 36) :
    value base (s ++ [digitChar d]) = some (v * base + d) := by
  rw [value_concat, hs]
  exact readDigit_of_lt (digitValue_digitChar (Nat.lt_of_lt_of_le hd h)) hd v

theorem value_digits (hb : 1 < base) (h : base ≤ 36) (n : Nat) :
    value base (digits base n) = some n := by
  induction n using Nat.strongRecOn with
  | _ n ih =>
    rcases Nat.eq_zero_or_pos n with rfl | hn
    · rw [digits, Nat.digits_zero]
      rfl
    · have hlast := value_append_digit (ih (n / base) (Nat.div_lt_self hn hb))
        (Nat.mod_lt n (Nat.lt_trans Nat.zero_lt_one hb)) h
      rw [digits_succ hb hn, hlast, Nat.div_add_mod']

theorem value_cons (hc : digitValue c = some d) (hd : d < base) (hs : value base s = some t) :
    value base (c :: s) = some (d * base ^ s.length + t) := by
  induction s using List.reverseRecOn generalizing t with
  | nil =>
    cases hs
    simp [value, readDigit, hc, hd]
  | append_singleton s e ih =>
    rw [value_concat] at hs
    obtain ⟨u, hu, hlast⟩ := Option.bind_eq_some_iff.mp hs
    obtain ⟨x, hx, hlast⟩ := Option.bind_eq_some_iff.mp hlast
    split at hlast
    · rename_i hlt
      cases hlast
      rw [← List.cons_append, value_concat, ih hu, Option.bind_some, readDigit_of_lt hx hlt,
        List.length_append, List.length_singleton, Nat.pow_succ, Nat.add_mul, Nat.mul_assoc,
        Nat.add_assoc]
    · cases hlast

theorem exists_value {s : List UInt8} (h : ∀ c ∈ s, ∃ d, digitValue c = some d ∧ d < base) :
    ∃ v, value base s = some v := by
  induction s with
  | nil => exact ⟨0, rfl⟩
  | cons c s ih =>
    rw [List.forall_mem_cons] at h
    obtain ⟨d, hc, hd⟩ := h.1
    obtain ⟨t, ht⟩ := ih h.2
    exact ⟨_, value_cons hc hd ht⟩

theorem digits_ne_nil (hb : 1 < base) (hn : 0 < n) : digits base n ≠ [] := by
  rw [digits_succ hb hn]
  exact List.append_ne_nil_of_right_ne_nil _ (List.cons_ne_nil _ _)

theorem head_digits (hb : 1 < base) (hn : 0 < n) :
    ∃ d, 0 < d ∧ d < base ∧ (digits base n).head? = some (digitChar d) := by
  induction n using Nat.strongRecOn with
  | _ n ih =>
    rw [digits_succ hb hn]
    rcases Nat.eq_zero_or_pos (n / base) with h0 | hpos
    · have hlt : n < base := by
        rcases Nat.div_eq_zero_iff.mp h0 with h | h
        · omega
        · exact h
      refine ⟨n, hn, hlt, ?_⟩
      rw [h0, Nat.mod_eq_of_lt hlt, digits, Nat.digits_zero]
      rfl
    · obtain ⟨d, h0, hd, hhead⟩ := ih (n / base) (Nat.div_lt_self hn hb) hpos
      refine ⟨d, h0, hd, ?_⟩
      rw [List.head?_append, hhead]
      rfl

theorem numeral_ne_nil (hb : 1 < base) (n : Nat) : numeral base n ≠ [] := by
  rw [numeral]
  split
  · exact List.cons_ne_nil _ _
  · exact digits_ne_nil hb (by omega)

theorem decimal_ne_nil (n : Int) : decimal n ≠ [] :=
  List.append_ne_nil_of_right_ne_nil _ (numeral_ne_nil (by decide) _)

theorem denotes_numeral (hb : 1 < base) (h : base ≤ 36) (n : Nat) :
    Denotes base (numeral base n) n := by
  refine ⟨numeral_ne_nil hb n, ?_⟩
  rw [numeral]
  split
  · rename_i h0
    subst h0
    simp [value, readDigit, digitValue, Nat.lt_trans Nat.zero_lt_one hb]
  · exact value_digits hb h n

theorem numeral_decimal (n : Nat) : ∀ c ∈ numeral 10 n, 48 ≤ c ∧ c ≤ 57 := by
  rw [numeral]
  split
  · decide +kernel
  · intro c hc
    obtain ⟨d, hd, rfl⟩ := List.mem_map.mp hc
    exact digitChar_decimal (Nat.digits_lt_base (by decide) (List.mem_reverse.mp hd))

theorem numeral_leading (n : Nat) (h : (numeral 10 n).head? = some 48) : numeral 10 n = [48] := by
  rw [numeral] at h ⊢
  split at h
  · rename_i h0
    rw [if_pos h0]
  · rename_i h0
    have hn : 0 < n := Nat.pos_of_ne_zero h0
    obtain ⟨d, hpos, hd, hhead⟩ := head_digits (show 1 < 10 by decide) hn
    rw [hhead] at h
    exact absurd (Option.some.inj h) (digitChar_ne_zero hpos (by omega))

theorem isDecimal_decimal (n : Int) : IsDecimal (decimal n) n :=
  ⟨numeral 10 n.natAbs, rfl, numeral_decimal _, numeral_leading _,
    denotes_numeral (by decide) (by decide) _⟩

end Positional
