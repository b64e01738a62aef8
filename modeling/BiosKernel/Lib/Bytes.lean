import Mathlib.Algebra.Group.Nat.Defs
import Mathlib.Data.Nat.Basic

namespace ByteMem
set_option autoImplicit true

/-- Flat byte-addressed memory. An access past the top of the address space never completes on
the machine, so addresses are not reduced here. -/
abbrev Mem := Nat → UInt8

/-- The little-endian value of the `n` bytes at `a`. -/
def load (m : Mem) (a : Nat) : Nat → Nat
  | 0 => 0
  | n + 1 => (m a).toNat + 256 * load m (a + 1) n

/-- Write the low `n` bytes of `v` at `a`, little-endian. -/
def store (m : Mem) (a n v : Nat) : Mem :=
  fun x => if a ≤ x ∧ x < a + n then UInt8.ofNat (v / 256 ^ (x - a)) else m x

/-- A byte loop that writes `c` to `a`, `a + 1`, and so on. -/
def fill (m : Mem) (a : Nat) (c : UInt8) : Nat → Mem
  | 0 => m
  | n + 1 => fun x => if x = a + n then c else fill m a c n x

/-- Two byte ranges without a common address. -/
def Apart (a n b k : Nat) : Prop := a + n ≤ b ∨ b + k ≤ a

theorem load_congr (h : ∀ x, a ≤ x → x < a + n → m x = m' x) : load m a n = load m' a n := by
  induction n generalizing a with
  | zero => rfl
  | succ n ih =>
    have ht : load m (a + 1) n = load m' (a + 1) n := by
      apply ih
      intro x hx hx'
      exact h x (by omega) (by omega)
    rw [load, load, h a (by omega) (by omega), ht]

theorem load_lt (m : Mem) (a n : Nat) : load m a n < 256 ^ n := by
  induction n generalizing a with
  | zero => exact Nat.one_pos
  | succ n ih =>
    have hbyte := (m a).toNat_lt
    have hrest := ih (a + 1)
    rw [load, Nat.pow_succ]
    omega

theorem load_eq_zero (h : ∀ i < n, m (a + i) = 0) : load m a n = 0 := by
  induction n generalizing a with
  | zero => rfl
  | succ n ih =>
    have h0 : m a = 0 := h 0 (Nat.succ_pos n)
    have ht : load m (a + 1) n = 0 := by
      apply ih
      intro i hi
      have hi := h (i + 1) (Nat.succ_lt_succ hi)
      rwa [Nat.add_comm i, ← Nat.add_assoc] at hi
    rw [load, h0, ht]
    rfl

theorem load_add (m : Mem) (a n k : Nat) :
    load m a (n + k) = load m a n + 256 ^ n * load m (a + n) k := by
  induction n generalizing a with
  | zero => rw [Nat.zero_add, load, Nat.pow_zero, Nat.one_mul, Nat.zero_add, Nat.add_zero]
  | succ n ih =>
    rw [Nat.succ_add, load, load, ih, Nat.add_assoc a 1 n, Nat.add_comm 1 n, Nat.pow_succ,
      Nat.mul_add, Nat.mul_comm _ 256, Nat.mul_assoc, Nat.add_assoc]

theorem load_store_suffix (m : Mem) (a n v i k : Nat) (h : i + k = n) :
    load (store m a n v) (a + i) k = v / 256 ^ i % 256 ^ k := by
  induction k generalizing i with
  | zero => rw [load, Nat.pow_zero, Nat.mod_one]
  | succ k ih =>
    have hin : a ≤ a + i ∧ a + i < a + n := by omega
    have hb : (store m a n v (a + i)).toNat = v / 256 ^ i % 256 := by
      rw [store, if_pos hin, Nat.add_sub_cancel_left]
      exact UInt8.toNat_ofNat'
    rw [load, hb, Nat.add_assoc, ih (i + 1) (by omega), Nat.pow_succ 256 i, Nat.pow_succ 256 k,
      Nat.mul_comm (256 ^ k), Nat.mod_mul, Nat.div_div_eq_div_mul]

/-- A store is read back, reduced to its width. -/
theorem load_store_same (m : Mem) (a n v : Nat) : load (store m a n v) a n = v % 256 ^ n := by
  have h := load_store_suffix m a n v 0 n (Nat.zero_add n)
  rwa [Nat.add_zero, Nat.pow_zero, Nat.div_one] at h

theorem load_store_of_lt (m : Mem) (a n : Nat) (h : v < 256 ^ n) :
    load (store m a n v) a n = v := by
  rw [load_store_same, Nat.mod_eq_of_lt h]

theorem store_apart (m : Mem) (v : Nat) (h : x < a ∨ a + n ≤ x) : store m a n v x = m x := by
  rw [store, if_neg (by omega)]

theorem store_mod (m : Mem) (a n v : Nat) : store m a n (v % 256 ^ n) = store m a n v := by
  funext x
  rw [store, store]
  split
  · next hx =>
    have hbyte : v % 256 ^ n / 256 ^ (x - a) % 256 = v / 256 ^ (x - a) % 256 := by
      generalize hi : x - a = i
      obtain ⟨k, rfl⟩ : ∃ k, n = i + (k + 1) := ⟨n - i - 1, by omega⟩
      rw [Nat.pow_add, Nat.mod_mul_right_div_self, Nat.pow_succ, Nat.mod_mul_left_mod]
    rw [← UInt8.toNat_inj, UInt8.toNat_ofNat', UInt8.toNat_ofNat']
    exact hbyte
  · rfl

theorem load_store_apart (m : Mem) (v : Nat) (h : Apart a n b k) :
    load (store m a n v) b k = load m b k := by
  apply load_congr
  intro x hx hx'
  apply store_apart
  unfold Apart at h
  omega

theorem fill_apply (m : Mem) (a : Nat) (c : UInt8) (n x : Nat) :
    fill m a c n x = if a ≤ x ∧ x < a + n then c else m x := by
  induction n with
  | zero => rw [fill, if_neg (by omega)]
  | succ n ih =>
    change (if x = a + n then c else fill m a c n x) = _
    rw [ih]
    by_cases he : x = a + n
    · rw [if_pos he, if_pos (by omega)]
    · rw [if_neg he]
      by_cases hi : a ≤ x ∧ x < a + n
      · rw [if_pos hi, if_pos (by omega)]
      · rw [if_neg hi, if_neg (by omega)]

theorem load_fill_apart (m : Mem) (c : UInt8) (h : Apart a n b k) :
    load (fill m a c n) b k = load m b k := by
  apply load_congr
  intro x hx hx'
  unfold Apart at h
  rw [fill_apply, if_neg (by omega)]

theorem store_comm (m : Mem) (v w : Nat) (h : Apart a n b k) :
    store (store m a n v) b k w = store (store m b k w) a n v := by
  unfold Apart at h
  funext x
  by_cases ha : a ≤ x ∧ x < a + n
  · rw [store_apart _ _ (by omega), store, if_pos ha, store, if_pos ha]
  · rw [store_apart _ _ (by omega : x < a ∨ a + n ≤ x)]
    by_cases hb : b ≤ x ∧ x < b + k
    · rw [store, if_pos hb, store, if_pos hb]
    · rw [store_apart _ _ (by omega), store_apart _ _ (by omega), store_apart _ _ (by omega)]

theorem store_fill_comm (m : Mem) (c : UInt8) (w : Nat) (h : Apart a n b k) :
    store (fill m a c n) b k w = fill (store m b k w) a c n := by
  unfold Apart at h
  funext x
  rw [fill_apply]
  by_cases hb : b ≤ x ∧ x < b + k
  · rw [if_neg (by omega), store, if_pos hb, store, if_pos hb]
  · rw [store_apart _ _ (by omega), store_apart _ _ (by omega), fill_apply]

attribute [irreducible] load store fill

end ByteMem
