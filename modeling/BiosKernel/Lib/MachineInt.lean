import Mathlib.Algebra.Group.Int.Defs
import Mathlib.Algebra.Group.Nat.Defs

/-! Integers of a fixed width, as the numbers that they stand for: conversions that keep the value
modulo a power of two. -/

namespace MachineInt
set_option autoImplicit true

def u8 (n : Nat) : Nat := n % 2 ^ 8

def u16 (n : Nat) : Nat := n % 2 ^ 16

def u32 (n : Nat) : Nat := n % 2 ^ 32

def u64 (n : Nat) : Nat := n % 2 ^ 64

/-- A signed number as an unsigned one of 8 bits. -/
def toU8 (n : Int) : Nat := (n % 2 ^ 8).toNat

/-- A signed number as an unsigned one of 16 bits. -/
def toU16 (n : Int) : Nat := (n % 2 ^ 16).toNat

/-- A signed number cut to 32 bits. -/
def int32 (x : Int) : Int := (x + 2 ^ 31) % 2 ^ 32 - 2 ^ 31

/-- A byte as a signed number. -/
def signed8 (c : UInt8) : Int := if c < 128 then c.toNat else c.toNat - 256

/-- A 64-bit word as a signed number. -/
def signed64 (n : Nat) : Int := if n < 2 ^ 63 then n else n - 2 ^ 64

/-- A signed 32-bit word as the unsigned 64-bit word that it is converted to. -/
def signExtend32 (n : Nat) : Nat := if n < 2 ^ 31 then n else n + (2 ^ 64 - 2 ^ 32)

theorem u64_lt (n : Nat) : u64 n < 2 ^ 64 := Nat.mod_lt _ (by decide)

theorem u64_add_u64 (a b : Nat) : u64 (u64 a + b) = u64 (a + b) := by
  rw [u64, u64, u64]
  omega

theorem int32_eq (h : -2 ^ 31 ≤ x) (h' : x < 2 ^ 31) : int32 x = x := by
  simp only [int32]
  omega

theorem int32_lt (x : Int) : int32 x < 2 ^ 31 := by
  rw [int32]
  omega

end MachineInt
