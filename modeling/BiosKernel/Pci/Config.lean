import Mathlib.Algebra.Group.Nat.Defs
import Mathlib.Data.Nat.Basic

namespace BiosKernel
set_option autoImplicit true

/-- The bytes of the configuration space, by bus, slot, function and offset. -/
abbrev ConfigSpace := Nat → Nat → Nat → Nat → UInt8

-- The offsets `PCI_OFFSET_…`.

def pciOffsetVendorId : Nat := 0x00

def pciOffsetDeviceId : Nat := 0x02

def pciOffsetCommand : Nat := 0x04

def pciOffsetStatus : Nat := 0x06

def pciOffsetProgIf : Nat := 0x09

def pciOffsetSubclass : Nat := 0x0A

def pciOffsetClassCode : Nat := 0x0B

def pciOffsetHeaderType : Nat := 0x0E

def pciOffsetSeconderyBusNumber : Nat := 0x19

namespace ConfigSpace

/-- What is read at `PCI_CONFIG_DATA` behind a write to `PCI_CONFIG_ADDRESS`: the four bytes of the
register that the fields of the address select. -/
def configData (space : ConfigSpace) (address : Nat) : Nat :=
  let byte := space (address / 2 ^ 16 % 2 ^ 8) (address / 2 ^ 11 % 2 ^ 5) (address / 2 ^ 8 % 2 ^ 3)
  let register := address % 2 ^ 8 / 4 * 4
  (byte register).toNat + 2 ^ 8 * (byte (register + 1)).toNat +
    2 ^ 16 * (byte (register + 2)).toNat + 2 ^ 24 * (byte (register + 3)).toNat

def pciConfigReadWord (space : ConfigSpace) (bus slot func offset : Nat) : Nat :=
  let address :=
    bus <<< 16 ||| slot <<< 11 ||| func <<< 8 ||| (offset &&& 0xFC) ||| 0x80000000
  (space.configData address >>> ((offset &&& 2) * 8)) &&& 0xFFFF

/-- The getters that keep the low byte of the word. -/
def pciConfigReadByte (space : ConfigSpace) (bus slot func offset : Nat) : Nat :=
  space.pciConfigReadWord bus slot func offset &&& 0xFF

def getVendorId (space : ConfigSpace) (bus slot func : Nat) : Nat :=
  space.pciConfigReadWord bus slot func pciOffsetVendorId

def getProductId (space : ConfigSpace) (bus slot func : Nat) : Nat :=
  space.pciConfigReadWord bus slot func pciOffsetDeviceId

def getCommand (space : ConfigSpace) (bus slot func : Nat) : Nat :=
  space.pciConfigReadWord bus slot func pciOffsetCommand

def getStatus (space : ConfigSpace) (bus slot func : Nat) : Nat :=
  space.pciConfigReadWord bus slot func pciOffsetStatus

def getProgIf (space : ConfigSpace) (bus slot func : Nat) : Nat :=
  space.pciConfigReadByte bus slot func pciOffsetProgIf

def getSubclass (space : ConfigSpace) (bus slot func : Nat) : Nat :=
  space.pciConfigReadByte bus slot func pciOffsetSubclass

def getClassCode (space : ConfigSpace) (bus slot func : Nat) : Nat :=
  space.pciConfigReadByte bus slot func pciOffsetClassCode

def getHeaderType (space : ConfigSpace) (bus slot func : Nat) : Nat :=
  space.pciConfigReadByte bus slot func pciOffsetHeaderType

def getSeconderyBus (space : ConfigSpace) (bus slot func : Nat) : Nat :=
  space.pciConfigReadByte bus slot func pciOffsetSeconderyBusNumber

end ConfigSpace

theorem shiftLeft_or_low (h : low < 2 ^ k) (n : Nat) : n <<< k ||| low = n * 2 ^ k + low := by
  rw [← Nat.shiftLeft_add_eq_or_of_lt h, Nat.shiftLeft_eq]

theorem address_eq (hbus : bus < 256) (hslot : slot < 32) (hfunc : func < 8) (hreg : reg < 256) :
    bus <<< 16 ||| slot <<< 11 ||| func <<< 8 ||| reg ||| 0x80000000 =
      2 ^ 31 + (bus * 2 ^ 16 + (slot * 2 ^ 11 + (func * 2 ^ 8 + reg))) := by
  have hlow : func <<< 8 ||| reg = func * 2 ^ 8 + reg := shiftLeft_or_low hreg func
  have hslots : slot <<< 11 ||| (func * 2 ^ 8 + reg) = slot * 2 ^ 11 + (func * 2 ^ 8 + reg) :=
    shiftLeft_or_low (by omega) slot
  have hbuses : bus <<< 16 ||| (slot * 2 ^ 11 + (func * 2 ^ 8 + reg)) =
      bus * 2 ^ 16 + (slot * 2 ^ 11 + (func * 2 ^ 8 + reg)) := shiftLeft_or_low (by omega) bus
  have htop : 0x80000000 = 1 <<< 31 := rfl
  rw [Nat.or_comm _ 0x80000000, Nat.or_assoc (bus <<< 16 ||| slot <<< 11), Nat.or_assoc, hlow,
    hslots, hbuses, htop, shiftLeft_or_low (by omega), Nat.one_mul]

theorem and_low_word (n : Nat) : n &&& 0xFFFF = n % 2 ^ 16 := Nat.and_two_pow_sub_one_eq_mod n 16

theorem and_low_byte (n : Nat) : n &&& 0xFF = n % 2 ^ 8 := Nat.and_two_pow_sub_one_eq_mod n 8

theorem offset_masks : ∀ offset < 256,
    offset &&& 0xFC = offset / 4 * 4 ∧ offset &&& 2 = offset / 2 % 2 * 2 := by
  decide +kernel

namespace ConfigSpace
section
variable {bus slot func : Nat} (space : ConfigSpace) (hbus : bus < 256) (hslot : slot < 32)
  (hfunc : func < 8)
include hbus hslot hfunc

theorem configData_eq (hregister : 4 ∣ register) (hlt : register < 256) :
    space.configData (bus <<< 16 ||| slot <<< 11 ||| func <<< 8 ||| register ||| 0x80000000) =
      (space bus slot func register).toNat + 2 ^ 8 * (space bus slot func (register + 1)).toNat +
        2 ^ 16 * (space bus slot func (register + 2)).toNat +
        2 ^ 24 * (space bus slot func (register + 3)).toNat := by
  rw [address_eq hbus hslot hfunc hlt, configData]
  have hbus' : (2 ^ 31 + (bus * 2 ^ 16 + (slot * 2 ^ 11 + (func * 2 ^ 8 + register)))) /
      2 ^ 16 % 2 ^ 8 = bus := by omega
  have hslot' : (2 ^ 31 + (bus * 2 ^ 16 + (slot * 2 ^ 11 + (func * 2 ^ 8 + register)))) /
      2 ^ 11 % 2 ^ 5 = slot := by omega
  have hfunc' : (2 ^ 31 + (bus * 2 ^ 16 + (slot * 2 ^ 11 + (func * 2 ^ 8 + register)))) /
      2 ^ 8 % 2 ^ 3 = func := by omega
  have hreg : (2 ^ 31 + (bus * 2 ^ 16 + (slot * 2 ^ 11 + (func * 2 ^ 8 + register)))) %
      2 ^ 8 / 4 * 4 = register := by omega
  rw [hbus', hslot', hfunc', hreg]

/-- A word is read at the even offset below. -/
theorem pciConfigReadWord_eq (hoffset : offset < 256) :
    space.pciConfigReadWord bus slot func offset =
      (space bus slot func (offset / 2 * 2)).toNat +
        2 ^ 8 * (space bus slot func (offset / 2 * 2 + 1)).toNat := by
  obtain ⟨hregister, hshift⟩ := offset_masks offset hoffset
  have hdata := space.configData_eq hbus hslot hfunc (Nat.dvd_mul_left 4 (offset / 4)) (by omega)
  simp only [pciConfigReadWord]
  rw [hregister, hshift, hdata, and_low_word, Nat.shiftRight_eq_div_pow]
  have h0 := (space bus slot func (offset / 4 * 4)).toNat_lt
  have h1 := (space bus slot func (offset / 4 * 4 + 1)).toNat_lt
  have h2 := (space bus slot func (offset / 4 * 4 + 2)).toNat_lt
  have h3 := (space bus slot func (offset / 4 * 4 + 3)).toNat_lt
  obtain hlow | hhigh := Nat.mod_two_eq_zero_or_one (offset / 2)
  · have heven : offset / 2 * 2 = offset / 4 * 4 := by omega
    rw [hlow, heven]
    omega
  · have heven : offset / 2 * 2 = offset / 4 * 4 + 2 := by omega
    have hodd : offset / 4 * 4 + 2 + 1 = offset / 4 * 4 + 3 := rfl
    rw [hhigh, heven, hodd]
    omega

/-- A byte at an odd offset is not read: the one before it is. -/
theorem pciConfigReadByte_eq (hoffset : offset < 256) :
    space.pciConfigReadByte bus slot func offset =
      (space bus slot func (offset / 2 * 2)).toNat := by
  have hlt := (space bus slot func (offset / 2 * 2)).toNat_lt
  rw [pciConfigReadByte, and_low_byte, space.pciConfigReadWord_eq hbus hslot hfunc hoffset]
  omega

theorem getProgIf_eq : space.getProgIf bus slot func = (space bus slot func 0x08).toNat :=
  space.pciConfigReadByte_eq hbus hslot hfunc (by decide)

theorem getSubclass_eq : space.getSubclass bus slot func = (space bus slot func 0x0A).toNat :=
  space.pciConfigReadByte_eq hbus hslot hfunc (by decide)

theorem getClassCode_eq : space.getClassCode bus slot func = (space bus slot func 0x0A).toNat :=
  space.pciConfigReadByte_eq hbus hslot hfunc (by decide)

theorem getHeaderType_eq : space.getHeaderType bus slot func = (space bus slot func 0x0E).toNat :=
  space.pciConfigReadByte_eq hbus hslot hfunc (by decide)

end
end ConfigSpace

end BiosKernel
