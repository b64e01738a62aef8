import BiosKernel.Pci.Config
import Mathlib.Data.List.Nodup

namespace BiosKernel
set_option autoImplicit true

structure PCIDevice where
  (bus slot function : Nat)
  (vendorId deviceId command status : Nat)
  (classCode subclass progIf : Nat)

def PCIDevice.location (d : PCIDevice) : Nat × Nat × Nat := (d.bus, d.slot, d.function)

namespace ConfigSpace

/-- The record that `check_function` fills in. -/
def deviceAt (space : ConfigSpace) (bus slot function : Nat) : PCIDevice where
  bus := bus
  slot := slot
  function := function
  vendorId := space.getVendorId bus slot function
  deviceId := space.getProductId bus slot function
  command := space.getCommand bus slot function
  status := space.getStatus bus slot function
  classCode := space.getClassCode bus slot function
  subclass := space.getSubclass bus slot function
  progIf := space.getProgIf bus slot function

/-- `list_pci_devices` behind `check_function`, with `check_bus` for the bus behind a bridge.
`hardware_append_node` puts the new node at the head. -/
def checkFunction (space : ConfigSpace)
    (checkBus : Nat → List PCIDevice → Option (List PCIDevice)) (bus slot function : Nat)
    (devices : List PCIDevice) : Option (List PCIDevice) :=
  let baseClass := space.getClassCode bus slot function
  let subClass := space.getSubclass bus slot function
  if baseClass = 0x6 ∧ subClass = 0x4 then
    checkBus (space.getSeconderyBus bus slot function) devices
  else some (space.deviceAt bus slot function :: devices)

def checkDevice (space : ConfigSpace)
    (checkBus : Nat → List PCIDevice → Option (List PCIDevice)) (bus device : Nat)
    (devices : List PCIDevice) : Option (List PCIDevice) :=
  if space.getVendorId bus device 0 = 0xFFFF then some devices
  else do
    let devices ← space.checkFunction checkBus bus device 0 devices
    if space.getHeaderType bus device 0 &&& 0x80 ≠ 0 then
      (List.range' 1 7).foldlM (fun devices function =>
        if space.getVendorId bus device function ≠ 0xFFFF then
          space.checkFunction checkBus bus device function devices
        else some devices) devices
    else some devices

/-- No result stands for buses that lie deeper than the calls that are given. -/
def checkBus (space : ConfigSpace) : Nat → Nat → List PCIDevice → Option (List PCIDevice)
  | 0, _, _ => none
  | fuel + 1, bus, devices =>
    (List.range 32).foldlM (fun devices device =>
      space.checkDevice (space.checkBus fuel) bus device devices) devices

/-- The loop over the functions of the host controller, which ends at the first that is there. -/
def hostLoop (space : ConfigSpace) (fuel : Nat) :
    List Nat → List PCIDevice → Option (List PCIDevice)
  | [], devices => some devices
  | function :: functions, devices =>
    if space.getVendorId 0 0 function ≠ 0xFFFF then some devices
    else do
      let devices ← space.checkBus fuel function devices
      space.hostLoop fuel functions devices

def enumeratePci (space : ConfigSpace) (fuel : Nat) : Option (List PCIDevice) :=
  if space.getHeaderType 0 0 0 &&& 0x80 = 0 then space.checkBus fuel 0 []
  else space.hostLoop fuel (List.range 8) []

/-- The function answers with a vendor. -/
def HasVendor (space : ConfigSpace) (bus slot func : Nat) : Prop :=
  ¬(space bus slot func 0 = 0xFF ∧ space bus slot func 1 = 0xFF)

/-- Bit 7 of the header type says that a device has more than one function. -/
def MultiFunction (space : ConfigSpace) (bus slot : Nat) : Prop := 0x80 ≤ space bus slot 0 0x0E

/-- A function is present if it answers, and one behind the first only if the first says that there
are more. -/
def Present (space : ConfigSpace) (bus slot func : Nat) : Prop :=
  slot < 32 ∧ func < 8 ∧ space.HasVendor bus slot 0 ∧
    (func = 0 ∨ space.MultiFunction bus slot ∧ space.HasVendor bus slot func)

/-- A bridge to another bus, by its class and subclass. -/
def Bridge (space : ConfigSpace) (bus slot func : Nat) : Prop :=
  space bus slot func 0x0B = 0x06 ∧ space bus slot func 0x0A = 0x04

instance (space : ConfigSpace) (bus slot func : Nat) : Decidable (space.HasVendor bus slot func) :=
  inferInstanceAs (Decidable (¬_))

instance (space : ConfigSpace) (bus slot : Nat) : Decidable (space.MultiFunction bus slot) :=
  inferInstanceAs (Decidable (_ ≤ _))

instance (space : ConfigSpace) (bus slot func : Nat) : Decidable (space.Present bus slot func) :=
  inferInstanceAs (Decidable (_ ∧ _))

instance (space : ConfigSpace) (bus slot func : Nat) : Decidable (space.Bridge bus slot func) :=
  inferInstanceAs (Decidable (_ ∧ _))

/-- The functions of a device and of a bus in the order in which they are met. -/
def slotFunctions (space : ConfigSpace) (bus slot : Nat) : List (Nat × Nat × Nat) :=
  ((List.range 8).filter fun func => space.Present bus slot func).map fun func => (bus, slot, func)

def busFunctions (space : ConfigSpace) (bus : Nat) : List (Nat × Nat × Nat) :=
  (List.range 32).flatMap (space.slotFunctions bus)

/-- The buses on which `enumerate_pci` calls `check_bus`. -/
def scannedBuses (space : ConfigSpace) : List Nat :=
  if space.MultiFunction 0 0 then (List.range 8).takeWhile fun f => ¬space.HasVendor 0 0 f else [0]

/-- The record of the function at a location. -/
def deviceOf (space : ConfigSpace) (l : Nat × Nat × Nat) : PCIDevice :=
  space.deviceAt l.1 l.2.1 l.2.2

section
variable {bus slot func : Nat} (space : ConfigSpace) (hbus : bus < 256) (hslot : slot < 32)
  (hfunc : func < 8)
include hbus hslot hfunc

theorem getVendorId_eq_iff :
    space.getVendorId bus slot func = 0xFFFF ↔ ¬space.HasVendor bus slot func := by
  have h0 := (space bus slot func 0).toNat_lt
  have h1 := (space bus slot func 1).toNat_lt
  have hread : space.getVendorId bus slot func =
      (space bus slot func 0).toNat + 2 ^ 8 * (space bus slot func 1).toNat :=
    space.pciConfigReadWord_eq hbus hslot hfunc (by decide)
  rw [hread, HasVendor, not_not, ← UInt8.toNat_inj, ← UInt8.toNat_inj]
  change _ ↔ _ = 255 ∧ _ = 255
  omega

/-- The class code is read from the subclass, so no bridge is ever found. -/
theorem checkFunction_eq (checkBus : Nat → List PCIDevice → Option (List PCIDevice))
    (devices : List PCIDevice) :
    space.checkFunction checkBus bus slot func devices =
      some (space.deviceAt bus slot func :: devices) := by
  rw [checkFunction, space.getClassCode_eq hbus hslot hfunc, space.getSubclass_eq hbus hslot hfunc]
  exact if_neg (by omega)

end

theorem headerType_and_iff (space : ConfigSpace) (hbus : bus < 256) (hslot : slot < 32) :
    space.getHeaderType bus slot 0 &&& 0x80 ≠ 0 ↔ space.MultiFunction bus slot := by
  have hbit : ∀ n < 256, n &&& 0x80 ≠ 0 ↔ 0x80 ≤ n := by decide +kernel
  rw [space.getHeaderType_eq hbus hslot (by decide), hbit _ (UInt8.toNat_lt _), MultiFunction,
    UInt8.le_iff_toNat_le]
  rfl

end ConfigSpace

theorem foldlM_eq_append {f : List β → α → Option (List β)} {g : α → List β} {l : List α}
    (h : ∀ a ∈ l, ∀ acc, f acc a = some ((g a).reverse ++ acc)) (acc : List β) :
    l.foldlM f acc = some ((l.flatMap g).reverse ++ acc) := by
  induction l generalizing acc with
  | nil => rfl
  | cons a l ih =>
    obtain ⟨ha, hl⟩ := List.forall_mem_cons.mp h
    rw [List.foldlM_cons, ha, List.flatMap_cons, List.reverse_append, List.append_assoc]
    exact ih hl _

theorem flatMap_ite_singleton (p : α → Bool) (f : α → β) (l : List α) :
    (l.flatMap fun a => if p a then [f a] else []) = (l.filter p).map f := by
  induction l with
  | nil => rfl
  | cons a l ih =>
    rw [List.flatMap_cons, ih]
    by_cases h : p a = true
    · rw [if_pos h, List.filter_cons_of_pos h]
      rfl
    · rw [if_neg h, List.filter_cons_of_neg h]
      rfl

namespace ConfigSpace

theorem slotFunctions_eq (space : ConfigSpace) (hslot : slot < 32)
    (h : space.HasVendor bus slot 0) :
    space.slotFunctions bus slot = (bus, slot, 0) ::
      if space.MultiFunction bus slot then
        ((List.range' 1 7).filter fun func => space.HasVendor bus slot func).map fun func =>
          (bus, slot, func)
      else [] := by
  have hrange : List.range 8 = 0 :: List.range' 1 7 := rfl
  have hzero : space.Present bus slot 0 := ⟨hslot, by decide, h, .inl rfl⟩
  have hrest : ∀ func ∈ List.range' 1 7, (space.Present bus slot func ↔
      space.MultiFunction bus slot ∧ space.HasVendor bus slot func) := by
    intro func hfunc
    rw [List.mem_range'_1] at hfunc
    refine ⟨fun hp => hp.2.2.2.resolve_left (by omega), fun hp => ?_⟩
    exact ⟨hslot, by omega, h, .inr hp⟩
  rw [slotFunctions, hrange, List.filter_cons, if_pos (decide_eq_true hzero), List.map_cons]
  congr 1
  by_cases hm : space.MultiFunction bus slot
  · rw [if_pos hm]
    congr 1
    refine List.filter_congr fun func hfunc => ?_
    rw [decide_eq_decide, hrest func hfunc, and_iff_right hm]
  · rw [if_neg hm, List.map_eq_nil_iff, List.filter_eq_nil_iff]
    exact fun func hfunc hp => hm ((hrest func hfunc).mp (of_decide_eq_true hp)).1

theorem functionLoop_eq (space : ConfigSpace) (hbus : bus < 256) (hslot : slot < 32)
    (checkBus : Nat → List PCIDevice → Option (List PCIDevice)) (devices : List PCIDevice) :
    (List.range' 1 7).foldlM (fun devices function =>
        if space.getVendorId bus slot function ≠ 0xFFFF then
          space.checkFunction checkBus bus slot function devices
        else some devices) devices =
      some ((((List.range' 1 7).filter fun func => space.HasVendor bus slot func).map
        (space.deviceAt bus slot)).reverse ++ devices) := by
  rw [← flatMap_ite_singleton]
  refine foldlM_eq_append (fun func hfunc devices => ?_) devices
  have hlt : func < 8 := by
    rw [List.mem_range'_1] at hfunc
    omega
  have hvendor := space.getVendorId_eq_iff hbus hslot hlt
  by_cases hv : space.HasVendor bus slot func
  · rw [if_pos (mt hvendor.mp (not_not_intro hv)), if_pos (decide_eq_true hv),
      space.checkFunction_eq hbus hslot hlt]
    rfl
  · rw [if_neg (not_not_intro (hvendor.mpr hv)), if_neg (by simp [hv])]
    rfl

theorem checkDevice_eq (space : ConfigSpace) (hbus : bus < 256) (hslot : slot < 32)
    (checkBus : Nat → List PCIDevice → Option (List PCIDevice)) (devices : List PCIDevice) :
    space.checkDevice checkBus bus slot devices =
      some (((space.slotFunctions bus slot).map space.deviceOf).reverse ++ devices) := by
  have hvendor := space.getVendorId_eq_iff hbus hslot (Nat.zero_lt_succ 7)
  have hmulti := space.headerType_and_iff hbus hslot
  rw [checkDevice]
  by_cases h0 : space.HasVendor bus slot 0
  · rw [if_neg (by rw [hvendor]; exact not_not_intro h0),
      space.checkFunction_eq hbus hslot (Nat.zero_lt_succ 7), space.slotFunctions_eq hslot h0,
      List.map_cons, List.reverse_cons, List.append_assoc]
    by_cases hm : space.MultiFunction bus slot
    · rw [if_pos hm, List.map_map]
      exact (if_pos (hmulti.mpr hm)).trans (space.functionLoop_eq hbus hslot checkBus _)
    · rw [if_neg hm]
      exact if_neg (mt hmulti.mp hm)
  · have hnone : space.slotFunctions bus slot = [] := by
      rw [slotFunctions, List.map_eq_nil_iff, List.filter_eq_nil_iff]
      exact fun func _ h => h0 (of_decide_eq_true h).2.2.1
    rw [if_pos (hvendor.mpr h0), hnone]
    rfl

theorem checkBus_eq (space : ConfigSpace) (hbus : bus < 256) (fuel : Nat)
    (devices : List PCIDevice) :
    space.checkBus (fuel + 1) bus devices =
      some (((space.busFunctions bus).map space.deviceOf).reverse ++ devices) := by
  rw [checkBus, busFunctions, List.map_flatMap]
  refine foldlM_eq_append (fun slot hslot devices => ?_) devices
  exact space.checkDevice_eq hbus (List.mem_range.mp hslot) _ devices

theorem hostLoop_eq (space : ConfigSpace) {functions : List Nat} (h : ∀ f ∈ functions, f < 8)
    (fuel : Nat) (devices : List PCIDevice) :
    space.hostLoop (fuel + 1) functions devices =
      some ((((functions.takeWhile fun f => ¬space.HasVendor 0 0 f).flatMap
        space.busFunctions).map space.deviceOf).reverse ++ devices) := by
  induction functions generalizing devices with
  | nil => rfl
  | cons f functions ih =>
    obtain ⟨hf, hrest⟩ := List.forall_mem_cons.mp h
    have hvendor : space.getVendorId 0 0 f = 0xFFFF ↔ ¬space.HasVendor 0 0 f :=
      space.getVendorId_eq_iff (by decide) (by decide) hf
    rw [hostLoop]
    by_cases hv : space.HasVendor 0 0 f
    · rw [if_pos (mt hvendor.mp (not_not_intro hv)),
        List.takeWhile_cons_of_neg (by simp [hv])]
      rfl
    · rw [if_neg (not_not_intro (hvendor.mpr hv)), space.checkBus_eq (by omega),
        List.takeWhile_cons_of_pos (by simp [hv]), List.flatMap_cons, List.map_append,
        List.reverse_append, List.append_assoc]
      exact ih hrest _

theorem enumeratePci_eq (space : ConfigSpace) (fuel : Nat) :
    space.enumeratePci (fuel + 1) =
      some ((space.scannedBuses.flatMap space.busFunctions).map space.deviceOf).reverse := by
  have hmulti : space.getHeaderType 0 0 0 &&& 0x80 ≠ 0 ↔ space.MultiFunction 0 0 :=
    space.headerType_and_iff (by decide) (by decide)
  rw [enumeratePci, scannedBuses]
  by_cases h : space.MultiFunction 0 0
  · rw [if_neg (hmulti.mpr h), if_pos h, space.hostLoop_eq (fun f hf => List.mem_range.mp hf),
      List.append_nil]
  · rw [if_pos (not_not.mp (mt hmulti.mp h)), if_neg h, space.checkBus_eq (by decide),
      List.append_nil, List.flatMap_singleton]

end ConfigSpace

end BiosKernel
