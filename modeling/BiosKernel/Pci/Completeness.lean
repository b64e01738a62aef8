import BiosKernel.Pci.Enumeration

namespace BiosKernel
set_option autoImplicit true

namespace ConfigSpace

/-- A bus is reached from bus 0 over bridges. -/
inductive Reachable (space : ConfigSpace) : Nat → Prop
  | root : space.Reachable 0
  | behind : space.Reachable bus → space.Present bus slot func → space.Bridge bus slot func →
      space.Reachable (space bus slot func 0x19).toNat

/-- The bridges form a tree with bus 0 at its root. -/
structure BridgeTree (space : ConfigSpace) : Prop where
  nonzero : ∀ bus slot func, space.Reachable bus → space.Present bus slot func →
    space.Bridge bus slot func → space bus slot func 0x19 ≠ 0
  distinct : ∀ bus slot func bus' slot' func', space.Reachable bus → space.Reachable bus' →
    space.Present bus slot func → space.Present bus' slot' func' → space.Bridge bus slot func →
    space.Bridge bus' slot' func' → space bus slot func 0x19 = space bus' slot' func' 0x19 →
    (bus, slot, func) = (bus', slot', func')

/-- The list has one entry for each function that is present on a bus that is reached and that is no
bridge, and no other entry, and the entries tell what the functions are. -/
structure Lists (space : ConfigSpace) (devices : List PCIDevice) : Prop where
  nodup : (devices.map PCIDevice.location).Nodup
  mem_iff : ∀ bus slot func, (bus, slot, func) ∈ devices.map PCIDevice.location ↔
    space.Reachable bus ∧ space.Present bus slot func ∧ ¬space.Bridge bus slot func
  fields : ∀ d ∈ devices, d.classCode = (space d.bus d.slot d.function 0x0B).toNat ∧
    d.subclass = (space d.bus d.slot d.function 0x0A).toNat ∧
    d.progIf = (space d.bus d.slot d.function 0x09).toNat

/-- `enumerate_pci` ends with such a list. -/
def Enumerates (space : ConfigSpace) : Prop :=
  ∃ n devices, (∀ fuel ≥ n, space.enumeratePci fuel = some devices) ∧ space.Lists devices

/-- The bytes that are read for the class and the interface of a function are as good as the right
ones. -/
def ReadsRight (space : ConfigSpace) (bus slot func : Nat) : Prop :=
  space bus slot func 0x0B = space bus slot func 0x0A ∧
    space bus slot func 0x09 = space bus slot func 0x08

/-- What the list is right for. Where the host controller has more than one function, nothing is
listed if the first is there, and otherwise the buses up to the first function that is there are
scanned; where it has one, bus 0 is. -/
def Listable (space : ConfigSpace) : Prop :=
  if space.MultiFunction 0 0 ∧ space.HasVendor 0 0 0 then
    ∀ bus slot func, space.Reachable bus → space.Present bus slot func →
      space.Bridge bus slot func
  else
    (∀ slot func, space.Present 0 slot func → space.ReadsRight 0 slot func) ∧
      (space.MultiFunction 0 0 → ∀ bus < 8, bus ≠ 0 → (∀ f ≤ bus, ¬space.HasVendor 0 0 f) →
        ∀ slot func, ¬space.Present bus slot func)

theorem ReadsRight.not_bridge {space : ConfigSpace} (h : space.ReadsRight bus slot func) :
    ¬space.Bridge bus slot func := by
  rintro ⟨hclass, hsubclass⟩
  rw [h.1, hsubclass] at hclass
  exact absurd hclass (by decide)

theorem mem_slotFunctions (space : ConfigSpace) : l ∈ space.slotFunctions bus slot ↔
    ∃ func, space.Present bus slot func ∧ l = (bus, slot, func) := by
  rw [slotFunctions, List.mem_map]
  constructor
  · rintro ⟨func, hfunc, rfl⟩
    exact ⟨func, of_decide_eq_true (List.mem_filter.mp hfunc).2, rfl⟩
  · rintro ⟨func, hp, rfl⟩
    exact ⟨func, List.mem_filter.mpr ⟨List.mem_range.mpr hp.2.1, decide_eq_true hp⟩, rfl⟩

theorem mem_busFunctions (space : ConfigSpace) : l ∈ space.busFunctions bus ↔
    ∃ slot func, space.Present bus slot func ∧ l = (bus, slot, func) := by
  rw [busFunctions, List.mem_flatMap]
  constructor
  · rintro ⟨slot, -, hmem⟩
    exact ⟨slot, space.mem_slotFunctions.mp hmem⟩
  · rintro ⟨slot, func, hp, rfl⟩
    exact ⟨slot, List.mem_range.mpr hp.1, space.mem_slotFunctions.mpr ⟨func, hp, rfl⟩⟩

theorem nodup_slotFunctions (space : ConfigSpace) (bus slot : Nat) :
    (space.slotFunctions bus slot).Nodup := by
  refine (List.nodup_range.filter _).map fun f f' h => ?_
  exact (Prod.mk.inj (Prod.mk.inj h).2).2

theorem nodup_busFunctions (space : ConfigSpace) (bus : Nat) : (space.busFunctions bus).Nodup := by
  rw [busFunctions, List.nodup_flatMap]
  refine ⟨fun slot _ => space.nodup_slotFunctions bus slot, List.nodup_range.imp ?_⟩
  intro slot slot' hne l hl hl'
  obtain ⟨func, -, rfl⟩ := space.mem_slotFunctions.mp hl
  obtain ⟨func', -, heq⟩ := space.mem_slotFunctions.mp hl'
  exact hne (Prod.mk.inj (Prod.mk.inj heq).2).1

theorem mem_listed (space : ConfigSpace) :
    (bus, slot, func) ∈ space.scannedBuses.flatMap space.busFunctions ↔
      bus ∈ space.scannedBuses ∧ space.Present bus slot func := by
  rw [List.mem_flatMap]
  constructor
  · rintro ⟨b, hb, hmem⟩
    obtain ⟨s, f, hp, heq⟩ := space.mem_busFunctions.mp hmem
    cases heq
    exact ⟨hb, hp⟩
  · rintro ⟨hb, hp⟩
    exact ⟨bus, hb, space.mem_busFunctions.mpr ⟨slot, func, hp, rfl⟩⟩

end ConfigSpace

theorem mem_takeWhile_range' (p : Nat → Bool) (start n : Nat) :
    b ∈ (List.range' start n).takeWhile p ↔
      (start ≤ b ∧ b < start + n) ∧ ∀ f, start ≤ f → f ≤ b → p f = true := by
  induction n generalizing start with
  | zero =>
    rw [List.range'_zero, List.takeWhile_nil]
    exact iff_of_false List.not_mem_nil fun h => by omega
  | succ n ih =>
    rw [List.range'_succ]
    by_cases hp : p start = true
    · rw [List.takeWhile_cons_of_pos hp, List.mem_cons, ih]
      constructor
      · rintro (rfl | ⟨hb, hall⟩)
        · refine ⟨by omega, fun f hf hf' => ?_⟩
          obtain rfl : f = b := by omega
          exact hp
        · refine ⟨by omega, fun f hf hf' => ?_⟩
          obtain rfl | hne := Nat.eq_or_lt_of_le hf
          · exact hp
          · exact hall f hne hf'
      · rintro ⟨hb, hall⟩
        obtain rfl | hne := Nat.eq_or_lt_of_le hb.1
        · exact .inl rfl
        · exact .inr ⟨by omega, fun f hf hf' => hall f (by omega) hf'⟩
    · rw [List.takeWhile_cons_of_neg hp]
      exact iff_of_false List.not_mem_nil fun h => hp (h.2 start (Nat.le_refl _) h.1.1)

namespace ConfigSpace

theorem mem_scannedBuses (space : ConfigSpace) : b ∈ space.scannedBuses ↔
    if space.MultiFunction 0 0 then b < 8 ∧ ∀ f ≤ b, ¬space.HasVendor 0 0 f else b = 0 := by
  rw [scannedBuses]
  by_cases h : space.MultiFunction 0 0
  · rw [if_pos h, if_pos h, List.range_eq_range', mem_takeWhile_range']
    refine and_congr (by omega) ?_
    exact ⟨fun hall f hf => of_decide_eq_true (hall f (Nat.zero_le f) hf),
      fun hall f _ hf => decide_eq_true (hall f hf)⟩
  · rw [if_neg h, if_neg h, List.mem_singleton]

theorem scannedBuses_lt (space : ConfigSpace) (h : b ∈ space.scannedBuses) : b < 256 := by
  rw [mem_scannedBuses] at h
  split at h <;> omega

theorem nodup_scannedBuses (space : ConfigSpace) : space.scannedBuses.Nodup := by
  rw [scannedBuses]
  split
  · exact List.nodup_range.sublist (List.takeWhile_sublist _)
  · exact List.nodup_singleton 0

theorem nodup_listed (space : ConfigSpace) :
    (space.scannedBuses.flatMap space.busFunctions).Nodup := by
  rw [List.nodup_flatMap]
  refine ⟨fun bus _ => space.nodup_busFunctions bus, space.nodup_scannedBuses.imp ?_⟩
  intro bus bus' hne l hl hl'
  obtain ⟨slot, func, -, rfl⟩ := space.mem_busFunctions.mp hl
  obtain ⟨slot', func', -, heq⟩ := space.mem_busFunctions.mp hl'
  exact hne (Prod.mk.inj heq).1

theorem deviceOf_fields_iff (space : ConfigSpace) (hbus : bus < 256)
    (hp : space.Present bus slot func) :
    ((space.deviceAt bus slot func).classCode = (space bus slot func 0x0B).toNat ∧
      (space.deviceAt bus slot func).subclass = (space bus slot func 0x0A).toNat ∧
      (space.deviceAt bus slot func).progIf = (space bus slot func 0x09).toNat) ↔
    space.ReadsRight bus slot func := by
  have hclass := space.getClassCode_eq hbus hp.1 hp.2.1
  have hsubclass := space.getSubclass_eq hbus hp.1 hp.2.1
  have hprogIf := space.getProgIf_eq hbus hp.1 hp.2.1
  simp only [deviceAt]
  rw [hclass, hsubclass, hprogIf, UInt8.toNat_inj, and_iff_right rfl, UInt8.toNat_inj]
  exact and_congr eq_comm eq_comm

theorem lists_iff (space : ConfigSpace) :
    space.Lists ((space.scannedBuses.flatMap space.busFunctions).map space.deviceOf).reverse ↔
      (∀ bus slot func, bus ∈ space.scannedBuses ∧ space.Present bus slot func ↔
        space.Reachable bus ∧ space.Present bus slot func ∧ ¬space.Bridge bus slot func) ∧
      ∀ bus slot func, bus ∈ space.scannedBuses → space.Present bus slot func →
        space.ReadsRight bus slot func := by
  have hlocation : (((space.scannedBuses.flatMap space.busFunctions).map
      space.deviceOf).reverse).map PCIDevice.location =
        (space.scannedBuses.flatMap space.busFunctions).reverse := by
    rw [List.map_reverse, List.map_map]
    exact congrArg List.reverse (List.map_id _)
  constructor
  · intro h
    refine ⟨fun bus slot func => ?_, fun bus slot func hb hp => ?_⟩
    · rw [← mem_listed, ← h.mem_iff, hlocation, List.mem_reverse]
    · have hmem := List.mem_map_of_mem (f := space.deviceOf) (space.mem_listed.mpr ⟨hb, hp⟩)
      exact (space.deviceOf_fields_iff (space.scannedBuses_lt hb) hp).mp
        (h.fields _ (List.mem_reverse.mpr hmem))
  · rintro ⟨hmem, hfields⟩
    refine ⟨?_, fun bus slot func => ?_, fun d hd => ?_⟩
    · rw [hlocation, List.nodup_reverse]
      exact space.nodup_listed
    · rw [hlocation, List.mem_reverse, mem_listed]
      exact hmem bus slot func
    · obtain ⟨⟨bus, slot, func⟩, hl, rfl⟩ := List.mem_map.mp (List.mem_reverse.mp hd)
      obtain ⟨hb, hp⟩ := space.mem_listed.mp hl
      exact (space.deviceOf_fields_iff (space.scannedBuses_lt hb) hp).mpr
        (hfields bus slot func hb hp)

theorem enumerates_iff_lists (space : ConfigSpace) : space.Enumerates ↔
    space.Lists ((space.scannedBuses.flatMap space.busFunctions).map space.deviceOf).reverse := by
  constructor
  · rintro ⟨n, devices, hrun, hlists⟩
    have hn := hrun (n + 1) (Nat.le_succ n)
    rw [enumeratePci_eq] at hn
    rw [Option.some.inj hn]
    exact hlists
  · intro h
    refine ⟨1, _, fun fuel hfuel => ?_, h⟩
    obtain ⟨k, rfl⟩ : ∃ k, fuel = k + 1 := ⟨fuel - 1, by omega⟩
    exact space.enumeratePci_eq k

theorem Reachable.eq_zero {space : ConfigSpace} (h : space.Reachable bus)
    (hright : ∀ slot func, space.Present 0 slot func → space.ReadsRight 0 slot func) : bus = 0 := by
  induction h with
  | root => rfl
  | behind _ hp hbridge ih =>
    subst ih
    exact absurd hbridge (hright _ _ hp).not_bridge

theorem lists_iff_of_mem (space : ConfigSpace) (h0 : 0 ∈ space.scannedBuses) :
    space.Lists ((space.scannedBuses.flatMap space.busFunctions).map space.deviceOf).reverse ↔
      (∀ slot func, space.Present 0 slot func → space.ReadsRight 0 slot func) ∧
        ∀ bus ∈ space.scannedBuses, bus ≠ 0 → ∀ slot func, ¬space.Present bus slot func := by
  rw [lists_iff]
  constructor
  · rintro ⟨hmem, hfields⟩
    have hright : ∀ slot func, space.Present 0 slot func → space.ReadsRight 0 slot func :=
      fun slot func hp => hfields 0 slot func h0 hp
    refine ⟨hright, fun bus hb hne slot func hp => hne ?_⟩
    exact ((hmem bus slot func).mp ⟨hb, hp⟩).1.eq_zero hright
  · rintro ⟨hright, hempty⟩
    have hzero : ∀ bus slot func, bus ∈ space.scannedBuses → space.Present bus slot func →
        bus = 0 := by
      intro bus slot func hb hp
      by_contra hne
      exact hempty bus hb hne slot func hp
    refine ⟨fun bus slot func => ⟨?_, ?_⟩, fun bus slot func hb hp => ?_⟩
    · rintro ⟨hb, hp⟩
      obtain rfl := hzero bus slot func hb hp
      exact ⟨.root, hp, (hright slot func hp).not_bridge⟩
    · rintro ⟨hreach, hp, -⟩
      obtain rfl := hreach.eq_zero hright
      exact ⟨h0, hp⟩
    · obtain rfl := hzero bus slot func hb hp
      exact hright slot func hp

/-- The enumeration is complete, without duplicates and right exactly on these configurations. -/
theorem enumerates_iff (space : ConfigSpace) : space.Enumerates ↔ space.Listable := by
  rw [enumerates_iff_lists, Listable]
  by_cases hhost : space.MultiFunction 0 0 ∧ space.HasVendor 0 0 0
  · have hnone : ∀ bus, bus ∉ space.scannedBuses := by
      intro bus hb
      rw [mem_scannedBuses, if_pos hhost.1] at hb
      exact hb.2 0 (Nat.zero_le bus) hhost.2
    rw [if_pos hhost, lists_iff]
    constructor
    · rintro ⟨hmem, -⟩ bus slot func hreach hp
      by_contra hbridge
      exact hnone bus ((hmem bus slot func).mpr ⟨hreach, hp, hbridge⟩).1
    · intro hall
      refine ⟨fun bus slot func => ⟨fun h => absurd h.1 (hnone bus), ?_⟩,
        fun bus slot func hb => absurd hb (hnone bus)⟩
      rintro ⟨hreach, hp, hbridge⟩
      exact absurd (hall bus slot func hreach hp) hbridge
  · rw [if_neg hhost]
    by_cases hm : space.MultiFunction 0 0
    · have hscan : ∀ b, b ∈ space.scannedBuses ↔ b < 8 ∧ ∀ f ≤ b, ¬space.HasVendor 0 0 f := by
        intro b
        rw [mem_scannedBuses, if_pos hm]
      have h0 : 0 ∈ space.scannedBuses := by
        rw [hscan]
        refine ⟨by decide, fun f hf hv => hhost ⟨hm, ?_⟩⟩
        rwa [Nat.le_zero.mp hf] at hv
      rw [space.lists_iff_of_mem h0]
      refine and_congr_right fun _ => ⟨fun h _ bus hlt hne hall => ?_, fun h bus hb hne => ?_⟩
      · exact h bus ((hscan bus).mpr ⟨hlt, hall⟩) hne
      · obtain ⟨hlt, hall⟩ := (hscan bus).mp hb
        exact h hm bus hlt hne hall
    · have hscan : ∀ b, b ∈ space.scannedBuses ↔ b = 0 := by
        intro b
        rw [mem_scannedBuses, if_neg hm]
      rw [space.lists_iff_of_mem ((hscan 0).mpr rfl)]
      refine and_congr_right fun _ => ⟨fun _ h => absurd h hm, fun _ bus hb hne => ?_⟩
      exact absurd ((hscan bus).mp hb) hne

/-- A host bridge, and at slot 3 an Ethernet controller with class 2 and subclass 0. -/
def oneController : ConfigSpace := fun bus slot func offset =>
  if bus = 0 ∧ slot = 0 ∧ func = 0 then
    [0x86, 0x80, 0x37, 0x12, 0x07, 0x00, 0x00, 0x02, 0x02, 0x00, 0x00, 0x06].getD offset 0
  else if bus = 0 ∧ slot = 3 ∧ func = 0 then
    [0xEC, 0x10, 0x39, 0x81, 0x07, 0x00, 0x00, 0x02, 0x20, 0x00, 0x00, 0x02].getD offset 0
  else 0xFF

theorem oneController_not_bridge (bus slot func : Nat) :
    ¬oneController.Bridge bus slot func := by
  rintro ⟨-, hsubclass⟩
  unfold oneController at hsubclass
  split at hsubclass
  · exact absurd hsubclass (by decide)
  · split at hsubclass
    · exact absurd hsubclass (by decide)
    · exact absurd hsubclass (by decide)

/-- Both are listed with class 0. -/
theorem oneController_misread :
    oneController.BridgeTree ∧ ¬oneController.Enumerates ∧
      (oneController.enumeratePci 1).map (·.map fun d => (d.location, d.classCode)) =
        some [((0, 3, 0), 0), ((0, 0, 0), 0)] := by
  refine ⟨⟨?_, ?_⟩, ?_, by decide +kernel⟩
  · intro bus slot func _ _ hbridge
    exact absurd hbridge (oneController_not_bridge bus slot func)
  · intro bus slot func bus' slot' func' _ _ _ _ hbridge
    exact absurd hbridge (oneController_not_bridge bus slot func)
  · rw [enumerates_iff_lists, oneController.lists_iff_of_mem (by decide +kernel)]
    rintro ⟨hright, -⟩
    exact absurd (hright 3 0 (by decide)).1 (by decide)

end ConfigSpace

end BiosKernel
