import BiosKernel.Paging.UnmapPage

namespace BiosKernel
open MachineInt
set_option autoImplicit true

namespace Mmu

variable {s s' : Mmu}

/-- `interrupts_ready` is true and the interrupt flag is set. -/
def InterruptsOn (s : Mmu) : Prop := s.interruptsReady = true ∧ s.interruptFlag = true

def InterruptsOff (s : Mmu) : Prop := s.interruptsReady = false ∧ s.interruptFlag = false

theorem InterruptsOff.not_on (h : s.InterruptsOff) : ¬ s.InterruptsOn := by
  rintro ⟨hr, _⟩
  rw [h.1] at hr
  cases hr

theorem InterruptsOff.storeEntry (h : s.InterruptsOff) (hs : s.storeEntry va v = some s') :
    s'.InterruptsOff := by
  obtain ⟨f, _, rfl⟩ := Option.map_eq_some_iff.mp hs
  exact h

theorem InterruptsOff.clearPage (h : s.InterruptsOff) (hs : s.clearPage va = some s') :
    s'.InterruptsOff := by
  obtain ⟨f, _, rfl⟩ := Option.map_eq_some_iff.mp hs
  exact h

theorem InterruptsOff.ensureTable (h : s.InterruptsOff) (pid table index child : Nat) :
    (ensureTable s pid table index child).Ends InterruptsOff InterruptsOff := by
  have h0 : InterruptsOff { s with allocator := (allocatePage s.allocator pid).2 } := h
  rw [BiosKernel.ensureTable]
  split
  · trivial
  · split
    · exact h
    · dsimp only
      split
      · exact h
      · split
        · trivial
        · next hst =>
          split
          · trivial
          · next hcl => exact (h0.storeEntry hst).clearPage hcl

theorem InterruptsOff.ensurePath (h : s.InterruptsOff) (pid : Nat) (p : List Nat) :
    (s.ensurePath pid p).Ends InterruptsOff InterruptsOff := by
  induction p with
  | nil => exact h
  | cons i p ih => exact ih.andThen fun u hu => hu.ensureTable pid _ i _

/-- Only the last line of `map_page` switches the interrupts on again. -/
theorem mapPage_ends (s : Mmu) (pid va pa flags : Nat) :
    (mapPage s pid va pa flags).Ends InterruptsOff InterruptsOn := by
  rw [mapPage_eq]
  refine MapOutcome.Ends.andThen (InterruptsOff.ensurePath (s := s.masked) ⟨rfl, rfl⟩ pid _) ?_
  intro u _
  split
  · trivial
  · exact ⟨rfl, rfl⟩

/-- The entry that a step of `map_page` looks at is present, or `allocate_page` has a frame. -/
def Granted (s : Mmu) (pid table index : Nat) : Prop :=
  ∀ e, s.loadEntry (table + 8 * index) = some e →
    present e = true ∨ (allocatePage s.allocator pid).1 ≠ 0

/-- So it is for every table of a path, each in the state that the steps before leave. -/
def PathGranted (s : Mmu) (pid : Nat) : List Nat → Prop
  | [] => True
  | i :: p => s.PathGranted pid p ∧
      ∀ u, s.ensurePath pid p = .returned u → u.Granted pid (windowAddr p) i

def TablesGranted (s : Mmu) (pid va : Nat) : Prop := s.masked.PathGranted pid (pathOf va)

theorem ensureTable_granted (s : Mmu) (pid table index child : Nat) :
    (∀ u, ensureTable s pid table index child ≠ .outOfFrames u) ↔ s.Granted pid table index := by
  rw [ensureTable, Granted]
  cases s.loadEntry (table + 8 * index) with
  | none =>
    constructor
    · intro _ e he
      cases he
    · intro _ u hu
      cases hu
  | some e =>
    dsimp only
    by_cases he : present e = true
    · rw [if_pos he]
      constructor
      · intro _ e' he'
        exact .inl (Option.some.inj he' ▸ he)
      · intro _ u hu
        cases hu
    · rw [if_neg he]
      by_cases hp : (allocatePage s.allocator pid).1 = 0
      · rw [if_pos hp]
        exact ⟨fun h => absurd rfl (h _), fun h => absurd hp ((h e rfl).resolve_left he)⟩
      · rw [if_neg hp]
        refine ⟨fun _ _ _ => .inr hp, fun _ u hu => ?_⟩
        split at hu
        · cases hu
        · split at hu <;> cases hu

theorem ensurePath_granted (s : Mmu) (pid : Nat) (p : List Nat) :
    (∀ u, s.ensurePath pid p ≠ .outOfFrames u) ↔ s.PathGranted pid p := by
  induction p with
  | nil =>
    refine ⟨fun _ => trivial, fun _ u hu => ?_⟩
    cases hu
  | cons i p ih =>
    rw [PathGranted, ← ih, ensurePath]
    cases hp : s.ensurePath pid p with
    | pageFault =>
      constructor
      · intro _
        constructor
        · intro u hu
          cases hu
        · intro u hu
          cases hu
      · intro _ u hu
        cases hu
    | outOfFrames u => exact ⟨fun h => absurd rfl (h u), fun h => absurd rfl (h.1 u)⟩
    | returned u =>
      rw [MapOutcome.andThen, ensureTable_granted]
      constructor
      · intro h
        constructor
        · intro v hv
          cases hv
        · rintro _ ⟨⟩
          exact h
      · intro h
        exact h.2 u rfl

theorem mapPage_granted (s : Mmu) (pid va pa flags : Nat) :
    (∀ u, mapPage s pid va pa flags ≠ .outOfFrames u) ↔ s.TablesGranted pid va := by
  rw [mapPage_eq, TablesGranted, ← ensurePath_granted, masked]
  cases ensurePath { s with interruptsReady := false, interruptFlag := false } pid (pathOf va) with
  | pageFault => exact Iff.rfl
  | outOfFrames u => exact Iff.rfl
  | returned u =>
    constructor
    · intro _ v hv
      cases hv
    · intro _ v hv
      rw [MapOutcome.andThen] at hv
      split at hv <;> cases hv

theorem mapPage_on (h : (mapPage s pid va pa flags).state = some s') :
    s'.InterruptsOn ↔ s.TablesGranted pid va := by
  have hends := s.mapPage_ends pid va pa flags
  rw [← mapPage_granted s pid va pa flags]
  cases ho : mapPage s pid va pa flags with
  | pageFault =>
    rw [ho] at h
    cases h
  | outOfFrames u =>
    rw [ho] at h hends
    cases h
    exact ⟨fun hon => absurd hon hends.not_on, fun hg => absurd rfl (hg s')⟩
  | returned u =>
    rw [ho] at h hends
    cases h
    refine ⟨fun _ u hu => ?_, fun _ => hends⟩
    cases hu

/-- The four entries of a page, as `unmap_page` reads them, are present. -/
def EntriesPresent (s : Mmu) (va : Nat) : Prop :=
  s.hasPath (tableIndex va 12 :: pathOf va) = true

theorem unmapPage_on (h : unmapPage s va = some s') : s'.InterruptsOn ↔ s.EntriesPresent va := by
  have hmasked : s.masked.hasPath (tableIndex va 12 :: pathOf va) =
    s.hasPath (tableIndex va 12 :: pathOf va) := rfl
  rw [unmapPage_eq] at h
  rw [EntriesPresent, ← hmasked]
  cases hx : s.masked.hasPath (tableIndex va 12 :: pathOf va) with
  | false =>
    have he := checkPath_missing hx h
    have hoff : s'.InterruptsOff := by
      rw [he]
      exact ⟨rfl, rfl⟩
    simpa using hoff.not_on
  | true =>
    rw [checkPath_present hx] at h
    obtain ⟨u, _, rfl⟩ := Option.map_eq_some_iff.mp h
    exact ⟨fun _ => rfl, fun _ => ⟨rfl, rfl⟩⟩

end Mmu

/-- One turn of the loop of `map_memory_range_with_flags`. -/
def mapStep (pid flags : Nat) (setInAllocator : Bool) (s : Mmu) (p : Nat × Nat) : Option Mmu :=
  (mapPage s pid p.1 p.2 flags).state.map fun s =>
    if setInAllocator then { s with allocator := s.allocator.mark (p.1 / pageSize) pid } else s

/-- The virtual and physical addresses that the loop goes through. -/
def mapSteps : Nat → Nat → Nat → List (Nat × Nat)
  | 0, _, _ => []
  | k + 1, addr, physicalAddr =>
    (addr, physicalAddr) :: mapSteps k (addr + pageSize) (u64 (physicalAddr + pageSize))

def unmapStep (setInAllocator : Bool) (s : Mmu) (addr : Nat) : Option Mmu :=
  (unmapPage s addr).map fun s =>
    if setInAllocator then { s with allocator := s.allocator.mark (addr / pageSize) 0 } else s

def unmapSteps : Nat → Nat → List Nat
  | 0, _ => []
  | k + 1, addr => addr :: unmapSteps k (addr + pageSize)

theorem mapPages_eq_run (pid flags : Nat) (b : Bool) (k : Nat) (s : Mmu) (addr pa : Nat) :
    mapPages pid flags b k s addr pa = Runs.run (mapStep pid flags b) s (mapSteps k addr pa) := by
  induction k generalizing s addr pa with
  | zero => rfl
  | succ k ih =>
    simp only [mapPages, mapSteps, Runs.run, mapStep, Option.bind_map, Function.comp_def, ih]

theorem unmapPages_eq_run (b : Bool) (k : Nat) (s : Mmu) (addr : Nat) :
    unmapPages b k s addr = Runs.run (unmapStep b) s (unmapSteps k addr) := by
  induction k generalizing s addr with
  | zero => rfl
  | succ k ih =>
    simp only [unmapPages, unmapSteps, Runs.run, unmapStep, Option.bind_map, Function.comp_def, ih]

theorem mapStep_on (h : mapStep pid flags b s p = some s') :
    s'.InterruptsOn ↔ s.TablesGranted pid p.1 := by
  obtain ⟨u, hu, rfl⟩ := Option.map_eq_some_iff.mp h
  rw [← Mmu.mapPage_on hu]
  cases b <;> rfl

theorem unmapStep_on (h : unmapStep b s addr = some s') :
    s'.InterruptsOn ↔ s.EntriesPresent addr := by
  obtain ⟨u, hu, rfl⟩ := Option.map_eq_some_iff.mp h
  rw [← Mmu.unmapPage_on hu]
  cases b <;> rfl

inductive PagingCall where
  | mapPage (pid virtualAddress physicalAddress flags : Nat)
  | unmapPage (virtualAddress : Nat)
  | mapMemoryRange (pid startAddr endAddr physicalAddr flags : Nat) (setInAllocator : Bool)
  | unmapMemoryRange (startAddr endAddr : Nat) (setInAllocator : Bool)

namespace PagingCall

def exec (s : Mmu) : PagingCall → Option Mmu
  | .mapPage pid va pa flags => (BiosKernel.mapPage s pid va pa flags).state
  | .unmapPage va => BiosKernel.unmapPage s va
  | .mapMemoryRange pid startAddr endAddr pa flags b =>
    mapMemoryRangeWithFlags s pid startAddr endAddr pa flags b
  | .unmapMemoryRange startAddr endAddr b => BiosKernel.unmapMemoryRange s startAddr endAddr b

/-- `map_page` gets the frames it needs, and `unmap_page` finds its page mapped. In a range, the
last page decides. -/
def Completes (s : Mmu) : PagingCall → Prop
  | .mapPage pid va _ _ => s.TablesGranted pid va
  | .unmapPage va => s.EntriesPresent va
  | .mapMemoryRange pid startAddr endAddr pa flags b =>
    Runs.LastMeets (mapStep pid flags b) (fun s p => s.TablesGranted pid p.1)
      Mmu.InterruptsOn s (mapSteps (rangePages startAddr endAddr).length
        (aalignDown startAddr pageSize) (aalignDown pa pageSize))
  | .unmapMemoryRange startAddr endAddr b =>
    Runs.LastMeets (unmapStep b) Mmu.EntriesPresent Mmu.InterruptsOn s
      (unmapSteps (rangePages startAddr endAddr).length (aalignDown startAddr pageSize))

end PagingCall

/-- A paging function returns with interrupts on exactly if it does not leave through one of its
early exits. -/
theorem PagingCall.interruptsOn_iff {c : PagingCall} (h : c.exec s = some s') :
    s'.InterruptsOn ↔ c.Completes s := by
  cases c with
  | mapPage pid va pa flags => exact Mmu.mapPage_on h
  | unmapPage va => exact Mmu.unmapPage_on h
  | mapMemoryRange pid startAddr endAddr pa flags b =>
    have hrun := (mapPages_eq_run ..).symm.trans h
    rw [Completes, rangePages, pagesFrom_length]
    exact Runs.last_iff_lastMeets (fun _ _ _ => mapStep_on) hrun
  | unmapMemoryRange startAddr endAddr b =>
    have hrun := (unmapPages_eq_run ..).symm.trans h
    rw [Completes, rangePages, pagesFrom_length]
    exact Runs.last_iff_lastMeets (fun _ _ _ => unmapStep_on) hrun

theorem PagingCall.interruptsOn_mapPage : ∃ s',
    (PagingCall.mapPage 2 0x400000 0x64000 7).exec bareMmu = some s' ∧ s'.InterruptsOn := by
  obtain ⟨s', hs', _⟩ := bareMmu_wellFormed.toStructured.mapPage_walk
    (by decide) bareMmu_freshPages 0x64000 7
  have hexec : (PagingCall.mapPage 2 0x400000 0x64000 7).exec bareMmu = some s' := by
    rw [PagingCall.exec, hs', MapOutcome.state]
  refine ⟨s', hexec, (PagingCall.interruptsOn_iff hexec).mpr ?_⟩
  apply (bareMmu.mapPage_granted 2 0x400000 0x64000 7).mp
  intro u hu
  rw [hs'] at hu
  cases hu

/-- Interrupts are on before the call and off behind it, for `unmap_page` at an address that is
not mapped and for `map_page` without a free frame. -/
theorem PagingCall.early_exit_leaves_interrupts_off : bareMmu.InterruptsOn ∧
    (∃ s', (PagingCall.unmapPage 0x400000).exec bareMmu = some s' ∧ ¬ s'.InterruptsOn) ∧
    ∃ s', (PagingCall.mapPage 2 0x400000 0x64000 7).exec
      { bareMmu with allocator := { bitmap := fun _ => 1, numPages := 16, handedOut := [] } } =
        some s' ∧ ¬ s'.InterruptsOn := by
  have hoff {c : PagingCall} {s : Mmu}
      (h : (c.exec s).map (fun s' => (s'.interruptsReady, s'.interruptFlag)) =
        some (false, false)) :
      ∃ s', c.exec s = some s' ∧ ¬ s'.InterruptsOn := by
    obtain ⟨s', hs', hf⟩ := Option.map_eq_some_iff.mp h
    obtain ⟨hr, hi⟩ := Prod.mk.inj hf
    exact ⟨s', hs', Mmu.InterruptsOff.not_on ⟨hr, hi⟩⟩
  exact ⟨⟨rfl, rfl⟩, hoff (by decide +kernel), hoff (by decide +kernel)⟩

end BiosKernel
