import BiosKernel.Paging.Tables

namespace BiosKernel
open MachineInt
set_option autoImplicit true

/-- The state in which `map_page` returns, with or without an entry written. -/
def MapOutcome.state : MapOutcome → Option Mmu
  | .pageFault => none
  | .outOfFrames s => some s
  | .returned s => some s

def unmapPage (s : Mmu) (virtualAddress : Nat) : Option Mmu :=
  let s := { s with interruptsReady := false, interruptFlag := false }
  let pml4Index := tableIndex virtualAddress 39
  let pdptIndex := tableIndex virtualAddress 30
  let pdIndex := tableIndex virtualAddress 21
  let ptIndex := tableIndex virtualAddress 12
  let rec511 := pml4RecursiveEntryNum
  let pml4Recursive := getAddrFromTableIndexes rec511 rec511 rec511 rec511
  let pdptRecursive := getAddrFromTableIndexes rec511 rec511 rec511 pml4Index
  let pdRecursive := getAddrFromTableIndexes rec511 rec511 pml4Index pdptIndex
  let ptRecursive := getAddrFromTableIndexes rec511 pml4Index pdptIndex pdIndex
  -- An entry that is not present ends the call with interrupts off.
  (s.loadEntry (pml4Recursive + 8 * pml4Index)).bind fun e =>
  if !present e then some s else
  (s.loadEntry (pdptRecursive + 8 * pdptIndex)).bind fun e =>
  if !present e then some s else
  (s.loadEntry (pdRecursive + 8 * pdIndex)).bind fun e =>
  if !present e then some s else
  (s.loadEntry (ptRecursive + 8 * ptIndex)).bind fun e =>
  if !present e then some s else
  (s.storeEntry (ptRecursive + 8 * ptIndex) 0).map fun s =>
    { s with interruptsReady := true, interruptFlag := true }

/-- The loop of `map_memory_range_with_flags` over `k` more pages. -/
def mapPages (pid flags : Nat) (setInAllocator : Bool) : Nat → Mmu → Nat → Nat → Option Mmu
  | 0, s, _, _ => some s
  | k + 1, s, addr, physicalAddr =>
    (mapPage s pid addr physicalAddr flags).state.bind fun s =>
      let s := if setInAllocator then
        { s with allocator := s.allocator.mark (addr / pageSize) pid } else s
      mapPages pid flags setInAllocator k s (addr + pageSize) (u64 (physicalAddr + pageSize))

def mapMemoryRangeWithFlags (s : Mmu) (pid startAddr endAddr physicalAddr flags : Nat)
    (setInAllocator : Bool) : Option Mmu :=
  let start := aalignDown startAddr pageSize
  let stop := aalign endAddr pageSize
  mapPages pid flags setInAllocator ((stop - start) / pageSize) s start
    (aalignDown physicalAddr pageSize)

def mapMemoryRange (s : Mmu) (pid startAddr endAddr physicalAddr : Nat) : Option Mmu :=
  mapMemoryRangeWithFlags s pid startAddr endAddr physicalAddr pageMapFlags true

/-- The entries that the loop over `k` more pages writes, each with the number of its page. Where
`map_page` runs out of frames, no entry is written. -/
def writtenEntries (pid flags : Nat) (setInAllocator : Bool) :
    Nat → Mmu → Nat → Nat → List (Nat × Nat)
  | 0, _, _, _ => []
  | k + 1, s, addr, physicalAddr =>
    let rest (s : Mmu) :=
      let s := if setInAllocator then
        { s with allocator := s.allocator.mark (addr / pageSize) pid } else s
      writtenEntries pid flags setInAllocator k s (addr + pageSize) (u64 (physicalAddr + pageSize))
    match mapPage s pid addr physicalAddr flags with
    | .pageFault => []
    | .outOfFrames s => rest s
    | .returned s => (addr / pageSize, physicalAddr ||| flags) :: rest s

/-- The entries that `map_memory_range_with_flags` writes. -/
def rangeEntries (s : Mmu) (pid startAddr endAddr physicalAddr flags : Nat)
    (setInAllocator : Bool) : List (Nat × Nat) :=
  let start := aalignDown startAddr pageSize
  let stop := aalign endAddr pageSize
  writtenEntries pid flags setInAllocator ((stop - start) / pageSize) s start
    (aalignDown physicalAddr pageSize)

def pagesFrom : Nat → Nat → List Nat
  | 0, _ => []
  | k + 1, addr => addr / pageSize :: pagesFrom k (addr + pageSize)

/-- The numbers of the pages that the loops over a range go through. -/
def rangePages (startAddr endAddr : Nat) : List Nat :=
  let start := aalignDown startAddr pageSize
  let stop := aalign endAddr pageSize
  pagesFrom ((stop - start) / pageSize) start

/-- The loop of `unmap_memory_range` over `k` more pages. -/
def unmapPages (setInAllocator : Bool) : Nat → Mmu → Nat → Option Mmu
  | 0, s, _ => some s
  | k + 1, s, addr =>
    (unmapPage s addr).bind fun s =>
      let s := if setInAllocator then
        { s with allocator := s.allocator.mark (addr / pageSize) 0 } else s
      unmapPages setInAllocator k s (addr + pageSize)

def unmapMemoryRange (s : Mmu) (startAddr endAddr : Nat) (setInAllocator : Bool) : Option Mmu :=
  let start := aalignDown startAddr pageSize
  let stop := aalign endAddr pageSize
  unmapPages setInAllocator ((stop - start) / pageSize) s start

theorem pagesFrom_length (k addr : Nat) : (pagesFrom k addr).length = k := by
  induction k generalizing addr with
  | zero => rfl
  | succ k ih => rw [pagesFrom, List.length_cons, ih]

section allocator

variable {s s' : Mmu} {I : PageFrameAllocator → Prop}

def MapOutcome.Keeps (I : PageFrameAllocator → Prop) (o : MapOutcome) : Prop :=
  ∀ s, o.state = some s → I s.allocator

theorem MapOutcome.Keeps.andThen {o : MapOutcome} {f : Mmu → MapOutcome} (ho : o.Keeps I)
    (hf : ∀ s, I s.allocator → (f s).Keeps I) : (o.andThen f).Keeps I := by
  cases o with
  | pageFault => intro s hs; cases hs
  | outOfFrames s => exact ho
  | returned s => exact hf s (ho s rfl)

theorem storeEntry_allocator (h : s.storeEntry va v = some s') : s'.allocator = s.allocator := by
  obtain ⟨f, _, rfl⟩ := Option.map_eq_some_iff.mp h
  rfl

theorem clearPage_allocator (h : s.clearPage va = some s') : s'.allocator = s.allocator := by
  obtain ⟨f, _, rfl⟩ := Option.map_eq_some_iff.mp h
  rfl

theorem ensureTable_keeps (hI : ∀ a, I a → I (allocatePage a pid).2) (h : I s.allocator)
    (table index child : Nat) : (ensureTable s pid table index child).Keeps I := by
  intro s' hs
  rw [ensureTable] at hs
  split at hs
  · cases hs
  · split at hs
    · cases hs
      exact h
    · dsimp only at hs
      split at hs
      · cases hs
        exact hI _ h
      · split at hs
        · cases hs
        · next hst =>
          split at hs
          · cases hs
          · next hcl =>
            cases hs
            rw [clearPage_allocator hcl, storeEntry_allocator hst]
            exact hI _ h

theorem mapPage_keeps (hI : ∀ a, I a → I (allocatePage a pid).2) (h : I s.allocator)
    (va pa flags : Nat) : (mapPage s pid va pa flags).Keeps I := by
  have ht {s : Mmu} (hs : I s.allocator) := ensureTable_keeps hI hs
  have h0 : I ({ s with interruptsReady := false, interruptFlag := false } : Mmu).allocator := h
  rw [mapPage]
  refine (ht h0 _ _ _).andThen fun s1 h1 => (ht h1 _ _ _).andThen fun s2 h2 =>
    (ht h2 _ _ _).andThen fun s3 h3 => ?_
  intro s' hs
  split at hs
  · cases hs
  · next hst =>
    cases hs
    exact storeEntry_allocator hst ▸ h3

theorem mapPages_keeps (hI : ∀ a, I a → I (allocatePage a pid).2)
    (hm : ∀ a i, I a → I (a.mark i pid)) (h : I s.allocator)
    (hs : mapPages pid flags b k s addr pa = some s') : I s'.allocator := by
  induction k generalizing s addr pa with
  | zero =>
    cases hs
    exact h
  | succ k ih =>
    obtain ⟨s1, h1, hs⟩ := Option.bind_eq_some_iff.mp hs
    have h1 := mapPage_keeps hI h addr pa flags s1 h1
    refine ih ?_ hs
    cases b with
    | false => exact h1
    | true => exact hm _ _ h1

theorem mapMemoryRange_keeps (hI : ∀ a, I a → I (allocatePage a pid).2)
    (hm : ∀ a i, I a → I (a.mark i pid)) (h : I s.allocator)
    (hs : mapMemoryRange s pid startAddr endAddr pa = some s') : I s'.allocator :=
  mapPages_keeps hI hm h hs

theorem entry_cases {x : Option Nat} {f : Nat → Option Mmu}
    (h : (x.bind fun e => if !present e then some s else f e) = some s') :
    s' = s ∨ ∃ e, f e = some s' := by
  obtain ⟨e, _, h⟩ := Option.bind_eq_some_iff.mp h
  split at h
  · cases h
    exact .inl rfl
  · exact .inr ⟨e, h⟩

theorem unmapPage_allocator (h : unmapPage s va = some s') : s'.allocator = s.allocator := by
  rw [unmapPage] at h
  rcases entry_cases h with rfl | ⟨_, h⟩
  · rfl
  rcases entry_cases h with rfl | ⟨_, h⟩
  · rfl
  rcases entry_cases h with rfl | ⟨_, h⟩
  · rfl
  rcases entry_cases h with rfl | ⟨_, h⟩
  · rfl
  obtain ⟨s1, h1, rfl⟩ := Option.map_eq_some_iff.mp h
  have ha := storeEntry_allocator h1
  exact ha

theorem unmapPages_allocator (h : unmapPages false k s addr = some s') :
    s'.allocator = s.allocator := by
  induction k generalizing s addr with
  | zero =>
    cases h
    rfl
  | succ k ih =>
    obtain ⟨s1, h1, h⟩ := Option.bind_eq_some_iff.mp h
    exact (ih h).trans (unmapPage_allocator h1)

theorem unmapMemoryRange_allocator (h : unmapMemoryRange s startAddr endAddr false = some s') :
    s'.allocator = s.allocator := unmapPages_allocator h

end allocator

end BiosKernel
