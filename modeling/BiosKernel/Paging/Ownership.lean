import BiosKernel.Paging.MapPage
import BiosKernel.Paging.Range

namespace BiosKernel
open MachineInt
set_option autoImplicit true

theorem testBit_clear (hk : k < 64) (b i : Nat) :
    ((b &&& (2 ^ 64 - 1 - 1 <<< k)) % 256).testBit i =
      (decide (i < 8) && b.testBit i && decide (i ≠ k)) := by
  have hlt : 1 <<< k < 2 ^ 64 := by
    rw [Nat.one_shiftLeft]
    exact Nat.pow_lt_pow_right (by decide) hk
  have hmask : 2 ^ 64 - 1 - 1 <<< k = 2 ^ 64 - (1 <<< k + 1) := by omega
  rw [show (256 : Nat) = 2 ^ 8 from rfl, Nat.testBit_mod_two_pow, Nat.testBit_and, hmask,
    Nat.testBit_two_pow_sub_succ hlt, Nat.one_shiftLeft, Nat.testBit_two_pow]
  by_cases hi : i < 8
  · have hi64 : i < 64 := by omega
    simp [hi, hi64, eq_comm]
  · simp [hi]

theorem clear_eq_self (hk : k < 64) (hb : b < 256) :
    (b &&& (2 ^ 64 - 1 - 1 <<< k)) % 256 = b ↔ (k < 8 → b.testBit k = false) := by
  constructor
  · intro h hk8
    have hbit := testBit_clear hk b k
    rw [h] at hbit
    simpa using hbit
  · intro h
    apply Nat.eq_of_testBit_eq
    intro i
    rw [testBit_clear hk]
    by_cases hi : i < 8
    · by_cases hik : i = k
      · subst hik
        simp [h hi]
      · simp [hi, hik]
    · have hpow : 2 ^ 8 ≤ 2 ^ i := Nat.pow_le_pow_right (by decide) (by omega)
      simp [Nat.testBit_lt_two_pow (Nat.lt_of_lt_of_le hb hpow)]

theorem clear_zero_eq_zero (hb : b < 256) :
    (b &&& (2 ^ 64 - 1 - 1 <<< 0)) % 256 = 0 ↔ b ≤ 1 := by
  revert b
  decide +kernel

theorem update_of_eq {f : Nat → Nat} (h : f i = v) : Function.update f i v = f := by
  rw [← h, Function.update_eq_self]

namespace PageFrameAllocator

variable {a : PageFrameAllocator}

/-- `deallocate_page` gives back what `allocate_page` took. -/
def RestoresBitmap (a : PageFrameAllocator) (pid : Nat) : Prop :=
  (deallocatePage (allocatePage a pid).2 (allocatePage a pid).1).bitmap = a.bitmap

theorem deallocate_bitmap (h : a.firstFree = some p) (pid : Nat) :
    (deallocatePage (allocatePage a pid).2 (allocatePage a pid).1).bitmap =
      Function.update (Function.update a.bitmap p (pid % 256)) (p / 64)
        ((Function.update a.bitmap p (pid % 256) (p / 64) &&& (2 ^ 64 - 1 - 1 <<< (p % 64)))
          % 256) := by
  have hp : p * pageSize / pageSize = p := Nat.mul_div_cancel p (by decide)
  rw [allocatePage, h]
  simp only [deallocatePage, take, mark, hp]

/-- The frame that was taken is free again and every other frame is as before exactly if the byte
stored for it was 0 already and the bit cleared in the byte of another frame was clear, or if it
was frame 0. -/
theorem restoresBitmap_iff (h : a.firstFree = some p) (hb : ∀ i, a.bitmap i < 256) (pid : Nat) :
    a.RestoresBitmap pid ↔ p = 0 ∧ pid % 256 ≤ 1 ∨
      pid % 256 = 0 ∧ (p % 64 < 8 → (a.bitmap (p / 64)).testBit (p % 64) = false) := by
  obtain ⟨hfree, _, _, _⟩ := scanFree_some h
  have h64 : p % 64 < 64 := Nat.mod_lt p (by decide)
  rw [RestoresBitmap, deallocate_bitmap h]
  by_cases hp : p = 0
  · subst hp
    have hz := clear_zero_eq_zero (Nat.mod_lt pid (show 0 < 256 by decide))
    rw [Nat.zero_div, Nat.zero_mod, Function.update_self, Function.update_idem, hfree]
    constructor
    · intro he
      have h0 := congrFun he 0
      rw [Function.update_self, hfree, hz] at h0
      exact .inl ⟨rfl, h0⟩
    · intro hc
      have hle : pid % 256 ≤ 1 := by omega
      rw [hz.mpr hle, update_of_eq hfree]
  · have hne : p / 64 ≠ p := by omega
    have hself := clear_eq_self h64 (hb (p / 64))
    rw [Function.update_of_ne hne]
    constructor
    · intro he
      have hq := congrFun he (p / 64)
      have hown := congrFun he p
      rw [Function.update_self] at hq
      rw [Function.update_of_ne hne.symm, Function.update_self, hfree] at hown
      exact .inr ⟨hown, hself.mp hq⟩
    · rintro (⟨h0, _⟩ | ⟨h0, hbit⟩)
      · exact absurd h0 hp
      · have hstep : Function.update a.bitmap p (pid % 256) = a.bitmap := by
          rw [h0, update_of_eq hfree]
        rw [hstep, hself.mpr hbit, Function.update_eq_self]

theorem restoresBitmap_bareMmu :
    bareMmu.allocator.firstFree = some 8 ∧ bareMmu.allocator.RestoresBitmap 0 := by
  have hfirst : bareMmu.allocator.firstFree = some 8 := by decide
  refine ⟨hfirst, (restoresBitmap_iff hfirst ?_ 0).mpr (.inr ⟨by decide, by decide⟩)⟩
  intro i
  simp only [bareMmu]
  split <;> decide

/-- With a pid in its byte, the frame stays taken. -/
theorem deallocate_leaves_frame_taken : bareMmu.allocator.firstFree = some 8 ∧
    (deallocatePage (allocatePage bareMmu.allocator 2).2 (8 * pageSize)).bitmap 8 = 2 ∧
    ¬ bareMmu.allocator.RestoresBitmap 2 := by
  refine ⟨by decide, by decide, ?_⟩
  intro h
  have h8 := congrFun h 8
  exact absurd h8 (by decide)

/-- The frames that `allocate_page` has handed out since the state `a`. -/
def takenSince (a' a : PageFrameAllocator) : List Nat :=
  a'.handedOut.take (a'.handedOut.length - a.handedOut.length)

/-- The bytes of the frames `pages`, and of the frames `taken` from the allocator, have been set
to the pid. -/
structure MarkedSince (pid : Nat) (a a' : PageFrameAllocator) (pages taken : List Nat) : Prop where
  handedOut : a'.handedOut = taken ++ a.handedOut
  bitmap : ∀ i, a'.bitmap i = if i ∈ pages ∨ i ∈ taken then pid % 256 else a.bitmap i

theorem takenSince_eq {a a' : PageFrameAllocator} (h : a'.handedOut = taken ++ a.handedOut) :
    a'.takenSince a = taken := by
  rw [takenSince, h, List.length_append, Nat.add_sub_cancel, List.take_left]

theorem MarkedSince.refl (pid : Nat) (a : PageFrameAllocator) : MarkedSince pid a a [] [] :=
  ⟨rfl, fun i => (if_neg (by simp)).symm⟩

theorem MarkedSince.allocate (h : MarkedSince pid a a' pages taken) :
    ∃ taken', MarkedSince pid a (allocatePage a' pid).2 pages taken' := by
  rcases allocatePage_cases a' pid with ⟨hout, _⟩ | ⟨f, hf, _⟩
  · rw [hout]
    exact ⟨taken, h⟩
  · rw [hf]
    refine ⟨f :: taken, congrArg (f :: ·) h.handedOut, ?_⟩
    intro i
    simp only [take, mark, List.mem_cons]
    by_cases hi : i = f
    · rw [hi, Function.update_self, if_pos (.inr (.inl rfl))]
    · rw [Function.update_of_ne hi, h.bitmap]
      simp only [hi, false_or]

theorem MarkedSince.mark (h : MarkedSince pid a a' pages taken) (v : Nat) :
    MarkedSince pid a (a'.mark v pid) (v :: pages) taken := by
  refine ⟨h.handedOut, ?_⟩
  intro i
  simp only [PageFrameAllocator.mark, List.mem_cons]
  by_cases hi : i = v
  · rw [hi, Function.update_self, if_pos (.inl (.inl rfl))]
  · rw [Function.update_of_ne hi, h.bitmap]
    simp only [hi, false_or]

end PageFrameAllocator

/-- The frames that the loop over `k` more pages takes for tables, the last one first. -/
def takenTables (pid flags : Nat) (setInAllocator : Bool) : Nat → Mmu → Nat → Nat → List Nat
  | 0, _, _, _ => []
  | k + 1, s, addr, physicalAddr =>
    match (mapPage s pid addr physicalAddr flags).state with
    | none => []
    | some s' =>
      let next := if setInAllocator then
        { s' with allocator := s'.allocator.mark (addr / pageSize) pid } else s'
      takenTables pid flags setInAllocator k next (addr + pageSize)
        (u64 (physicalAddr + pageSize)) ++ s'.allocator.takenSince s.allocator

/-- The frames that `map_memory_range_with_flags` takes for tables. -/
def rangeTables (s : Mmu) (pid startAddr endAddr physicalAddr flags : Nat)
    (setInAllocator : Bool) : List Nat :=
  let start := aalignDown startAddr pageSize
  let stop := aalign endAddr pageSize
  takenTables pid flags setInAllocator ((stop - start) / pageSize) s start
    (aalignDown physicalAddr pageSize)

/-- The frames that entries map. -/
def mappedFrames (entries : List (Nat × Nat)) : List Nat :=
  (entries.filter fun e => present e.2).map fun e => frameOf e.2

open PageFrameAllocator

theorem mapPage_markedSince {s s' : Mmu} (h : MarkedSince pid a s.allocator pages taken)
    (hs : (mapPage s pid va pa flags).state = some s') :
    ∃ taken', MarkedSince pid a s'.allocator pages taken' :=
  mapPage_keeps (I := fun a' => ∃ taken', MarkedSince pid a a' pages taken')
    (fun _ ⟨_, h⟩ => h.allocate) ⟨taken, h⟩ va pa flags s' hs

theorem takenTables_eq {s s' : Mmu} (h : mapPages pid flags true k s addr pa = some s') :
    s'.allocator.handedOut = takenTables pid flags true k s addr pa ++ s.allocator.handedOut := by
  induction k generalizing s addr pa with
  | zero =>
    cases h
    rfl
  | succ k ih =>
    obtain ⟨s1, h1, h⟩ := Option.bind_eq_some_iff.mp h
    obtain ⟨taken, hm⟩ := mapPage_markedSince (MarkedSince.refl pid s.allocator) h1
    have hrest := ih h
    rw [takenTables, h1]
    dsimp only
    rw [takenSince_eq hm.handedOut, List.append_assoc, ← hm.handedOut]
    exact hrest

theorem mapPages_markedSince {s s' : Mmu} (h : MarkedSince pid a s.allocator pages taken)
    (hs : mapPages pid flags true k s addr pa = some s') :
    ∃ taken', MarkedSince pid a s'.allocator ((pagesFrom k addr).reverse ++ pages) taken' := by
  induction k generalizing s addr pa pages taken with
  | zero =>
    cases hs
    exact ⟨taken, h⟩
  | succ k ih =>
    obtain ⟨s1, h1, hs⟩ := Option.bind_eq_some_iff.mp hs
    obtain ⟨taken1, h1⟩ := mapPage_markedSince h h1
    obtain ⟨taken2, h2⟩ := ih (h1.mark (addr / pageSize)) hs
    refine ⟨taken2, ?_⟩
    rw [pagesFrom, List.reverse_cons, List.append_assoc]
    exact h2

/-- What mapping a range is to do to the bitmap, for a call that leads from `s` to `s'`, sets the
bytes `pages` and maps `frames`. -/
structure ReservesFrames (s s' : Mmu) (pid : Nat) (pages frames : List Nat) : Prop where
  owned : ∀ f ∈ frames, s'.allocator.bitmap f = pid
  others : ∀ i, i ∉ frames → i ∉ s'.allocator.takenSince s.allocator →
    s'.allocator.bitmap i = s.allocator.bitmap i
  inside : ∀ i ∈ pages, i < s.allocator.numPages

/-- The page numbers do for the frames: those not among them, or among the frames `taken` for
tables, have the right byte before the call. -/
structure PagesCoverFrames (s : Mmu) (pid : Nat) (pages frames taken : List Nat) : Prop where
  covered : ∀ f ∈ frames, if f ∈ pages ∨ f ∈ taken then pid < 256 else s.allocator.bitmap f = pid
  unchanged : ∀ v ∈ pages, v ∉ frames → v ∉ taken → s.allocator.bitmap v = pid % 256
  inside : ∀ v ∈ pages, v < s.allocator.numPages

theorem mapMemoryRange_bitmap {s s' : Mmu}
    (h : mapMemoryRangeWithFlags s pid startAddr endAddr pa flags true = some s') (i : Nat) :
    s'.allocator.bitmap i =
      if i ∈ rangePages startAddr endAddr ∨ i ∈ s'.allocator.takenSince s.allocator then pid % 256
      else s.allocator.bitmap i := by
  obtain ⟨taken, hm⟩ := mapPages_markedSince (MarkedSince.refl pid s.allocator) h
  rw [takenSince_eq hm.handedOut, hm.bitmap]
  simp only [List.mem_append, List.mem_reverse, List.not_mem_nil, or_false]
  rfl

theorem marked_eq_iff {P : Prop} [Decidable P] :
    (if P then pid % 256 else b) = pid ↔ if P then pid < 256 else b = pid := by
  split
  · omega
  · exact Iff.rfl

/-- A range is reserved exactly if the numbers of its virtual pages happen to cover the frames
mapped, since these are the bytes that are set. -/
theorem reservesFrames_iff {s s' : Mmu}
    (h : mapMemoryRangeWithFlags s pid startAddr endAddr pa flags true = some s') :
    ReservesFrames s s' pid (rangePages startAddr endAddr)
        (mappedFrames (rangeEntries s pid startAddr endAddr pa flags true)) ↔
      PagesCoverFrames s pid (rangePages startAddr endAddr)
        (mappedFrames (rangeEntries s pid startAddr endAddr pa flags true))
        (rangeTables s pid startAddr endAddr pa flags true) := by
  have hbitmap := mapMemoryRange_bitmap h
  have htaken : s'.allocator.takenSince s.allocator =
      rangeTables s pid startAddr endAddr pa flags true := takenSince_eq (takenTables_eq h)
  rw [← htaken]
  constructor
  · intro hr
    refine ⟨?_, ?_, hr.inside⟩
    · intro f hf
      have hown := hr.owned f hf
      rw [hbitmap] at hown
      exact marked_eq_iff.mp hown
    · intro v hv hf ht
      have hv' := hr.others v hf ht
      rw [hbitmap, if_pos (.inl hv)] at hv'
      exact hv'.symm
  · intro hc
    refine ⟨?_, ?_, hc.inside⟩
    · intro f hf
      rw [hbitmap]
      exact marked_eq_iff.mpr (hc.covered f hf)
    · intro i hi ht
      rw [hbitmap]
      split
      · next hin => exact (hc.unchanged i (hin.resolve_right ht) hi ht).symm
      · rfl

/-- An identity mapping is reserved. -/
theorem reservesFrames_identity :
    ∃ s', mapMemoryRangeWithFlags bareMmu 2 0xC000 0xE000 0xC000 7 true = some s' ∧
      ReservesFrames bareMmu s' 2 (rangePages 0xC000 0xE000)
        (mappedFrames (rangeEntries bareMmu 2 0xC000 0xE000 0xC000 7 true)) := by
  have hsome : (mapMemoryRangeWithFlags bareMmu 2 0xC000 0xE000 0xC000 7 true).isSome = true := by
    decide +kernel
  obtain ⟨s', hs'⟩ := Option.isSome_iff_exists.mp hsome
  have hf : mappedFrames (rangeEntries bareMmu 2 0xC000 0xE000 0xC000 7 true) = [12, 13] := by
    decide +kernel
  have hp : rangePages 0xC000 0xE000 = [12, 13] := by decide +kernel
  refine ⟨s', hs', (reservesFrames_iff hs').mpr ⟨?_, ?_, ?_⟩⟩
  · rw [hf, hp]
    intro f hm
    rw [if_pos (.inl hm)]
    decide
  · rw [hf, hp]
    intro v hm hn
    exact absurd hm hn
  · rw [hp]
    decide

/-- The frame mapped at another address stays free, and the frame with the number of the virtual
page is taken instead. -/
theorem mapped_frame_stays_free :
    ∃ s', mapMemoryRangeWithFlags bareMmu 2 0xC000 0xD000 0xE000 7 true = some s' ∧
      14 ∈ mappedFrames (rangeEntries bareMmu 2 0xC000 0xD000 0xE000 7 true) ∧
      s'.allocator.bitmap 14 = 0 ∧ s'.allocator.bitmap 12 = 2 ∧
      ¬ ReservesFrames bareMmu s' 2 (rangePages 0xC000 0xD000)
        (mappedFrames (rangeEntries bareMmu 2 0xC000 0xD000 0xE000 7 true)) := by
  have hbytes : (mapMemoryRangeWithFlags bareMmu 2 0xC000 0xD000 0xE000 7 true).map
      (fun s => (s.allocator.bitmap 14, s.allocator.bitmap 12)) = some (0, 2) := by
    decide +kernel
  obtain ⟨s', hs', hb⟩ := Option.map_eq_some_iff.mp hbytes
  obtain ⟨h14, h12⟩ := Prod.mk.inj hb
  have hmem : 14 ∈ mappedFrames (rangeEntries bareMmu 2 0xC000 0xD000 0xE000 7 true) := by
    decide +kernel
  refine ⟨s', hs', hmem, h14, h12, ?_⟩
  intro hr
  have hown := hr.owned 14 hmem
  rw [h14] at hown
  cases hown

end BiosKernel
