import BiosKernel.Paging.MapPage
import BiosKernel.Paging.Range
import BiosKernel.Process.Bitmaps

namespace BiosKernel
open MachineInt Runs
set_option autoImplicit true

/-- The numbers of the pages that entries map. -/
def mappedPages (entries : List (Nat × Nat)) : List Nat :=
  (entries.filter fun e => present e.2).map Prod.fst

/-- `PAGE_WRITE | PAGE_PRESENT | PAGE_UNCACHEABLE`. -/
def hardwareFlags : Nat := 0b1011

structure HardwareCall where
  size : Nat
  alignment : Nat
  pos : 0 < size

/-- The bytes that a call has returned. -/
structure Region where
  addr : Nat
  size : Nat
  alignment : Nat

/-- The state of the allocator. `regions` and `mapped` are no data of the program: they record what
the calls have returned and the pages that they have mapped. -/
structure HardwareMem where
  mmu : Mmu
  hardwareAllocSize : Nat
  regions : List Region
  mapped : List Nat

namespace HardwareMem

def init (mmu : Mmu) : HardwareMem where
  mmu := mmu
  hardwareAllocSize := 0
  regions := []
  mapped := []

/-- The address that the next call returns. -/
def addr (s : HardwareMem) (c : HardwareCall) : Nat :=
  aalign (u64 (hardwareMemStart + s.hardwareAllocSize)) c.alignment

/-- The address of the last byte of the region. -/
def endAddr (s : HardwareMem) (c : HardwareCall) : Nat := u64 (s.addr c + c.size + 2 ^ 64 - 1)

def hardwareAllocateMem (s : HardwareMem) (c : HardwareCall) : Option HardwareMem :=
  (mapMemoryRangeWithFlags s.mmu kernelPid (s.addr c) (s.endAddr c) (s.addr c) hardwareFlags
    true).map fun mmu =>
      { mmu
        hardwareAllocSize := u64 (s.addr c + c.size + 2 ^ 64 - hardwareMemStart + 1)
        regions := ⟨s.addr c, c.size, c.alignment⟩ :: s.regions
        mapped := mappedPages (rangeEntries s.mmu kernelPid (s.addr c) (s.endAddr c) (s.addr c)
          hardwareFlags true) ++ s.mapped }

structure Usable (s : HardwareMem) : Prop where
  disjoint : s.regions.Pairwise fun r r' => r.addr + r.size ≤ r'.addr ∨ r'.addr + r'.size ≤ r.addr
  aligned : ∀ r ∈ s.regions, r.alignment ≠ 0 → r.alignment ∣ r.addr
  mapped : ∀ r ∈ s.regions, ∀ x, r.addr ≤ x → x < r.addr + r.size → x / pageSize ∈ s.mapped

/-- Rounding up without a limit. -/
def alignUp (n a : Nat) : Nat := if a = 0 ∨ n % a = 0 then n else (n / a + 1) * a

/-- The region ends before the last page of the address space, and `map_page` writes an entry for
every page that it is called for. -/
structure Roomy (s : HardwareMem) (c : HardwareCall) : Prop where
  below : alignUp (hardwareMemStart + s.hardwareAllocSize) c.alignment + c.size ≤ 2 ^ 64 - pageSize
  written : (rangeEntries s.mmu kernelPid (s.addr c) (s.endAddr c) (s.addr c) hardwareFlags
    true).map Prod.fst = rangePages (s.addr c) (s.endAddr c)

/-- The last byte of the region is not the first one of a page. -/
def LastByteInside (s : HardwareMem) (c : HardwareCall) : Prop :=
  (s.addr c + c.size - 1) % pageSize ≠ 0

end HardwareMem

theorem mem_pagesFrom : p ∈ pagesFrom k addr ↔ addr / pageSize ≤ p ∧ p < addr / pageSize + k := by
  induction k generalizing addr with
  | zero => simp [pagesFrom]
  | succ k ih =>
    have hnext : (addr + pageSize) / pageSize = addr / pageSize + 1 :=
      Nat.add_div_right addr (by decide)
    rw [pagesFrom, List.mem_cons, ih, hnext]
    omega

/-- A range leaves out the page that its last address begins. -/
theorem mem_rangePages (hlt : endAddr ≤ 2 ^ 64 - pageSize) :
    p ∈ rangePages startAddr endAddr ↔ startAddr / pageSize ≤ p ∧ p * pageSize < endAddr := by
  have hstart : aalignDown startAddr pageSize = startAddr / pageSize * pageSize := by
    rw [aalignDown, pageSize]
    split <;> omega
  have hstop : aalign endAddr pageSize =
      if endAddr % pageSize = 0 then endAddr else (endAddr / pageSize + 1) * pageSize := by
    rw [pageSize] at hlt ⊢
    rw [aalign, u64]
    split <;> split <;> omega
  rw [rangePages, mem_pagesFrom, hstart, hstop]
  rw [pageSize] at hlt ⊢
  split <;> omega

theorem writtenEntries_length_le (pid flags : Nat) (b : Bool) (k : Nat) (s : Mmu) (addr pa : Nat) :
    (writtenEntries pid flags b k s addr pa).length ≤ k := by
  induction k generalizing s addr pa with
  | zero => exact Nat.le_refl 0
  | succ k ih =>
    rw [writtenEntries]
    dsimp only
    split
    · exact Nat.zero_le _
    · exact Nat.le_succ_of_le (ih ..)
    · exact Nat.succ_le_succ (ih ..)

theorem mapPages_of_written (h : (writtenEntries pid flags b k s addr pa).length = k) :
    ∃ s', mapPages pid flags b k s addr pa = some s' := by
  induction k generalizing s addr pa with
  | zero => exact ⟨s, rfl⟩
  | succ k ih =>
    rw [writtenEntries] at h
    rw [mapPages]
    dsimp only at h
    split at h
    · cases h
    · exact absurd h (Nat.ne_of_lt (Nat.lt_succ_of_le (writtenEntries_length_le ..)))
    · next u hu =>
      rw [hu, MapOutcome.state, Option.bind_some]
      exact ih (Nat.succ.inj h)

theorem writtenEntries_present (hf : present flags = true) :
    ∀ w ∈ writtenEntries pid flags b k s addr pa, present w.2 = true := by
  induction k generalizing s addr pa with
  | zero =>
    intro w hw
    cases hw
  | succ k ih =>
    rw [writtenEntries]
    dsimp only
    split
    · intro w hw
      cases hw
    · exact ih
    · intro w hw
      rcases List.mem_cons.mp hw with rfl | hw
      · exact present_or hf
      · exact ih w hw

theorem mappedPages_rangeEntries (hf : present flags = true) :
    mappedPages (rangeEntries s pid startAddr endAddr pa flags b) =
      (rangeEntries s pid startAddr endAddr pa flags b).map Prod.fst :=
  congrArg (List.map Prod.fst) (List.filter_eq_self.mpr (writtenEntries_present hf))

namespace HardwareMem

variable {s s' : HardwareMem} {c : HardwareCall}

theorem le_alignUp (n a : Nat) : n ≤ alignUp n a := by
  rw [alignUp]
  split
  · exact Nat.le_refl n
  · next h =>
    have ha : 0 < a := Nat.pos_of_ne_zero fun h0 => h (.inl h0)
    rw [Nat.mul_comm]
    exact Nat.le_of_lt (Nat.lt_mul_div_succ n ha)

theorem dvd_alignUp (n : Nat) (ha : a ≠ 0) : a ∣ alignUp n a := by
  rw [alignUp]
  split
  · next h => exact Nat.dvd_of_mod_eq_zero (h.resolve_left ha)
  · exact Nat.dvd_mul_left a _

theorem aalign_eq_alignUp (h : alignUp n a < 2 ^ 64) : aalign n a = alignUp n a := by
  rw [alignUp] at h ⊢
  rw [aalign]
  split
  · rfl
  · next hd =>
    rw [if_neg hd] at h
    exact Nat.mod_eq_of_lt h

/-- Where nothing wraps around, the region lies behind all bytes given out before. -/
structure Roomy.Placed (s : HardwareMem) (c : HardwareCall) : Prop where
  start : hardwareMemStart + s.hardwareAllocSize ≤ s.addr c
  aligned : c.alignment ≠ 0 → c.alignment ∣ s.addr c
  below : s.addr c + c.size ≤ 2 ^ 64 - pageSize
  endAddr : s.endAddr c = s.addr c + c.size - 1
  next : hardwareMemStart + u64 (s.addr c + c.size + 2 ^ 64 - hardwareMemStart + 1) =
    s.addr c + c.size + 1

theorem Roomy.placed (h : s.Roomy c) : Roomy.Placed s c := by
  have hb := h.below
  have hle := le_alignUp (hardwareMemStart + s.hardwareAllocSize) c.alignment
  have hps : pageSize = 4096 := rfl
  have hms : hardwareMemStart = 0x2400000 := rfl
  have hpos := c.pos
  have hu : u64 (hardwareMemStart + s.hardwareAllocSize) =
      hardwareMemStart + s.hardwareAllocSize := Nat.mod_eq_of_lt (by omega)
  have ha : s.addr c = alignUp (hardwareMemStart + s.hardwareAllocSize) c.alignment := by
    rw [addr, hu]
    exact aalign_eq_alignUp (by omega)
  rw [← ha] at hb hle
  refine ⟨hle, fun h0 => ha ▸ dvd_alignUp _ h0, hb, ?_, ?_⟩
  · rw [HardwareMem.endAddr, u64]
    omega
  · rw [u64]
    omega

/-- Whatever was given out or mapped before lies below the next address. -/
structure Behind (s : HardwareMem) : Prop where
  regions : ∀ r ∈ s.regions, r.addr + r.size < hardwareMemStart + s.hardwareAllocSize
  mapped : ∀ p ∈ s.mapped, p * pageSize < hardwareMemStart + s.hardwareAllocSize

theorem Behind.init (mmu : Mmu) : (HardwareMem.init mmu).Behind :=
  ⟨List.forall_mem_nil _, List.forall_mem_nil _⟩

theorem Usable.init (mmu : Mmu) : (HardwareMem.init mmu).Usable :=
  ⟨.nil, List.forall_mem_nil _, List.forall_mem_nil _⟩

theorem Roomy.step (h : s.Roomy c) : ∃ s', s.hardwareAllocateMem c = some s' ∧
    hardwareMemStart + s'.hardwareAllocSize = s.addr c + c.size + 1 ∧
    s'.regions = ⟨s.addr c, c.size, c.alignment⟩ :: s.regions ∧
    ∀ p, p ∈ s'.mapped ↔
      (s.addr c / pageSize ≤ p ∧ p * pageSize < s.addr c + c.size - 1) ∨ p ∈ s.mapped := by
  have hp := h.placed
  have hpos := c.pos
  have hbelow := hp.below
  have hlength := congrArg List.length h.written
  rw [List.length_map, rangePages, pagesFrom_length] at hlength
  obtain ⟨mmu, hmmu⟩ := mapPages_of_written hlength
  have hflags : present hardwareFlags = true := by decide
  refine ⟨_, congrArg (Option.map _) hmmu, hp.next, rfl, ?_⟩
  intro p
  rw [List.mem_append, mappedPages_rangeEntries hflags, h.written, hp.endAddr,
    mem_rangePages (by omega)]

theorem Roomy.behind (h : s.Roomy c) (hs : s.Behind) (hstep : s.hardwareAllocateMem c = some s') :
    s'.Behind := by
  obtain ⟨u, hu, hnext, hregions, hmapped⟩ := h.step
  rw [hstep] at hu
  cases hu
  have hstart := h.placed.start
  refine ⟨?_, ?_⟩
  · intro r hr
    rw [hregions] at hr
    rcases List.mem_cons.mp hr with rfl | hr
    · rw [hnext]
      exact Nat.lt_succ_self _
    · have hlt := hs.regions r hr
      omega
  · intro p hp
    rcases (hmapped p).mp hp with hp | hp
    · omega
    · have hlt := hs.mapped p hp
      omega

theorem Roomy.usable_iff (h : s.Roomy c) (hs : s.Behind) (hu : s.Usable) :
    s.LastByteInside c ↔ ∃ s', s.hardwareAllocateMem c = some s' ∧ s'.Usable := by
  obtain ⟨s', hstep, _, hregions, hmapped⟩ := h.step
  have hp := h.placed
  have hpos := c.pos
  have hps : pageSize = 4096 := rfl
  constructor
  · intro hlast
    rw [LastByteInside] at hlast
    refine ⟨s', hstep, ?_, ?_, ?_⟩
    · rw [hregions]
      refine List.pairwise_cons.mpr ⟨?_, hu.disjoint⟩
      intro r hr
      have hlt := hs.regions r hr
      exact .inr (Nat.le_of_lt (Nat.lt_of_lt_of_le hlt hp.start))
    · rw [hregions]
      exact List.forall_mem_cons.mpr ⟨hp.aligned, hu.aligned⟩
    · rw [hregions]
      refine List.forall_mem_cons.mpr ⟨?_, ?_⟩
      · intro x hx hx'
        refine (hmapped _).mpr (.inl ⟨Nat.div_le_div_right hx, ?_⟩)
        dsimp only at hx'
        rw [hps] at hlast ⊢
        omega
      · intro r hr x hx hx'
        exact (hmapped _).mpr (.inr (hu.mapped r hr x hx hx'))
  · rintro ⟨u, hstep', hu'⟩ hlast
    rw [hstep] at hstep'
    cases hstep'
    have hmem := hu'.mapped ⟨s.addr c, c.size, c.alignment⟩ (by rw [hregions]; simp)
      (s.addr c + c.size - 1) (by dsimp only; omega) (by dsimp only; omega)
    -- The page begins with the last byte, so neither this call nor an earlier one maps it.
    rcases (hmapped _).mp hmem with hnew | hold
    · rw [hps] at hlast hnew
      omega
    · have hlt := hs.mapped _ hold
      have hstart := hp.start
      rw [hps] at hlast hlt
      omega

/-- As long as addresses do not wrap around and every page called for gets its entry, the regions
are usable behind every call exactly if no region ends with the first byte of a page. -/
theorem always_usable_iff (mmu : Mmu) (cs : List HardwareCall)
    (h : Meets hardwareAllocateMem Roomy (init mmu) cs) :
    Always hardwareAllocateMem Usable (init mmu) cs ↔
      Meets hardwareAllocateMem LastByteInside (init mmu) cs :=
  always_iff_meets (fun _ _ _ hs hf hstep _ => hf.behind hs hstep)
    (fun _ _ hs hu hf => hf.usable_iff hs hu) (Behind.init mmu) (Usable.init mmu) h

instance (s : HardwareMem) (c : HardwareCall) : Decidable (s.Roomy c) :=
  decidable_of_iff (_ ∧ _) ⟨fun h => ⟨h.1, h.2⟩, fun h => ⟨h.below, h.written⟩⟩

instance (s : HardwareMem) (c : HardwareCall) : Decidable (s.LastByteInside c) :=
  inferInstanceAs (Decidable (_ ≠ _))

/-- The command list and the received FIS of a port. -/
theorem always_usable_port : Always hardwareAllocateMem Usable (init bareMmu)
    [⟨0x400, 0x400, by decide⟩, ⟨0x100, 0x100, by decide⟩] :=
  (always_usable_iff bareMmu _ (by decide +kernel)).mpr (by decide +kernel)

/-- A region of one byte at the start of a page is not mapped at all. -/
theorem one_byte_not_mapped : (init bareMmu).Roomy ⟨1, 0, by decide⟩ ∧
    ((init bareMmu).hardwareAllocateMem ⟨1, 0, by decide⟩).map (·.mapped) = some [] ∧
    ¬ Always hardwareAllocateMem Usable (init bareMmu) [⟨1, 0, by decide⟩] := by
  have hroomy : (init bareMmu).Roomy ⟨1, 0, by decide⟩ := by decide +kernel
  refine ⟨hroomy, by decide +kernel, ?_⟩
  rintro ⟨_, s', hs', hu⟩
  have hlast := (hroomy.usable_iff (Behind.init bareMmu) (Usable.init bareMmu)).mpr ⟨s', hs', hu⟩
  exact absurd hlast (by decide +kernel)

end HardwareMem

end BiosKernel
