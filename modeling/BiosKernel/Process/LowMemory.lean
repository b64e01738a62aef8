import BiosKernel.Paging.WellFormed
import BiosKernel.Process.AllocProc

namespace BiosKernel
open MachineInt Radix
set_option autoImplicit true

def entryTo (f : Nat) : Nat := f * pageSize ||| pageMapFlags

def kernelFrame : Nat := 0xD00

-- The tables of the first gigabyte. They lie in the memory that the allocator holds back.

def pdptFrame : Nat := 0x400

def pdFrame : Nat := 0x401

def ptFrame (j : Nat) : Nat := 0x402 + j

/-- A frame of the first gigabyte behind these tables, which can be taken for a PML4. -/
def BehindTables (n : Nat) : Prop := ptFrame 512 ≤ n ∧ n < 2 ^ 18

instance (n : Nat) : Decidable (BehindTables n) := inferInstanceAs (Decidable (_ ∧ _))

/-- All tables of the first gigabyte exist, every PML4 shares them, and the recursive window shows
the tables below `root`. -/
structure Flat (s : Mmu) (root : Nat) : Prop where
  cr3 : s.cr3 = kernelFrame
  behind : BehindTables root
  window : s.mem kernelFrame pml4RecursiveEntryNum = entryTo root
  self : ∀ n, BehindTables n → n ≠ kernelFrame → s.mem n pml4RecursiveEntryNum = entryTo n
  pml4 : ∀ n, BehindTables n → s.mem n 0 = entryTo pdptFrame
  pdpt : s.mem pdptFrame 0 = entryTo pdFrame
  pd : ∀ j < 512, s.mem pdFrame j = entryTo (ptFrame j)

/-- The entry of a page of the first gigabyte. -/
def leafOf (s : Mmu) (p : Nat) : Nat := s.mem (ptFrame (p / 512)) (p % 512)

variable {s s' : Mmu}

theorem nextTable_entryTo (hf : f < 2 ^ 40) : nextTable (entryTo f) = some f := by
  obtain ⟨hpr, _, hfr, _⟩ := Mmu.newEntry hf
  rw [entryTo, nextTable, if_pos hpr, hfr]

theorem hardwareWalk_entryTo (h4 : mem root i4 = entryTo a) (h3 : mem a i3 = entryTo b)
    (h2 : mem b i2 = entryTo c) (ha : a < 2 ^ 40) (hb : b < 2 ^ 40) (hc : c < 2 ^ 40) :
    hardwareWalk mem root i4 i3 i2 i1 = nextTable (mem c i1) := by
  obtain ⟨p4, _, f4, _⟩ := Mmu.newEntry ha
  obtain ⟨p3, l3, f3, _⟩ := Mmu.newEntry hb
  obtain ⟨p2, l2, f2, _⟩ := Mmu.newEntry hc
  simp only [entryTo] at h4 h3 h2
  simp only [hardwareWalk, h4, p4, f4, h3, p3, l3, f3, h2, p2, l2, f2, nextTable, Bool.not_true,
    Bool.false_eq_true, ↓reduceIte]
  cases present (mem c i1) <;> rfl

namespace Flat

theorem root_self (h : Flat s root) : s.mem root pml4RecursiveEntryNum = entryTo root := by
  by_cases hr : root = kernelFrame
  · have hw := h.window
    rw [hr] at hw ⊢
    exact hw
  · exact h.self root h.behind hr

theorem root_lt (h : Flat s root) : root < 2 ^ 40 := Nat.lt_trans h.behind.2 (by decide)

theorem translate_indexes (h : Flat s root) (hb : b < 512) (hc : c < 512) (hd : d < 512)
    (hx : x < 512) (h3 : s.mem root b = entryTo m) (h2 : s.mem m c = entryTo n) (hm : m < 2 ^ 40)
    (hn : n < 2 ^ 40) : s.translate (getAddrFromTableIndexes pml4RecursiveEntryNum b c d + 8 * x) =
      nextTable (s.mem n d) := by
  rw [s.translate_getAddr (by decide) hb hc hd hx, h.cr3]
  exact hardwareWalk_entryTo h.window h3 h2 h.root_lt hm hn

-- The four windows that `map_page` uses for a page of the first gigabyte.

theorem window_pml4 (h : Flat s root) (hx : x < 512) :
    s.translate (getAddrFromTableIndexes pml4RecursiveEntryNum pml4RecursiveEntryNum
      pml4RecursiveEntryNum pml4RecursiveEntryNum + 8 * x) = some root := by
  rw [h.translate_indexes (by decide) (by decide) (by decide) hx h.root_self h.root_self h.root_lt
    h.root_lt, h.root_self]
  exact nextTable_entryTo h.root_lt

theorem window_pdpt (h : Flat s root) (hx : x < 512) :
    s.translate (getAddrFromTableIndexes pml4RecursiveEntryNum pml4RecursiveEntryNum
      pml4RecursiveEntryNum 0 + 8 * x) = some pdptFrame := by
  rw [h.translate_indexes (by decide) (by decide) (by decide) hx h.root_self h.root_self h.root_lt
    h.root_lt, h.pml4 root h.behind]
  exact nextTable_entryTo (by decide)

theorem window_pd (h : Flat s root) (hx : x < 512) :
    s.translate (getAddrFromTableIndexes pml4RecursiveEntryNum pml4RecursiveEntryNum 0 0 + 8 * x) =
      some pdFrame := by
  rw [h.translate_indexes (by decide) (by decide) (by decide) hx h.root_self (h.pml4 root h.behind)
    h.root_lt (by decide), h.pdpt]
  exact nextTable_entryTo (by decide)

theorem window_pt (h : Flat s root) (hj : j < 512) (hx : x < 512) :
    s.translate (getAddrFromTableIndexes pml4RecursiveEntryNum 0 0 j + 8 * x) =
      some (ptFrame j) := by
  rw [h.translate_indexes (by decide) (by decide) hj hx (h.pml4 root h.behind) h.pdpt (by decide)
    (by decide), h.pd j hj]
  apply nextTable_entryTo
  rw [ptFrame]
  omega

end Flat

theorem tableIndex_page (hp : p < 2 ^ 18) (hy : y < 4096) :
    tableIndex (p * pageSize + y) 39 = 0 ∧ tableIndex (p * pageSize + y) 30 = 0 ∧
    tableIndex (p * pageSize + y) 21 = p / 512 ∧ tableIndex (p * pageSize + y) 12 = p % 512 := by
  simp only [tableIndex_eq, pageSize]
  omega

theorem tableIndex_pageStart (hp : p < 2 ^ 18) :
    tableIndex (p * pageSize) 39 = 0 ∧ tableIndex (p * pageSize) 30 = 0 ∧
    tableIndex (p * pageSize) 21 = p / 512 ∧ tableIndex (p * pageSize) 12 = p % 512 := by
  have h := tableIndex_page hp (y := 0) (by decide)
  rwa [Nat.add_zero] at h

theorem page_entry (hp : p < 2 ^ 18) :
    p / 512 < 512 ∧ p % 512 < 512 ∧ ptFrame (p / 512) < 2 ^ 40 := by
  rw [ptFrame]
  omega

theorem Flat.translate_page (h : Flat s root) (hp : p < 2 ^ 18) (hx : x < 512) :
    s.translate (p * pageSize + 8 * x) = nextTable (leafOf s p) := by
  obtain ⟨h4, h3, h2, h1⟩ := tableIndex_page hp (y := 8 * x) (by omega)
  obtain ⟨hj, -, hpt⟩ := page_entry hp
  rw [Mmu.translate, h4, h3, h2, h1, h.cr3, leafOf]
  exact hardwareWalk_entryTo (h.pml4 kernelFrame (by decide)) h.pdpt (h.pd _ hj) (by decide)
    (by decide) hpt

def writeLeaf (s : Mmu) (p e : Nat) (b : Bool) : Mmu :=
  { s with
    mem := set s.mem (ptFrame (p / 512)) (p % 512) e
    interruptsReady := b, interruptFlag := b }

theorem writeLeaf_mem (s : Mmu) (hp : p < 2 ^ 18) (e : Nat) (b : Bool)
    (hn : n < ptFrame 0 ∨ ptFrame 512 ≤ n) (i : Nat) :
    (writeLeaf s p e b).mem n i = s.mem n i := by
  refine set_of_ne s.mem e (.inl ?_)
  rw [ptFrame, ptFrame] at hn
  rw [ptFrame]
  omega

theorem leafOf_writeLeaf_self (s : Mmu) (p e : Nat) (b : Bool) :
    leafOf (writeLeaf s p e b) p = e := set_self s.mem _ _ e

theorem leafOf_writeLeaf_of_ne (s : Mmu) (e : Nat) (b : Bool) (h : q ≠ p) :
    leafOf (writeLeaf s p e b) q = leafOf s q := by
  refine set_of_ne s.mem e ?_
  rw [ptFrame, ptFrame]
  omega

namespace Flat

theorem congr (h : Flat s root) (hc : s'.cr3 = s.cr3)
    (hm : ∀ n, n < ptFrame 0 ∨ ptFrame 512 ≤ n → s'.mem n = s.mem n) : Flat s' root := by
  have hroot {n : Nat} (hn : BehindTables n) : s'.mem n = s.mem n := hm n (.inr hn.1)
  refine ⟨hc.trans h.cr3, h.behind, ?_, ?_, ?_, ?_, ?_⟩
  · rw [hroot (by decide)]
    exact h.window
  · intro n hn hne
    rw [hroot hn]
    exact h.self n hn hne
  · intro n hn
    rw [hroot hn]
    exact h.pml4 n hn
  · rw [hm _ (.inl (by decide))]
    exact h.pdpt
  · intro j hj
    rw [hm _ (.inl (by decide))]
    exact h.pd j hj

theorem writeLeaf (h : Flat s root) (hp : p < 2 ^ 18) (e : Nat) (b : Bool) :
    Flat (BiosKernel.writeLeaf s p e b) root :=
  h.congr rfl fun _ hn => funext fun i => writeLeaf_mem s hp e b hn i

theorem loadEntry_of (ht : s.translate (getAddrFromTableIndexes a b c d + 8 * x) = some f)
    (ha : a < 512) (hb : b < 512) (hc : c < 512) (hd : d < 512) (hx : x < 512) :
    s.loadEntry (getAddrFromTableIndexes a b c d + 8 * x) = some (s.mem f x) := by
  rw [Mmu.loadEntry, ht, Option.map_some, (tableIndex_getAddr ha hb hc hd hx).2.2.2.2]

theorem load_pml4 (h : Flat s root) :
    s.loadEntry (getAddrFromTableIndexes pml4RecursiveEntryNum pml4RecursiveEntryNum
      pml4RecursiveEntryNum pml4RecursiveEntryNum + 8 * 0) = some (entryTo pdptFrame) := by
  rw [loadEntry_of (h.window_pml4 (by decide)) (by decide) (by decide) (by decide) (by decide)
    (by decide), h.pml4 root h.behind]

theorem load_pdpt (h : Flat s root) :
    s.loadEntry (getAddrFromTableIndexes pml4RecursiveEntryNum pml4RecursiveEntryNum
      pml4RecursiveEntryNum 0 + 8 * 0) = some (entryTo pdFrame) := by
  rw [loadEntry_of (h.window_pdpt (by decide)) (by decide) (by decide) (by decide) (by decide)
    (by decide), h.pdpt]

theorem load_pd (h : Flat s root) (hj : j < 512) :
    s.loadEntry (getAddrFromTableIndexes pml4RecursiveEntryNum pml4RecursiveEntryNum 0 0 + 8 * j) =
      some (entryTo (ptFrame j)) := by
  rw [loadEntry_of (h.window_pd hj) (by decide) (by decide) (by decide) (by decide) hj, h.pd j hj]

theorem present_entryTo (hf : f < 2 ^ 40) : present (entryTo f) = true := (Mmu.newEntry hf).1

theorem ensureTable_eq (hl : s.loadEntry (table + 8 * index) = some (entryTo f)) (hf : f < 2 ^ 40) :
    ensureTable s pid table index child = .returned s := by
  rw [ensureTable, hl]
  simp only [present_entryTo hf, ↓reduceIte]

theorem flags (h : Flat s root) (b : Bool) :
    Flat { s with interruptsReady := b, interruptFlag := b } root := h.congr rfl fun _ _ => rfl

theorem mapPage (h : Flat s root) (hp : p < 2 ^ 18) (pid pa flags : Nat) :
    mapPage s pid (p * pageSize) pa flags =
      .returned (BiosKernel.writeLeaf s p (pa ||| flags) true) := by
  obtain ⟨h4, h3, h2, h1⟩ := tableIndex_pageStart hp
  obtain ⟨hj, hx, hpt⟩ := page_entry hp
  have h0 := h.flags false
  rw [BiosKernel.mapPage]
  simp only [h4, h3, h2, h1, ensureTable_eq h0.load_pml4 (by decide), MapOutcome.andThen,
    ensureTable_eq h0.load_pdpt (by decide), ensureTable_eq (h0.load_pd hj) hpt, Mmu.storeEntry,
    h0.window_pt hj hx, Option.map_some,
    (tableIndex_getAddr (a := pml4RecursiveEntryNum) (b := 0) (c := 0) (by decide) (by decide)
      (by decide) hj hx).2.2.2.2]
  rfl

end Flat

/-- Only the entries and the bitmap bytes of the pages from `lo` up to `hi` have changed. -/
structure Affects (s s' : Mmu) (lo hi : Nat) : Prop where
  leaf : ∀ q, q < lo ∨ hi ≤ q → leafOf s' q = leafOf s q
  bitmap : ∀ q, q < lo ∨ hi ≤ q → s'.allocator.bitmap q = s.allocator.bitmap q
  numPages : s'.allocator.numPages = s.allocator.numPages

theorem Affects.refl (s : Mmu) (lo : Nat) : Affects s s lo lo :=
  ⟨fun _ _ => rfl, fun _ _ => rfl, rfl⟩

theorem Affects.trans (h : Affects s t lo mid) (h' : Affects t s' mid hi) (hl : lo ≤ mid)
    (hm : mid ≤ hi) : Affects s s' lo hi := by
  refine ⟨?_, ?_, h'.numPages.trans h.numPages⟩
  · intro q hq
    rw [h'.leaf q (by omega), h.leaf q (by omega)]
  · intro q hq
    rw [h'.bitmap q (by omega), h.bitmap q (by omega)]

theorem Affects.writeLeaf (s : Mmu) (p e : Nat) (b : Bool) :
    Affects s (writeLeaf s p e b) p (p + 1) := by
  refine ⟨?_, fun _ _ => rfl, rfl⟩
  intro q hq
  exact leafOf_writeLeaf_of_ne s e b (by omega)

theorem Affects.mark (h : Affects s s' p (p + 1)) (pid : Nat) :
    Affects s { s' with allocator := s'.allocator.mark p pid } p (p + 1) := by
  refine ⟨h.leaf, ?_, h.numPages⟩
  intro q hq
  have hne : q ≠ p := by omega
  exact (Function.update_of_ne hne _ _).trans (h.bitmap q hq)

namespace Flat

theorem mapPages (h : Flat s root) (hp : p + k ≤ 2 ^ 18) (pid flags pa : Nat) :
    ∃ s', mapPages pid flags true k s (p * pageSize) pa = some s' ∧ Flat s' root ∧
      Affects s s' p (p + k) ∧ (0 < k → leafOf s' p = pa ||| flags) := by
  induction k generalizing s p pa with
  | zero => exact ⟨s, rfl, h, .refl s p, fun hk => absurd hk (Nat.lt_irrefl 0)⟩
  | succ k ih =>
    have hm := h.mapPage (p := p) (by omega) pid pa flags
    have hw := Affects.mark (.writeLeaf s p (pa ||| flags) true) pid
    have hpage : p * pageSize / pageSize = p := Nat.mul_div_cancel p (by decide)
    have hf : Flat { BiosKernel.writeLeaf s p (pa ||| flags) true with
        allocator := s.allocator.mark p pid } root :=
      (h.writeLeaf (by omega) (pa ||| flags) true).congr rfl fun _ _ => rfl
    obtain ⟨s', hs', hf', ha', _⟩ := ih hf (p := p + 1) (by omega) (u64 (pa + pageSize))
    refine ⟨s', ?_, hf', ?_, ?_⟩
    · rw [Nat.succ_mul] at hs'
      rw [BiosKernel.mapPages, hm, MapOutcome.state, Option.bind_some, hpage]
      exact hs'
    · have ht := hw.trans ha' (by omega) (by omega)
      rw [Nat.add_right_comm, Nat.add_assoc] at ht
      exact ht
    · intro _
      rw [ha'.leaf p (by omega)]
      exact leafOf_writeLeaf_self s p (pa ||| flags) true

theorem aalignDown_page (p : Nat) : aalignDown (p * pageSize) pageSize = p * pageSize := by
  rw [aalignDown, if_pos (.inr (Nat.mul_mod_left p pageSize))]

theorem aalign_page (hk : 0 < k) (hp : p + k ≤ 2 ^ 18) :
    aalign ((p + k) * pageSize - 1) pageSize = (p + k) * pageSize := by
  rw [aalign, if_neg, u64, pageSize]
  · omega
  · rw [pageSize]
    omega

theorem pages_of_range (hk : 0 < k) (hp : p + k ≤ 2 ^ 18) :
    (aalign ((p + k) * pageSize - 1) pageSize - p * pageSize) / pageSize = k := by
  rw [aalign_page hk hp, pageSize]
  omega

theorem mapMemoryRange (h : Flat s root) (hk : 0 < k) (hp : p + k ≤ 2 ^ 18)
    (hs : startAddr = p * pageSize) (he : endAddr = (p + k) * pageSize - 1) (pid pa : Nat) :
    ∃ s', mapMemoryRange s pid startAddr endAddr pa = some s' ∧ Flat s' root ∧
      Affects s s' p (p + k) ∧ leafOf s' p = aalignDown pa pageSize ||| pageMapFlags := by
  obtain ⟨s', hm, hf, ha, hl⟩ := h.mapPages hp pid pageMapFlags (aalignDown pa pageSize)
  refine ⟨s', ?_, hf, ha, hl hk⟩
  rw [BiosKernel.mapMemoryRange, mapMemoryRangeWithFlags, hs, he]
  simp only [aalignDown_page, pages_of_range hk hp]
  exact hm

theorem unmapPage (h : Flat s root) (hp : p < 2 ^ 18) :
    ∃ s', unmapPage s (p * pageSize) = some s' ∧ Flat s' root ∧ Affects s s' p (p + 1) := by
  obtain ⟨h4, h3, h2, h1⟩ := tableIndex_pageStart hp
  obtain ⟨hj, hx, hpt⟩ := page_entry hp
  have h0 := h.flags false
  have hidx := (tableIndex_getAddr (a := pml4RecursiveEntryNum) (b := 0) (c := 0) (by decide)
    (by decide) (by decide) hj hx).2.2.2.2
  have hload := loadEntry_of (h0.window_pt hj hx) (by decide) (by decide) (by decide) hj hx
  simp only [BiosKernel.unmapPage, h4, h3, h2, h1, h0.load_pml4, h0.load_pdpt, h0.load_pd hj,
    Option.bind_some, present_entryTo hpt, present_entryTo (f := pdptFrame) (by decide),
    present_entryTo (f := pdFrame) (by decide), hload, Bool.not_true, Bool.false_eq_true,
    ↓reduceIte]
  split
  · exact ⟨_, rfl, h0, fun _ _ => rfl, fun _ _ => rfl, rfl⟩
  · refine ⟨BiosKernel.writeLeaf s p 0 true, ?_, h.writeLeaf hp 0 true, .writeLeaf s p 0 true⟩
    rw [Mmu.storeEntry, h0.window_pt hj hx, Option.map_some, Option.map_some, hidx]
    rfl

theorem unmapPages (h : Flat s root) (hp : p + k ≤ 2 ^ 18) :
    ∃ s', unmapPages false k s (p * pageSize) = some s' ∧ Flat s' root ∧
      Affects s s' p (p + k) := by
  induction k generalizing s p with
  | zero => exact ⟨s, rfl, h, .refl s p⟩
  | succ k ih =>
    obtain ⟨s1, hs1, hf1, ha1⟩ := h.unmapPage (p := p) (by omega)
    obtain ⟨s', hs', hf', ha'⟩ := ih hf1 (p := p + 1) (by omega)
    refine ⟨s', ?_, hf', ?_⟩
    · rw [Nat.succ_mul] at hs'
      rw [BiosKernel.unmapPages, hs1, Option.bind_some]
      exact hs'
    · have ht := ha1.trans ha' (by omega) (by omega)
      rw [Nat.add_right_comm, Nat.add_assoc] at ht
      exact ht

theorem unmapMemoryRange (h : Flat s root) (hk : 0 < k) (hp : p + k ≤ 2 ^ 18)
    (hs : startAddr = p * pageSize) (he : endAddr = (p + k) * pageSize - 1) :
    ∃ s', unmapMemoryRange s startAddr endAddr false = some s' ∧ Flat s' root ∧
      Affects s s' p (p + k) := by
  obtain ⟨s', hm, hf, ha⟩ := h.unmapPages hp
  refine ⟨s', ?_, hf, ha⟩
  rw [BiosKernel.unmapMemoryRange, hs, he]
  simp only [aalignDown_page, pages_of_range hk hp]
  exact hm

theorem storeEntry (h : Flat s root) (hp : p < 2 ^ 18) (hl : leafOf s p = entryTo p) (e : Nat) :
    s.storeEntry (p * pageSize + 8 * pml4RecursiveEntryNum) e =
      some { s with mem := set s.mem p pml4RecursiveEntryNum e } := by
  have hidx : (p * pageSize + 8 * pml4RecursiveEntryNum) % pageSize / 8 =
      pml4RecursiveEntryNum := by
    rw [pageSize, pml4RecursiveEntryNum]
    omega
  rw [Mmu.storeEntry, h.translate_page hp (by decide), hl,
    nextTable_entryTo (Nat.lt_trans hp (by decide)), Option.map_some, hidx]

theorem set_self_entry (h : Flat s root) (hp : BehindTables p) (hne : p ≠ kernelFrame) :
    set s.mem p pml4RecursiveEntryNum (entryTo p) = s.mem := by
  rw [Radix.set, ← h.self p hp hne, Function.update_eq_self, Function.update_eq_self]

theorem set_window (h : Flat s root) (hr : BehindTables r) :
    Flat { s with mem := set s.mem kernelFrame pml4RecursiveEntryNum (entryTo r) } r := by
  have hold {n i : Nat} (hn : n ≠ kernelFrame ∨ i ≠ pml4RecursiveEntryNum) :
      set s.mem kernelFrame pml4RecursiveEntryNum (entryTo r) n i = s.mem n i :=
    set_of_ne s.mem _ hn
  refine ⟨h.cr3, hr, set_self s.mem kernelFrame pml4RecursiveEntryNum _, ?_, ?_, ?_, ?_⟩
  · intro n hn hne
    exact (hold (.inl hne)).trans (h.self n hn hne)
  · intro n hn
    exact (hold (.inr (by decide))).trans (h.pml4 n hn)
  · exact (hold (.inl (by decide))).trans h.pdpt
  · intro j hj
    exact (hold (.inl (by decide))).trans (h.pd j hj)

theorem leafOf_set_window (s : Mmu) (e : Nat) (hq : q < 2 ^ 18) :
    leafOf { s with mem := set s.mem kernelFrame pml4RecursiveEntryNum e } q = leafOf s q := by
  refine set_of_ne s.mem e (.inl ?_)
  rw [ptFrame, kernelFrame]
  omega

end Flat

/-- From `s` to `s'` the frames below the PML4 of the kernel keep their bytes in the bitmap, `p` and
those of the code and boot data apart, and the PML4 of the kernel stays mapped. -/
structure KeepsLow (s s' : Mmu) (p : Nat) : Prop where
  kernel : leafOf s' kernelFrame = leafOf s kernelFrame
  numPages : s'.allocator.numPages = s.allocator.numPages
  bitmap : ∀ q, q < 0x800 ∨ 0xB20 ≤ q → q < kernelFrame → q ≠ p →
    s'.allocator.bitmap q = s.allocator.bitmap q

theorem KeepsLow.trans (h : KeepsLow s t p) (h' : KeepsLow t s' p) : KeepsLow s s' p :=
  ⟨h'.kernel.trans h.kernel, h'.numPages.trans h.numPages,
    fun q hq hqk hne => (h'.bitmap q hq hqk hne).trans (h.bitmap q hq hqk hne)⟩

theorem Affects.keepsLow (h : Affects s s' lo hi)
    (hr : 0x800 ≤ lo ∧ hi ≤ 0xB20 ∨ kernelFrame < lo) (p : Nat) : KeepsLow s s' p := by
  rw [kernelFrame] at hr
  refine ⟨h.leaf _ (by rw [kernelFrame]; omega), h.numPages, ?_⟩
  intro q hq hqk _
  rw [kernelFrame] at hqk
  exact h.bitmap q (by omega)

theorem Affects.keepsLow_self (h : Affects s s' p (p + 1)) (hp : p < kernelFrame) :
    KeepsLow s s' p :=
  ⟨h.leaf _ (.inr hp), h.numPages, fun q _ _ hne => h.bitmap q (by omega)⟩

theorem KeepsLow.set_window (s : Mmu) (e p : Nat) :
    KeepsLow s { s with mem := set s.mem kernelFrame pml4RecursiveEntryNum e } p :=
  ⟨Flat.leafOf_set_window s e (by decide), rfl, fun _ _ _ _ => rfl⟩

theorem bind_of {f : α → Option β} (h : x = some a) (hf : f a = some b) : x.bind f = some b :=
  Option.bind_eq_some_iff.mpr ⟨a, h, hf⟩

namespace Flat

theorem mapSelfAndBin (h : Flat s root) (hp : p < kernelFrame) (pid realMemAddr : Nat) :
    ∃ s1 s2, BiosKernel.mapMemoryRange s pid (p * pageSize) (p * pageSize + pageSize - 1)
        (p * pageSize) = some s1 ∧
      BiosKernel.mapMemoryRange s1 pid (procBinAddr - procStackSize)
        (procBinAddr - procStackSize + procMemSize - 1) realMemAddr = some s2 ∧
      Flat s2 root ∧ KeepsLow s s2 p ∧ leafOf s2 p = entryTo p := by
  have hpk : p < 0xD00 := hp
  have hpage : p * pageSize + pageSize - 1 = (p + 1) * pageSize - 1 := by rw [Nat.succ_mul]
  obtain ⟨s1, h1, f1, a1, l1⟩ := h.mapMemoryRange (p := p) (k := 1) (by decide) (by omega) rfl hpage
    pid (p * pageSize)
  obtain ⟨s2, h2, f2, a2, _⟩ := f1.mapMemoryRange (p := 0x3FF0) (k := 0x1000) (by decide)
    (by decide) (show procBinAddr - procStackSize = _ by decide)
    (show procBinAddr - procStackSize + procMemSize - 1 = _ by decide) pid realMemAddr
  refine ⟨s1, s2, h1, h2, f2, (a1.keepsLow_self hp).trans (a2.keepsLow (by decide) p), ?_⟩
  rw [a2.leaf p (by omega), l1, aalignDown_page, entryTo]

theorem mapKernel (h : Flat s root) (pid p : Nat) :
    ∃ s1 s2 s3,
      BiosKernel.mapMemoryRange s pid procKernelAddr pageFrameAllocatorEnd
        (kernelVbase - kernelLoadAddr) = some s1 ∧
      BiosKernel.mapMemoryRange s1 pid (pageFrameAllocatorEnd + 1)
        (pageFrameAllocatorEnd + procSlotSize) 0 = some s2 ∧
      BiosKernel.mapMemoryRange s2 pid kernelHeapStart
        (kernelHeapStart + kernelHeapSizePages * 512 - 1) kernelHeapStart = some s3 ∧
      Flat s3 root ∧ KeepsLow s s3 p := by
  obtain ⟨s1, h1, f1, a1, _⟩ := h.mapMemoryRange (p := 0x800) (k := 0x300) (by decide) (by decide)
    (show procKernelAddr = _ by decide) (show pageFrameAllocatorEnd = _ by decide) pid
    (kernelVbase - kernelLoadAddr)
  obtain ⟨s2, h2, f2, a2, _⟩ := f1.mapMemoryRange (p := 0xB00) (k := 0x20) (by decide) (by decide)
    (show pageFrameAllocatorEnd + 1 = _ by decide)
    (show pageFrameAllocatorEnd + procSlotSize = _ by decide) pid 0
  obtain ⟨s3, h3, f3, a3, _⟩ := f2.mapMemoryRange (p := 0x2000) (k := 0x80) (by decide) (by decide)
    (show kernelHeapStart = _ by decide)
    (show kernelHeapStart + kernelHeapSizePages * 512 - 1 = _ by decide) pid kernelHeapStart
  exact ⟨s1, s2, s3, h1, h2, h3, f3, (a1.keepsLow (by decide) p).trans
    ((a2.keepsLow (by decide) p).trans (a3.keepsLow (by decide) p))⟩

/-- In such a memory `alloc_proc` maps everything without a fault and without a new table. -/
theorem mapProc (h : Flat s kernelFrame) (hk : leafOf s kernelFrame = entryTo kernelFrame)
    (hp : BehindTables p ∧ p < kernelFrame) (pid realMemAddr : Nat) :
    ∃ s', mapProc s pid (p * pageSize) realMemAddr = some s' ∧ Flat s' kernelFrame ∧
      KeepsLow s s' p := by
  obtain ⟨hroot, hp⟩ := hp
  have hkernel : pml4Kernel = kernelFrame * pageSize := by decide
  obtain ⟨s1, s2, h1, h2, f2, k2, l2⟩ := h.mapSelfAndBin hp kernelPid realMemAddr
  have h3 : initRecursivePaging s2 (p * pageSize) = some s2 := by
    have hst := f2.storeEntry hroot.2 l2 (entryTo p)
    rw [f2.set_self_entry hroot (Nat.ne_of_lt hp)] at hst
    exact hst
  -- From here on the window shows the tables of the process.
  have h4 := f2.storeEntry (by decide) (k2.kernel.trans hk) (entryTo p)
  have k4 := k2.trans (.set_window s2 (entryTo p) p)
  obtain ⟨s5, s6, h5, h6, f6, k6, _⟩ := (f2.set_window hroot).mapSelfAndBin hp pid realMemAddr
  obtain ⟨s7, s8, s9, h7, h8, h9, f9, k9⟩ := f6.mapKernel pid p
  have k9 := k4.trans (k6.trans k9)
  have h10 := f9.storeEntry (by decide) (k9.kernel.trans hk) (entryTo kernelFrame)
  have f10 := f9.set_window (r := kernelFrame) (by decide)
  obtain ⟨s11, h11, f11, a11⟩ := f10.unmapMemoryRange (p := 0x3FF0) (k := 0x1000) (by decide)
    (by decide) (show procBinAddr - procStackSize = _ by decide)
    (show procBinAddr - procStackSize + procMemSize - 1 = _ by decide)
  rw [← hkernel] at h4 h10
  refine ⟨s11, ?_, f11, k9.trans ((KeepsLow.set_window s9 _ p).trans (a11.keepsLow (by decide) p))⟩
  exact bind_of h1 (bind_of h2 (bind_of h3 (bind_of h4 (bind_of h5 (bind_of h6 (bind_of h7
    (bind_of h8 (bind_of h9 (bind_of h10 h11)))))))))

end Flat

end BiosKernel
