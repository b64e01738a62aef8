import BiosKernel.Paging.EnsureTable

namespace BiosKernel
open Radix
set_option autoImplicit true

namespace Mmu

variable {s s' : Mmu}

/-- The state after the entry of a page has been written. -/
def withLeaf (s : Mmu) (n i e : Nat) : Mmu :=
  { s with mem := set s.mem n i e, interruptsReady := true, interruptFlag := true }

theorem Structured.upper_ne (h : s.Structured) (hv : tableIndex va 39 ≠ pml4RecursiveEntryNum)
    (hn : s.tableAt (pathOf va) = some n) (hq : Path (j :: q)) (hn' : s.tableAt q = some n') :
    n' ≠ n := by
  rintro rfl
  have he := h.distinct q (pathOf va) n' hq.tail (pathOf_path hv) hn' hn
  have hl := hq.length
  rw [he] at hl
  exact absurd hl (by simp [pathOf])

theorem Structured.tableAt_withLeaf (h : s.Structured)
    (hv : tableIndex va 39 ≠ pml4RecursiveEntryNum) (hn : s.tableAt (pathOf va) = some n)
    (e : Nat) (hq : Path q) : (s.withLeaf n (tableIndex va 12) e).tableAt q = s.tableAt q := by
  apply h.distinct.follow_set (fun _ _ hh => hh.tail) (pathOf_path hv) hn e hq
  intro hs
  have hl := Nat.le_trans hs.length_le hq.length
  simp [pathOf] at hl

theorem Structured.withLeaf (h : s.Structured) (hv : tableIndex va 39 ≠ pml4RecursiveEntryNum)
    (hn : s.tableAt (pathOf va) = some n) (e : Nat) :
    (s.withLeaf n (tableIndex va 12) e).Structured := by
  have hat {q : List Nat} (hq : Path q) := h.tableAt_withLeaf hv hn e hq
  have hold {q : List Nat} {n' j : Nat} (hq : Path (j :: q)) (hn' : s.tableAt q = some n')
      (k : Nat) :
      (s.withLeaf n (tableIndex va 12) e).mem n' k = s.mem n' k :=
    set_of_ne s.mem e (.inl (h.upper_ne hv hn hq hn'))
  have hself := hold (pathOf_path hv).tail.tail rfl pml4RecursiveEntryNum
  refine ⟨⟨?_, ?_⟩, ?_, ?_⟩
  · exact (congrArg nextTable hself).trans h.selfMapped.self
  · exact (congrArg large hself).trans h.selfMapped.small
  · intro q n' j hq hn' hpr
    rw [hat hq.tail] at hn'
    rw [hold hq hn'] at hpr ⊢
    exact h.table q n' j hq hn' hpr
  · intro q q' m hq hq' hm hm'
    exact h.distinct q q' m hq hq' ((hat hq).symm.trans hm) ((hat hq').symm.trans hm')

theorem Structured.isPageMapped_withLeaf (h : s.Structured)
    (hv : tableIndex va 39 ≠ pml4RecursiveEntryNum) (hn : s.tableAt (pathOf va) = some n) (e : Nat)
    (hv' : tableIndex va' 39 ≠ pml4RecursiveEntryNum) :
    isPageMapped (s.withLeaf n (tableIndex va 12) e).mem s.cr3 va' =
      if pathOf va' = pathOf va ∧ tableIndex va' 12 = tableIndex va 12 then leaf e
      else isPageMapped s.mem s.cr3 va' := by
  have hnew := (h.withLeaf hv hn e).isPageMapped_eq hv'
  rw [h.tableAt_withLeaf hv hn e (pathOf_path hv')] at hnew
  refine Eq.trans hnew ?_
  split
  · next hsame =>
    rw [hsame.1, hsame.2, hn, Option.bind_some]
    exact congrArg leaf (set_self s.mem n _ e)
  · next hne =>
    rw [h.isPageMapped_eq hv']
    cases hn' : s.tableAt (pathOf va') with
    | none => rfl
    | some n' =>
      refine congrArg leaf (set_of_ne s.mem e ?_)
      by_cases hnn : n' = n
      · subst hnn
        right
        intro hi
        exact hne ⟨h.distinct _ _ n' (pathOf_path hv') (pathOf_path hv) hn' hn, hi⟩
      · exact .inl hnn

theorem andThen_assoc (o : MapOutcome) (f g : Mmu → MapOutcome) :
    (o.andThen f).andThen g = o.andThen fun s => (f s).andThen g := by
  cases o <;> rfl

theorem mapPage_eq (s : Mmu) (pid va pa flags : Nat) : mapPage s pid va pa flags =
    (ensurePath { s with interruptsReady := false, interruptFlag := false } pid (pathOf va)).andThen
      fun s =>
        match s.storeEntry (windowAddr (pathOf va) + 8 * tableIndex va 12) (pa ||| flags) with
        | none => .pageFault
        | some s => .returned { s with interruptsReady := true, interruptFlag := true } := by
  simp only [pathOf, ensurePath, andThen_assoc]
  rfl

/-- The addresses that `map_page` takes from the allocator for new tables. -/
def tablePages (s : Mmu) (pid va : Nat) : List Nat :=
  (takePages s.allocator pid (s.missing (pathOf va))).1

theorem Structured.mapPage_ok (h : s.Structured) (hv : tableIndex va 39 ≠ pml4RecursiveEntryNum)
    (hfresh : s.FreshPages (s.tablePages pid va)) (pa flags : Nat) :
    ∃ s' n, s.Extends s' (pathOf va) (s.tablePages pid va) ∧ s'.tableAt (pathOf va) = some n ∧
      mapPage s pid va pa flags = .returned (s'.withLeaf n (tableIndex va 12) (pa ||| flags)) := by
  have h0 : Structured { s with interruptsReady := false, interruptFlag := false } :=
    ⟨⟨h.selfMapped.self, h.selfMapped.small⟩, h.table, h.distinct⟩
  obtain ⟨s', hs', _, he⟩ := h0.ensurePath_ok (pathOf_path hv) pid
    ⟨hfresh.nodup, hfresh.nonzero, hfresh.free⟩
  obtain ⟨n, hn⟩ := he.table
  refine ⟨s', n, ⟨he.structured, he.cr3, he.table, he.other, he.isTable, he.walk⟩, hn, ?_⟩
  rw [mapPage_eq, hs', MapOutcome.andThen]
  have hst := he.structured.storeEntry_window (pathOf_path hv) hn (tableIndex_lt va 12)
    s'.allocator (pa ||| flags)
  simp only [hst, Mmu.withLeaf]

/-- What `map_page` does to the walk and to the set of tables. -/
theorem Structured.mapPage_walk (h : s.Structured) (hv : tableIndex va 39 ≠ pml4RecursiveEntryNum)
    (hfresh : s.FreshPages (s.tablePages pid va)) (pa flags : Nat) :
    ∃ s', mapPage s pid va pa flags = .returned s' ∧ s'.cr3 = s.cr3 ∧ s'.Structured ∧
      (∀ f, s'.IsTable f → s.IsTable f ∨ f * pageSize ∈ s.tablePages pid va) ∧
      ∀ va', tableIndex va' 39 ≠ pml4RecursiveEntryNum → isPageMapped s'.mem s.cr3 va' =
        if pathOf va' = pathOf va ∧ tableIndex va' 12 = tableIndex va 12 then leaf (pa ||| flags)
        else isPageMapped s.mem s.cr3 va' := by
  obtain ⟨s1, n, he, hn, hret⟩ := h.mapPage_ok hv hfresh pa flags
  have hst := he.structured
  refine ⟨_, hret, he.cr3, hst.withLeaf hv hn _, ?_, ?_⟩
  · rintro f ⟨q, hq, hf⟩
    exact he.isTable f ⟨q, hq, (hst.tableAt_withLeaf hv hn _ hq).symm.trans hf⟩
  · intro va' hv'
    rw [← he.cr3, hst.isPageMapped_withLeaf hv hn (pa ||| flags) hv', he.walk va' hv', he.cr3]

end Mmu

/-- Bits 48 to 63 repeat bit 47. -/
def Canonical (va : Nat) : Prop := va < 2 ^ 47 ∨ 2 ^ 64 - 2 ^ 47 ≤ va ∧ va < 2 ^ 64

theorem Canonical.page_eq (h : Canonical va) (h' : Canonical va')
    (hp : Mmu.pathOf va' = Mmu.pathOf va) (hi : tableIndex va' 12 = tableIndex va 12) :
    va' / pageSize = va / pageSize := by
  simp only [Mmu.pathOf, List.cons.injEq, and_true, tableIndex_eq, pageSize] at hp hi ⊢
  obtain ⟨h2, h3, h4⟩ := hp
  rcases h with h | h <;> rcases h' with h' | h' <;> omega

theorem present_or (h : present flags = true) : present (pa ||| flags) = true := by
  rw [present, decide_eq_true_eq] at h ⊢
  rw [Nat.or_mod_two_eq_one]
  exact .inr h

/-- `map_page` maps its page, leaves every other page alone and keeps the tables a tree. The frame
mapped must not be a table for the tables to stay unreachable as data. -/
theorem mapPage_correct {s : Mmu} (h : s.WellFormed) (hc : Canonical va)
    (hv : tableIndex va 39 ≠ pml4RecursiveEntryNum) (hflags : present flags = true)
    (hfresh : s.FreshPages (s.tablePages pid va)) (pa : Nat) :
    ∃ s', mapPage s pid va pa flags = .returned s' ∧ s'.cr3 = s.cr3 ∧
      isPageMapped s'.mem s.cr3 va = some (pa ||| flags) ∧
      (∀ va', Canonical va' → tableIndex va' 39 ≠ pml4RecursiveEntryNum →
        va' / pageSize ≠ va / pageSize →
        isPageMapped s'.mem s.cr3 va' = isPageMapped s.mem s.cr3 va') ∧
      s'.Structured ∧
      (¬ s.IsTable (frameOf (pa ||| flags)) →
        (∀ f, f * pageSize ∈ s.tablePages pid va → f ≠ frameOf (pa ||| flags) ∧ ¬ s.IsData f) →
        s'.WellFormed) := by
  obtain ⟨s', hret, hcr3, hst, htable, hwalk⟩ := h.toStructured.mapPage_walk hv hfresh pa flags
  have hleaf : Mmu.leaf (pa ||| flags) = some (pa ||| flags) := if_pos (present_or hflags)
  refine ⟨s', hret, hcr3, ?_, ?_, hst, ?_⟩
  · rw [hwalk va hv, if_pos ⟨rfl, rfl⟩, hleaf]
  · intro va' hc' hv' hne
    rw [hwalk va' hv', if_neg fun hh => hne (hc.page_eq hc' hh.1 hh.2)]
  · intro hpa hpages
    refine ⟨hst, ?_⟩
    rintro f hf ⟨va', e, hv', hm, rfl⟩
    rw [hcr3, hwalk va' hv'] at hm
    split at hm
    · rw [hleaf] at hm
      cases hm
      rcases htable _ hf with hold | hnew
      · exact hpa hold
      · exact (hpages _ hnew).1 rfl
    · rcases htable _ hf with hold | hnew
      · exact h.apart _ hold ⟨va', e, hv', hm, rfl⟩
      · exact (hpages _ hnew).2 ⟨va', e, hv', hm, rfl⟩

namespace Mmu

/-- The tables form a tree with a self-mapped PML4 as in a structured state, but other entries may
lead to them. -/
structure Treelike (s : Mmu) (Entry : Nat → Prop) : Prop where
  selfMapped : s.SelfMapped
  table : ∀ q n i, Path (i :: q) → s.tableAt q = some n → present (s.mem n i) = true →
    Entry (s.mem n i)
  distinct : Radix.Separated nextTable s.mem s.cr3 Path

/-- The table of `path` has tables below it, and entry `i` leads to one that is not the PML4. -/
def LeadsOn (path : List Nat) (i : Nat) : Prop :=
  path.length < 3 ∧ (path = [] → i ≠ pml4RecursiveEntryNum)

instance (path : List Nat) (i : Nat) : Decidable (LeadsOn path i) :=
  inferInstanceAs (Decidable (_ ∧ _))

theorem leadsOn_of_path (h : Path (i :: p)) : LeadsOn p i := by
  refine ⟨h.length, ?_⟩
  rintro rfl rfl
  exact h.start rfl

/-- `tables` are all the tables of a state, with their paths. -/
structure Lists (s : Mmu) (tables : List (List Nat × Nat)) : Prop where
  root : ([], s.cr3) ∈ tables
  step : ∀ t ∈ tables, ∀ i < 512, LeadsOn t.1 i → ∀ n ∈ nextTable (s.mem t.2 i),
    (i :: t.1, n) ∈ tables
  apart : ∀ t ∈ tables, ∀ u ∈ tables, t.2 = u.2 → t.1 = u.1

theorem Lists.mem {s : Mmu} (h : s.Lists tables) (hq : Path q) (hn : s.tableAt q = some n) :
    (q, n) ∈ tables :=
  mem_of_follow (fun _ _ => Path.tail) h.root
    (fun p n i n' hmem hp => h.step (p, n) hmem i (hp.index i List.mem_cons_self)
      (leadsOn_of_path hp) n') hq hn

theorem Lists.isTable {s : Mmu} (h : s.Lists tables) (hf : s.IsTable f) :
    f ∈ tables.map Prod.snd := by
  obtain ⟨q, hq, hn⟩ := hf
  exact List.mem_map_of_mem (h.mem hq hn)

theorem Lists.treelike {s : Mmu} (h : s.Lists tables) (hs : s.SelfMapped)
    (he : ∀ t ∈ tables, ∀ i < 512, LeadsOn t.1 i → present (s.mem t.2 i) = true →
      Entry (s.mem t.2 i)) : s.Treelike Entry where
  selfMapped := hs
  table q n i hq hn :=
    he (q, n) (h.mem hq.tail hn) i (hq.index i List.mem_cons_self) (leadsOn_of_path hq)
  distinct _ _ _ hp hq hn hn' := h.apart _ (h.mem hp hn) _ (h.mem hq hn') rfl

theorem Lists.freshPages {s : Mmu} (h : s.Lists tables) (hnodup : pages.Nodup)
    (hzero : 0 ∉ pages)
    (hfree : ∀ page ∈ pages, page / pageSize < 2 ^ 40 ∧ page / pageSize ∉ tables.map Prod.snd) :
    s.FreshPages pages := by
  refine ⟨hnodup, hzero, fun f hf => ?_⟩
  have hpage := hfree _ hf
  rw [Nat.mul_div_cancel f (by decide)] at hpage
  exact ⟨hpage.1, fun htable => hpage.2 (h.isTable htable)⟩

end Mmu

/-- The walk of an address behind a call of `map_page` that has written its entry. -/
def MapOutcome.walk (va : Nat) : MapOutcome → Option (Option Nat)
  | .returned s => some (isPageMapped s.mem s.cr3 va)
  | _ => none

/-- A PML4 in frame 5 that maps nothing but itself, and eight free frames from frame 8 on. -/
def bareMmu : Mmu where
  mem := set (fun _ _ => 0) 5 pml4RecursiveEntryNum (5 * pageSize + pageMapFlags)
  cr3 := 5
  allocator := { bitmap := fun i => if i < 8 then 1 else 0, numPages := 16, handedOut := [] }
  interruptsReady := true
  interruptFlag := true

theorem bareMmu_mem (hi : i ≠ pml4RecursiveEntryNum) : bareMmu.mem 5 i = 0 := by
  simp only [bareMmu]
  rw [set_of_ne _ _ (.inr hi)]

theorem bareMmu_lists : bareMmu.Lists [([], 5)] :=
  ⟨by decide, by decide +kernel, by decide⟩

theorem bareMmu_isTable (hf : bareMmu.IsTable f) : f = 5 :=
  List.mem_singleton.mp (bareMmu_lists.isTable hf)

theorem bareMmu_not_isData (f : Nat) : ¬ bareMmu.IsData f := by
  rintro ⟨va, e, hv, hm, _⟩
  have he : bareMmu.mem bareMmu.cr3 (tableIndex va 39) = 0 := bareMmu_mem hv
  rw [isPageMapped, he] at hm
  cases hm

theorem bareMmu_wellFormed : bareMmu.WellFormed := by
  have h : bareMmu.Treelike fun e => large e = false ∧ e < 2 ^ 52 :=
    bareMmu_lists.treelike ⟨by decide, by decide⟩ (by decide +kernel)
  exact ⟨⟨h.selfMapped, h.table, h.distinct⟩, fun f _ => bareMmu_not_isData f⟩

theorem bareMmu_tablePages : bareMmu.tablePages 2 0x400000 = [0x8000, 0x9000, 0xA000] := by
  decide

theorem bareMmu_freshPages : bareMmu.FreshPages (bareMmu.tablePages 2 0x400000) := by
  rw [bareMmu_tablePages]
  exact bareMmu_lists.freshPages (by decide) (by decide) (by decide)

theorem mapPage_correct_bareMmu : ∃ s', mapPage bareMmu 2 0x400000 0x64000 7 = .returned s' ∧
    isPageMapped s'.mem 5 0x400000 = some 0x64007 ∧ s'.WellFormed := by
  obtain ⟨s', hret, _, hmap, _, _, hwf⟩ := mapPage_correct bareMmu_wellFormed
    (.inl (by decide)) (by decide) (show present 7 = true by decide) bareMmu_freshPages 0x64000
  refine ⟨s', hret, hmap, hwf ?_ ?_⟩
  · intro hf
    exact absurd (bareMmu_isTable hf) (by decide)
  · intro f hf
    refine ⟨?_, bareMmu_not_isData f⟩
    rintro rfl
    exact absurd hf (by rw [bareMmu_tablePages]; decide)

/-- The first gigabyte is one large page. -/
def largeMmu : Mmu :=
  { bareMmu with
    mem := set (set bareMmu.mem 5 0 0x8007) 8 0 0x10087
    allocator := { bitmap := fun i => if i < 17 then 1 else 0, numPages := 32, handedOut := [] } }

/-- Nothing is to be executed in the first 512 GiB: bit 63 of the entry for them is set. -/
def noExecuteMmu : Mmu :=
  { bareMmu with
    mem := set bareMmu.mem 5 0 (2 ^ 63 + 0x8007)
    allocator := { bitmap := fun i => if i < 9 then 1 else 0, numPages := 32, handedOut := [] } }

theorem largeMmu_lists : largeMmu.Lists [([], 5), ([0], 8), ([0, 0], 16)] :=
  ⟨by decide, by decide +kernel, by decide⟩

theorem noExecuteMmu_lists : noExecuteMmu.Lists [([], 5), ([0], 8)] :=
  ⟨by decide, by decide +kernel, by decide⟩

theorem largeMmu_not_isData (f : Nat) : ¬ largeMmu.IsData f := by
  have h16 (i : Nat) : largeMmu.mem 16 i = 0 := by
    simp only [largeMmu, bareMmu]
    rw [set_of_ne _ _ (.inl (by decide)), set_of_ne _ _ (.inl (by decide)),
      set_of_ne _ _ (.inl (by decide))]
  have h8 {i : Nat} (hi : i ≠ 0) : largeMmu.mem 8 i = 0 := by
    simp only [largeMmu, bareMmu]
    rw [set_of_ne _ _ (.inr hi), set_of_ne _ _ (.inl (by decide)), set_of_ne _ _ (.inl (by decide))]
  have h5 {i : Nat} (hi : i ≠ 0) (hi' : i ≠ pml4RecursiveEntryNum) : largeMmu.mem 5 i = 0 := by
    simp only [largeMmu]
    rw [set_of_ne _ _ (.inl (by decide)), set_of_ne _ _ (.inr hi), bareMmu_mem hi']
  rintro ⟨va, e, hv, hm, _⟩
  have hroot : largeMmu.cr3 = 5 := rfl
  rw [isPageMapped, hroot] at hm
  by_cases h4 : tableIndex va 39 = 0
  · have he4 : largeMmu.mem 5 0 = 0x8007 := by decide
    rw [h4, he4] at hm
    by_cases h3 : tableIndex va 30 = 0
    · have he3 : largeMmu.mem (0x8007 / pageSize) 0 = 0x10087 := by decide
      have he2 : largeMmu.mem (0x10087 / pageSize) (tableIndex va 21) = 0 := h16 _
      simp only [h3, he3, he2] at hm
      cases hm
    · have he3 : largeMmu.mem (0x8007 / pageSize) (tableIndex va 30) = 0 := h8 h3
      simp only [he3] at hm
      cases hm
  · simp only [h5 h4 hv] at hm
    cases hm

theorem noExecuteMmu_not_isData (f : Nat) : ¬ noExecuteMmu.IsData f := by
  have h5 {i : Nat} (hi : i ≠ 0) (hi' : i ≠ pml4RecursiveEntryNum) : noExecuteMmu.mem 5 i = 0 := by
    simp only [noExecuteMmu]
    rw [set_of_ne _ _ (.inr hi), bareMmu_mem hi']
  rintro ⟨va, e, hv, hm, _⟩
  have hroot : noExecuteMmu.cr3 = 5 := rfl
  rw [isPageMapped, hroot] at hm
  by_cases h4 : tableIndex va 39 = 0
  · have he4 : noExecuteMmu.mem 5 0 = 2 ^ 63 + 0x8007 := by decide
    have he3 : noExecuteMmu.mem ((2 ^ 63 + 0x8007) / pageSize) (tableIndex va 30) = 0 := by
      simp only [noExecuteMmu, bareMmu]
      rw [set_of_ne _ _ (.inl (by decide)), set_of_ne _ _ (.inl (by decide))]
    simp only [h4, he4, he3] at hm
    cases hm
  · simp only [h5 h4 hv] at hm
    cases hm

/-- Mapping the PML4 itself as a page makes a table reachable as data. With a large page on the way,
or with a bit above the frame set in an entry, the page is not mapped for `is_page_mapped`. -/
theorem mapPage_of_table_frame : (bareMmu.WellFormed ∧ Canonical 0x400000 ∧
    tableIndex 0x400000 39 ≠ pml4RecursiveEntryNum ∧
    bareMmu.FreshPages (bareMmu.tablePages 2 0x400000) ∧
    ∃ s', mapPage bareMmu 2 0x400000 0x5000 7 = .returned s' ∧ ¬ s'.WellFormed) ∧
    (largeMmu.Treelike (· < 2 ^ 52) ∧ (∀ f, largeMmu.IsTable f → ¬ largeMmu.IsData f) ∧
      largeMmu.FreshPages (largeMmu.tablePages 2 0x400000) ∧
      (mapPage largeMmu 2 0x400000 0x64000 7).walk 0x400000 = some none) ∧
    noExecuteMmu.Treelike (large · = false) ∧
      (∀ f, noExecuteMmu.IsTable f → ¬ noExecuteMmu.IsData f) ∧
      noExecuteMmu.FreshPages (noExecuteMmu.tablePages 2 0x400000) ∧
      (mapPage noExecuteMmu 2 0x400000 0x64000 7).walk 0x400000 = some none := by
  refine ⟨⟨bareMmu_wellFormed, .inl (by decide), by decide, bareMmu_freshPages, ?_⟩, ?_, ?_⟩
  · obtain ⟨s', hret, hcr3, _, _, hwalk⟩ := bareMmu_wellFormed.toStructured.mapPage_walk
      (by decide) bareMmu_freshPages 0x5000 7
    refine ⟨s', hret, fun hwf => hwf.apart 5 ⟨[], Path.nil, congrArg some hcr3⟩ ?_⟩
    refine ⟨0x400000, 0x5007, by decide, ?_, by decide⟩
    rw [hcr3, hwalk 0x400000 (by decide), if_pos ⟨rfl, rfl⟩]
    rfl
  · refine ⟨largeMmu_lists.treelike ⟨by decide, by decide⟩ (by decide +kernel),
      fun f _ => largeMmu_not_isData f, ?_, by decide +kernel⟩
    have hpages : largeMmu.tablePages 2 0x400000 = [0x11000] := by decide +kernel
    rw [hpages]
    exact largeMmu_lists.freshPages (by decide) (by decide) (by decide)
  · refine ⟨noExecuteMmu_lists.treelike ⟨by decide, by decide⟩ (by decide +kernel),
      fun f _ => noExecuteMmu_not_isData f, ?_, by decide +kernel⟩
    have hpages : noExecuteMmu.tablePages 2 0x400000 = [0x9000, 0xA000] := by decide +kernel
    rw [hpages]
    exact noExecuteMmu_lists.freshPages (by decide) (by decide) (by decide)

end BiosKernel
