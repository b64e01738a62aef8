import BiosKernel.Paging.MapPage
import BiosKernel.Paging.Range

namespace BiosKernel
open Radix
set_option autoImplicit true

namespace Mmu

variable {s s' : Mmu}

/-- The state in which the paging functions work. -/
def masked (s : Mmu) : Mmu := { s with interruptsReady := false, interruptFlag := false }

/-- An entry, as it is seen through the recursive window, is present. -/
def hasEntry (s : Mmu) (p : List Nat) (i : Nat) : Bool :=
  (s.loadEntry (windowAddr p + 8 * i)).any present

def hasPath (s : Mmu) : List Nat → Bool
  | [] => true
  | i :: p => s.hasPath p && s.hasEntry p i

/-- The checks of `unmap_page`, for any depth: a missing entry ends the call. -/
def checkPath (s : Mmu) : List Nat → Option Mmu → Option Mmu
  | [], r => r
  | i :: p, r => s.checkPath p <|
      (s.loadEntry (windowAddr p + 8 * i)).bind fun e => if !present e then some s else r

theorem unmapPage_eq (s : Mmu) (va : Nat) : unmapPage s va =
    s.masked.checkPath (tableIndex va 12 :: pathOf va)
      ((s.masked.storeEntry (windowAddr (pathOf va) + 8 * tableIndex va 12) 0).map fun s =>
        { s with interruptsReady := true, interruptFlag := true }) := rfl

theorem checkPath_present (h : s.hasPath p = true) (r : Option Mmu) : s.checkPath p r = r := by
  induction p generalizing r with
  | nil => rfl
  | cons i p ih =>
    rw [hasPath, Bool.and_eq_true, hasEntry] at h
    cases hl : s.loadEntry (windowAddr p + 8 * i) with
    | none =>
      rw [hl] at h
      cases h.2
    | some e =>
      rw [hl, Option.any_some] at h
      rw [checkPath, ih h.1, hl, Option.bind_some, h.2]
      rfl

theorem checkPath_missing (h : s.hasPath p = false) (hr : s.checkPath p r = some s') :
    s' = s := by
  induction p generalizing r with
  | nil => cases h
  | cons i p ih =>
    cases hp : s.hasPath p with
    | false => exact ih hp hr
    | true =>
      rw [hasPath, hp, Bool.true_and, hasEntry] at h
      rw [checkPath, checkPath_present hp] at hr
      obtain ⟨e, he, hr⟩ := Option.bind_eq_some_iff.mp hr
      rw [he, Option.any_some] at h
      rw [h] at hr
      cases hr
      rfl

theorem Structured.hasEntry_eq (h : s.Structured) (hp : Path p) (hn : s.tableAt p = some n)
    (hi : i < 512) : s.hasEntry p i = present (s.mem n i) := by
  rw [hasEntry, h.loadEntry_window hp hn hi]
  rfl

theorem Structured.hasPath_eq (h : s.Structured) (hp : Path p) :
    s.hasPath p = (s.tableAt p).isSome := by
  induction p with
  | nil => rfl
  | cons i p ih =>
    rw [hasPath, ih hp.tail]
    cases hn : s.tableAt p with
    | none =>
      rw [tableAt] at hn
      rw [tableAt, follow, hn]
      rfl
    | some n =>
      rw [h.hasEntry_eq hp.tail hn (hp.index i (by simp)), tableAt_cons hn, nextTable_isSome]
      rfl

theorem Structured.hasPath_page (h : s.Structured)
    (hv : tableIndex va 39 ≠ pml4RecursiveEntryNum) :
    s.hasPath (tableIndex va 12 :: pathOf va) = (isPageMapped s.mem s.cr3 va).isSome := by
  have hp := pathOf_path hv
  rw [hasPath, h.hasPath_eq hp, h.isPageMapped_eq hv]
  cases hn : s.tableAt (pathOf va) with
  | none => rfl
  | some n =>
    rw [h.hasEntry_eq hp hn (tableIndex_lt va 12), Option.bind_some, leaf]
    cases present (s.mem n (tableIndex va 12)) <;> rfl

theorem Structured.checkPath_returns (h : s.Structured) (hp : Path p) (hi : i < 512)
    (hx : s.hasPath (i :: p) = false) (r : Option Mmu) : s.checkPath (i :: p) r = some s := by
  induction p generalizing i r with
  | nil =>
    rw [hasPath, hasPath, Bool.true_and, h.hasEntry_eq hp rfl hi] at hx
    rw [checkPath, checkPath, h.loadEntry_window hp rfl hi, Option.bind_some, hx]
    rfl
  | cons j p ih =>
    cases hq : s.hasPath (j :: p) with
    | false => exact ih hp.tail (hp.index j (by simp)) hq _
    | true =>
      have hsome := (h.hasPath_eq hp).symm.trans hq
      obtain ⟨n, hn⟩ := Option.isSome_iff_exists.mp hsome
      rw [hasPath, hq, Bool.true_and, h.hasEntry_eq hp hn hi] at hx
      rw [checkPath, checkPath_present hq, h.loadEntry_window hp hn hi, Option.bind_some, hx]
      rfl

theorem Structured.masked (h : s.Structured) : s.masked.Structured :=
  ⟨⟨h.selfMapped.self, h.selfMapped.small⟩, h.table, h.distinct⟩

theorem Structured.unmapPage_unmapped (h : s.Structured)
    (hv : tableIndex va 39 ≠ pml4RecursiveEntryNum) (hm : isPageMapped s.mem s.cr3 va = none) :
    unmapPage s va = some s.masked := by
  have hx : s.masked.hasPath (tableIndex va 12 :: pathOf va) = false := by
    rw [h.masked.hasPath_page hv]
    exact congrArg Option.isSome hm
  rw [unmapPage_eq, h.masked.checkPath_returns (pathOf_path hv) (tableIndex_lt va 12) hx]

theorem Structured.unmapPage_mapped (h : s.Structured)
    (hv : tableIndex va 39 ≠ pml4RecursiveEntryNum) (hm : isPageMapped s.mem s.cr3 va = some e) :
    ∃ n, s.tableAt (pathOf va) = some n ∧
      unmapPage s va = some (s.withLeaf n (tableIndex va 12) 0) := by
  have hx : s.masked.hasPath (tableIndex va 12 :: pathOf va) = true := by
    rw [h.masked.hasPath_page hv]
    exact congrArg Option.isSome hm
  rw [h.isPageMapped_eq hv] at hm
  obtain ⟨n, hn, _⟩ := Option.bind_eq_some_iff.mp hm
  have hst := h.masked.storeEntry_window (pathOf_path hv) hn (tableIndex_lt va 12)
    s.masked.allocator 0
  refine ⟨n, hn, ?_⟩
  rw [unmapPage_eq, checkPath_present hx]
  exact congrArg (Option.map _) hst

/-- What `unmap_page` does to the walk and to the tables. -/
theorem Structured.unmapPage_walk (h : s.Structured)
    (hv : tableIndex va 39 ≠ pml4RecursiveEntryNum) :
    ∃ s', unmapPage s va = some s' ∧ s'.cr3 = s.cr3 ∧ s'.Structured ∧
      (∀ q, Path q → s'.tableAt q = s.tableAt q) ∧
      (isPageMapped s.mem s.cr3 va = none → s'.mem = s.mem) ∧
      ∀ va', tableIndex va' 39 ≠ pml4RecursiveEntryNum → isPageMapped s'.mem s.cr3 va' =
        if pathOf va' = pathOf va ∧ tableIndex va' 12 = tableIndex va 12 then none
        else isPageMapped s.mem s.cr3 va' := by
  cases hm : isPageMapped s.mem s.cr3 va with
  | none =>
    refine ⟨s.masked, h.unmapPage_unmapped hv hm, rfl, h.masked, fun _ _ => rfl, fun _ => rfl, ?_⟩
    intro va' hv'
    split
    · next hsame =>
      rw [h.isPageMapped_eq hv] at hm
      refine (h.isPageMapped_eq hv').trans ?_
      rw [hsame.1, hsame.2]
      exact hm
    · rfl
  | some e =>
    obtain ⟨n, hn, hu⟩ := h.unmapPage_mapped hv hm
    refine ⟨_, hu, rfl, h.withLeaf hv hn 0, fun q hq => h.tableAt_withLeaf hv hn 0 hq, ?_, ?_⟩
    · intro hh
      cases hh
    · intro va' hv'
      exact h.isPageMapped_withLeaf hv hn 0 hv'

end Mmu

/-- What holds where `map_page` gives up for want of a frame, and where it goes on. -/
def MapOutcome.Ends (P Q : Mmu → Prop) : MapOutcome → Prop
  | .pageFault => True
  | .outOfFrames s => P s
  | .returned s => Q s

theorem MapOutcome.Ends.andThen {o : MapOutcome} {f : Mmu → MapOutcome} (ho : o.Ends P Q)
    (hf : ∀ s, Q s → (f s).Ends P R) : (o.andThen f).Ends P R := by
  cases o with
  | pageFault => trivial
  | outOfFrames s => exact ho
  | returned s => exact hf s ho

namespace Mmu

variable {s s' : Mmu}

/-- No frame that the allocator holds free is a table, or has a number too large for an entry. -/
def FreeApart (s : Mmu) : Prop :=
  ∀ f < s.allocator.numPages, s.allocator.bitmap f = 0 → f < 2 ^ 40 ∧ ¬ s.IsTable f

structure SameWalks (s s' : Mmu) : Prop where
  structured : s'.Structured
  cr3 : s'.cr3 = s.cr3
  walk : ∀ va, tableIndex va 39 ≠ pml4RecursiveEntryNum →
    isPageMapped s'.mem s'.cr3 va = isPageMapped s.mem s.cr3 va

/-- With 0 stored as its owner, a frame made into a table is still the first free one. -/
structure Repeats (s : Mmu) (pid n : Nat) : Prop where
  byte : pid % 256 = 0
  empty : ∀ i, s.mem n i = 0
  first : s.allocator.firstFree = some n
  nonzero : n ≠ 0
  low : n < 2 ^ 40

/-- The table of a path, behind the steps of `map_page` that are to make it. -/
def Reaches (s : Mmu) (pid : Nat) (p : List Nat) : Prop :=
  s.tableAt p = none ∨ ∃ n, s.tableAt p = some n ∧ (s.FreeApart ∨ s.Repeats pid n)

theorem Structured.withAllocator (h : s.Structured) (a : PageFrameAllocator) :
    { s with allocator := a }.Structured :=
  ⟨⟨h.selfMapped.self, h.selfMapped.small⟩, h.table, h.distinct⟩

theorem SameWalks.with_allocator (h : s.SameWalks s') (a : PageFrameAllocator) :
    s.SameWalks { s' with allocator := a } :=
  ⟨h.structured.withAllocator a, h.cr3, h.walk⟩

theorem ensureTable_outOfFrames {i : Nat} (hl : s.loadEntry (windowAddr p + 8 * i) = some e)
    (hpr : present e = false) (ha : allocatePage s.allocator pid = (0, a)) (child : Nat) :
    ensureTable s pid (windowAddr p) i child = .outOfFrames { s with allocator := a } := by
  rw [ensureTable, hl]
  simp only [hpr, Bool.false_eq_true, ↓reduceIte, ha]

theorem ensureTable_pageFault (h : s.Structured) (hp : Path (i :: p)) (hn : s.tableAt p = none)
    (pid child : Nat) : ensureTable s pid (windowAddr p) i child = .pageFault := by
  have hl : s.loadEntry (windowAddr p + 8 * i) = none := by
    rw [loadEntry, h.translate_window hp.tail (hp.index i (by simp)), hn]
    rfl
  rw [ensureTable, hl]

theorem SameWalks.ensureTable_fresh (hw : s.SameWalks s') (hp : Path (i :: p))
    (hn : s'.tableAt p = some n) (hpr : present (s'.mem n i) = false) (hfree : s'.FreeApart)
    (hfirst : s'.allocator.firstFree = some f) (hf : f ≠ 0) :
    (ensureTable s' pid (windowAddr p) i (windowAddr (i :: p))).Ends (s.SameWalks ·)
      fun u => s.SameWalks u ∧ u.Reaches pid (i :: p) := by
  have h := hw.structured
  obtain ⟨h0, _, hlt, _⟩ := scanFree_some hfirst
  rw [Nat.zero_add] at hlt
  obtain ⟨hlt', hnew⟩ := hfree f hlt h0
  have ha : allocatePage s'.allocator pid = (f * pageSize, s'.allocator.take f pid) := by
    rw [allocatePage, hfirst]
  have hat {q : List Nat} (hq : Path q) :=
    h.follow_withTable hp hn hpr hlt' hnew (s'.allocator.take f pid) hq
  rw [h.ensureTable_missing hp hn hpr ha hf hlt']
  refine ⟨⟨h.withTable hp hn hpr hlt' hnew _, hw.cr3, ?_⟩, .inr ⟨f, ?_, ?_⟩⟩
  · intro va hv
    exact (h.isPageMapped_withTable hp hn hpr hlt' hnew _ hv).trans (hw.walk va hv)
  · rw [hat hp, if_pos rfl]
  · by_cases hbyte : pid % 256 = 0
    · have hsame : Function.update s'.allocator.bitmap f (pid % 256) = s'.allocator.bitmap := by
        rw [hbyte, ← h0, Function.update_eq_self]
      refine .inr ⟨hbyte, fun j => graft_child s'.mem n i _ f 0 j, ?_, hf, hlt'⟩
      exact (congrArg (scanFree · s'.allocator.numPages 0) hsame).trans hfirst
    · refine .inl ?_
      intro g hg hg0
      have hgf : g ≠ f := by
        rintro rfl
        exact hbyte ((Function.update_self ..).symm.trans hg0)
      have hg0 : s'.allocator.bitmap g = 0 := (Function.update_of_ne hgf ..).symm.trans hg0
      obtain ⟨hglt, hgnew⟩ := hfree g hg hg0
      refine ⟨hglt, ?_⟩
      rintro ⟨q, hq, hgq⟩
      have hgq := (hat hq).symm.trans hgq
      by_cases hqi : q = i :: p
      · rw [if_pos hqi] at hgq
        exact hgf (Option.some.inj hgq).symm
      · rw [if_neg hqi] at hgq
        exact hgnew ⟨q, hq, hgq⟩

/-- The frame is taken a second time: its only entry is cleared with it, and the new table is out
of reach. -/
theorem SameWalks.ensureTable_repeated (hw : s.SameWalks s') (hp : Path (i :: p))
    (hn : s'.tableAt p = some n) (hr : s'.Repeats pid n) :
    (ensureTable s' pid (windowAddr p) i (windowAddr (i :: p))).Ends (s.SameWalks ·)
      fun u => s.SameWalks u ∧ u.Reaches pid (i :: p) := by
  have h := hw.structured
  have ha : allocatePage s'.allocator pid = (n * pageSize, s'.allocator.take n pid) := by
    rw [allocatePage, hr.first]
  have hpr : present (s'.mem n i) = false := by
    rw [hr.empty]
    rfl
  have hmem : (s'.withTable (s'.allocator.take n pid) n i n).mem = s'.mem := by
    funext m j
    by_cases hm : m = n
    · rw [hm, withTable_mem, graft_child, hr.empty]
    · rw [withTable_mem, graft_of_ne s'.mem _ 0 hm (.inl hm)]
  have hsame : s'.withTable (s'.allocator.take n pid) n i n =
      { s' with allocator := s'.allocator.take n pid } := by
    rw [withTable_mem] at hmem
    rw [Mmu.withTable, hmem]
  rw [h.ensureTable_missing hp hn hpr ha hr.nonzero hr.low, hsame]
  refine ⟨hw.with_allocator _, .inl ?_⟩
  refine (tableAt_cons hn).trans ?_
  rw [nextTable, hpr]
  rfl

theorem SameWalks.ensureTable (hw : s.SameWalks s') (hp : Path (i :: p))
    (hr : s'.Reaches pid p) :
    (ensureTable s' pid (windowAddr p) i (windowAddr (i :: p))).Ends (s.SameWalks ·)
      fun u => s.SameWalks u ∧ u.Reaches pid (i :: p) := by
  have h := hw.structured
  rcases hr with hn | ⟨n, hn, hr⟩
  · rw [ensureTable_pageFault h hp hn]
    trivial
  cases hpr : present (s'.mem n i) with
  | true =>
    rw [h.ensureTable_present hp hn hpr]
    refine ⟨hw, .inr ⟨frameOf (s'.mem n i), ?_, .inl ?_⟩⟩
    · rw [tableAt_cons hn, nextTable, if_pos hpr]
    · refine hr.resolve_right fun hr => ?_
      rw [hr.empty] at hpr
      cases hpr
  | false =>
    rcases hr with hfree | hr
    · have hl := h.loadEntry_window hp.tail hn (hp.index i (by simp))
      have hout (a : PageFrameAllocator) (ha : allocatePage s'.allocator pid = (0, a)) :
          (BiosKernel.ensureTable s' pid (windowAddr p) i (windowAddr (i :: p))).Ends
            (s.SameWalks ·) fun u => s.SameWalks u ∧ u.Reaches pid (i :: p) := by
        rw [ensureTable_outOfFrames hl hpr ha]
        exact hw.with_allocator a
      cases hfirst : s'.allocator.firstFree with
      | none => exact hout s'.allocator (by rw [allocatePage, hfirst])
      | some f =>
        by_cases hf : f = 0
        · subst hf
          exact hout (s'.allocator.take 0 pid) (by simp only [allocatePage, hfirst, Nat.zero_mul])
        · exact hw.ensureTable_fresh hp hn hpr hfree hfirst hf
    · exact hw.ensureTable_repeated hp hn hr

theorem Structured.ensurePath_ends (h : s.Structured) (hfree : s.FreeApart) (hp : Path p)
    (pid : Nat) : (s.ensurePath pid p).Ends (s.SameWalks ·)
      fun u => s.SameWalks u ∧ u.Reaches pid p := by
  induction p with
  | nil => exact ⟨⟨h, rfl, fun _ _ => rfl⟩, .inr ⟨s.cr3, rfl, .inl hfree⟩⟩
  | cons i p ih =>
    rw [ensurePath]
    refine (ih hp.tail).andThen ?_
    rintro u ⟨hw, hr⟩
    exact hw.ensureTable hp hr

theorem Structured.mapPage_others (h : s.Structured) (hfree : s.FreeApart)
    (hv : tableIndex va 39 ≠ pml4RecursiveEntryNum)
    (hs : (mapPage s pid va pa flags).state = some s') :
    s'.Structured ∧ s'.cr3 = s.cr3 ∧
      ∀ va', tableIndex va' 39 ≠ pml4RecursiveEntryNum →
        ¬ (pathOf va' = pathOf va ∧ tableIndex va' 12 = tableIndex va 12) →
        isPageMapped s'.mem s.cr3 va' = isPageMapped s.mem s.cr3 va' := by
  have hends := h.masked.ensurePath_ends hfree (pathOf_path hv) pid
  rw [mapPage_eq] at hs
  change ((s.masked.ensurePath pid (pathOf va)).andThen _).state = some s' at hs
  cases ho : s.masked.ensurePath pid (pathOf va) with
  | pageFault =>
    rw [ho] at hs
    cases hs
  | outOfFrames u =>
    rw [ho] at hs hends
    cases hs
    have hcr3 : s'.cr3 = s.cr3 := hends.cr3
    refine ⟨hends.structured, hcr3, fun va' hv' _ => ?_⟩
    rw [← hcr3]
    exact (hends.walk va' hv').trans (by rw [hcr3]; rfl)
  | returned u =>
    rw [ho] at hs hends
    obtain ⟨hw, hr⟩ := hends
    have hst := hw.structured
    rcases hr with hn | ⟨n, hn, _⟩
    · have hstore : u.storeEntry (windowAddr (pathOf va) + 8 * tableIndex va 12) (pa ||| flags) =
          none := by
        rw [storeEntry, hst.translate_window (pathOf_path hv) (tableIndex_lt va 12), hn]
        rfl
      simp only [MapOutcome.andThen, hstore] at hs
      cases hs
    · have hstore := hst.storeEntry_window (pathOf_path hv) hn (tableIndex_lt va 12) u.allocator
        (pa ||| flags)
      simp only [MapOutcome.andThen, hstore] at hs
      cases hs
      refine ⟨hst.withLeaf hv hn _, hw.cr3, ?_⟩
      intro va' hv' hne
      have hleaf := hst.isPageMapped_withLeaf hv hn (pa ||| flags) hv'
      rw [if_neg hne, hw.walk va' hv', hw.cr3] at hleaf
      exact hleaf

end Mmu

/-- `unmap_page` removes the translation of its page and nothing else, and it undoes `map_page`. -/
theorem unmapPage_correct {s : Mmu} (h : s.Structured) (hc : Canonical va)
    (hv : tableIndex va 39 ≠ pml4RecursiveEntryNum) :
    ∃ s', unmapPage s va = some s' ∧ s'.cr3 = s.cr3 ∧ isPageMapped s'.mem s.cr3 va = none ∧
      (∀ va', Canonical va' → tableIndex va' 39 ≠ pml4RecursiveEntryNum →
        va' / pageSize ≠ va / pageSize →
        isPageMapped s'.mem s.cr3 va' = isPageMapped s.mem s.cr3 va') ∧
      (∀ f, s'.IsTable f ↔ s.IsTable f) ∧
      (isPageMapped s.mem s.cr3 va = none → s'.mem = s.mem) ∧
      (s.FreeApart → ∀ pid pa flags s₁, (mapPage s pid va pa flags).state = some s₁ →
        ∃ s₂, unmapPage s₁ va = some s₂ ∧ s₂.cr3 = s.cr3 ∧
          ∀ va', tableIndex va' 39 ≠ pml4RecursiveEntryNum →
            isPageMapped s₂.mem s.cr3 va' = isPageMapped s'.mem s.cr3 va') := by
  obtain ⟨s', hret, hcr3, _, htable, hmem, hwalk⟩ := h.unmapPage_walk hv
  refine ⟨s', hret, hcr3, ?_, ?_, ?_, hmem, ?_⟩
  · rw [hwalk va hv, if_pos ⟨rfl, rfl⟩]
  · intro va' hc' hv' hne
    rw [hwalk va' hv', if_neg fun hh => hne (hc.page_eq hc' hh.1 hh.2)]
  · intro f
    constructor
    · rintro ⟨q, hq, hf⟩
      exact ⟨q, hq, (htable q hq).symm.trans hf⟩
    · rintro ⟨q, hq, hf⟩
      exact ⟨q, hq, (htable q hq).trans hf⟩
  · intro hfree pid pa flags s₁ hs₁
    obtain ⟨hst₁, hcr3₁, hothers⟩ := h.mapPage_others hfree hv hs₁
    obtain ⟨s₂, hret₂, hcr3₂, _, _, _, hwalk₂⟩ := hst₁.unmapPage_walk hv
    refine ⟨s₂, hret₂, hcr3₂.trans hcr3₁, ?_⟩
    intro va' hv'
    rw [hcr3₁] at hwalk₂
    rw [hwalk va' hv', hwalk₂ va' hv']
    split
    · rfl
    · next hne => exact hothers va' hv' hne

theorem bareMmu_freeApart : bareMmu.FreeApart := by
  intro f hlt hf
  refine ⟨Nat.lt_trans hlt (by decide), fun htab => ?_⟩
  rw [bareMmu_isTable htab] at hf
  cases hf

theorem unmapPage_correct_bareMmu : ∃ s₁ s₂, mapPage bareMmu 2 0x400000 0x64000 7 = .returned s₁ ∧
    unmapPage s₁ 0x400000 = some s₂ ∧ isPageMapped s₁.mem 5 0x400000 = some 0x64007 ∧
    isPageMapped s₂.mem 5 0x400000 = none := by
  obtain ⟨s₁, hs₁, _, _, _, hwalk⟩ := bareMmu_wellFormed.toStructured.mapPage_walk
    (by decide) bareMmu_freshPages 0x64000 7
  have hv : tableIndex 0x400000 39 ≠ pml4RecursiveEntryNum := by decide
  obtain ⟨s', hs', _, hnone, _, _, _, hafter⟩ :=
    unmapPage_correct bareMmu_wellFormed.toStructured (.inl (by decide)) hv
  obtain ⟨s₂, hs₂, _, hsame⟩ := hafter bareMmu_freeApart 2 0x64000 7 s₁
    (congrArg MapOutcome.state hs₁)
  refine ⟨s₁, s₂, hs₁, hs₂, ?_, (hsame _ hv).trans hnone⟩
  exact hwalk _ hv

/-- The walk of an address behind a call that returns. -/
def walkAfter (returned : Option Mmu) (va : Nat) : Option (Option Nat) :=
  returned.map fun s => isPageMapped s.mem s.cr3 va

/-- One page is mapped, by the page table in frame 10, and the allocator holds that frame free. -/
def tableListedFree : Mmu :=
  { (mapPage bareMmu 2 0x400000 0x64000 7).state.getD bareMmu with
    allocator := { bareMmu.allocator with bitmap := fun i => if i < 10 then 1 else 0 } }

theorem tableListedFree_structured : tableListedFree.Structured := by
  obtain ⟨s, hs, _, hst, _⟩ := bareMmu_wellFormed.toStructured.mapPage_walk
    (by decide) bareMmu_freshPages 0x64000 7
  have he : (mapPage bareMmu 2 0x400000 0x64000 7).state.getD bareMmu = s := by
    rw [hs]
    rfl
  rw [tableListedFree, he]
  exact hst.withAllocator _

/-- What is taken for the tables below a large page maps a page. -/
def largeMappedMmu : Mmu :=
  { largeMmu with mem := set (set largeMmu.mem 16 2 0x11007) 17 0 0x64007 }

/-- The tables below an entry with bit 63 map a page. -/
def noExecuteMappedMmu : Mmu :=
  { noExecuteMmu with
    mem := set (set (set noExecuteMmu.mem 8 0 0x9007) 9 2 0xA007) 10 0 0x64007 }

theorem largeMappedMmu_lists :
    largeMappedMmu.Lists [([], 5), ([0], 8), ([0, 0], 16), ([2, 0, 0], 17)] :=
  ⟨by decide, by decide +kernel, by decide⟩

theorem noExecuteMappedMmu_lists :
    noExecuteMappedMmu.Lists [([], 5), ([0], 8), ([0, 0], 9), ([2, 0, 0], 10)] :=
  ⟨by decide, by decide +kernel, by decide⟩

/-- The tables that `map_page` has made stay, which the walks through the recursive entry show.
A table that the allocator holds free is made into another one, and the pages that it maps are
lost. With a large page on the way the page stays mapped for `is_page_mapped`; with a bit above the
frame set in an entry a page is unmapped that is none for it. -/
theorem unmapPage_leaves_tables :
    (walkAfter ((mapPage bareMmu 2 0x400000 0x64000 7).state.bind (unmapPage · 0x400000))
        0xFFFFFFFFFFE00000 = some (some 0x8007) ∧
      walkAfter (unmapPage bareMmu 0x400000) 0xFFFFFFFFFFE00000 = some none) ∧
    (tableListedFree.Structured ∧
      walkAfter ((mapPage tableListedFree 2 0x8000000000 0x65000 7).state.bind
        (unmapPage · 0x8000000000)) 0x400000 = some (some 0xB007) ∧
      walkAfter (unmapPage tableListedFree 0x8000000000) 0x400000 = some (some 0x64007)) ∧
    (largeMappedMmu.Treelike (· < 2 ^ 52) ∧
      walkAfter (unmapPage largeMappedMmu 0x400000) 0x400000 = some (some 0x64007)) ∧
    noExecuteMappedMmu.Treelike (large · = false) ∧
      isPageMapped noExecuteMappedMmu.mem noExecuteMappedMmu.cr3 0x400000 = none ∧
      noExecuteMappedMmu.mem 10 0 = 0x64007 ∧
      (unmapPage noExecuteMappedMmu 0x400000).map (·.mem 10 0) = some 0 := by
  refine ⟨⟨by decide +kernel, by decide +kernel⟩,
    ⟨tableListedFree_structured, by decide +kernel, by decide +kernel⟩, ⟨?_, by decide +kernel⟩, ?_,
    by decide +kernel, by decide, by decide +kernel⟩
  · exact largeMappedMmu_lists.treelike ⟨by decide, by decide⟩ (by decide +kernel)
  · exact noExecuteMappedMmu_lists.treelike ⟨by decide, by decide⟩ (by decide +kernel)

end BiosKernel
