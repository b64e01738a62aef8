import BiosKernel.Paging.Walk

namespace BiosKernel
open Radix
set_option autoImplicit true

namespace Mmu

variable {s s' : Mmu}

/-- The tables form a tree below the PML4, and its last entry leads back to it. -/
structure Structured (s : Mmu) : Prop where
  selfMapped : s.SelfMapped
  table : ∀ q n i, Path (i :: q) → s.tableAt q = some n → present (s.mem n i) = true →
    large (s.mem n i) = false ∧ s.mem n i < 2 ^ 52
  distinct : Radix.Separated nextTable s.mem s.cr3 Path

def IsTable (s : Mmu) (f : Nat) : Prop := Radix.Reached nextTable s.mem s.cr3 Path f

def IsData (s : Mmu) (f : Nat) : Prop :=
  ∃ va e, tableIndex va 39 ≠ pml4RecursiveEntryNum ∧ isPageMapped s.mem s.cr3 va = some e ∧
    frameOf e = f

structure WellFormed (s : Mmu) : Prop extends Structured s where
  apart : ∀ f, s.IsTable f → ¬ s.IsData f

/-- The path of the page table that maps an address. -/
def pathOf (va : Nat) : List Nat := [tableIndex va 21, tableIndex va 30, tableIndex va 39]

theorem pathOf_path (h : tableIndex va 39 ≠ pml4RecursiveEntryNum) : Path (pathOf va) := by
  refine ⟨by simp [pathOf], ?_, ?_⟩
  · simp only [pathOf, List.mem_cons, List.not_mem_nil, or_false]
    rintro i (rfl | rfl | rfl) <;> exact tableIndex_lt _ _
  · simpa [pathOf] using h

def leaf (e : Nat) : Option Nat := if present e then some e else none

theorem frameOf_of_lt (h : e < 2 ^ 52) : frameOf e = e / pageSize := by
  rw [frameOf, pageSize]
  exact Nat.mod_eq_of_lt (by omega)

theorem Structured.isPageMapped_eq (h : s.Structured)
    (hv : tableIndex va 39 ≠ pml4RecursiveEntryNum) : isPageMapped s.mem s.cr3 va =
      (s.tableAt (pathOf va)).bind fun n => leaf (s.mem n (tableIndex va 12)) := by
  have hp := pathOf_path hv
  have h4 := h.table [] s.cr3 (tableIndex va 39) hp.tail.tail rfl
  have h3 := h.table [tableIndex va 39]
  have h2 := h.table [tableIndex va 30, tableIndex va 39]
  simp only [pathOf, tableAt, follow, nextTable, Option.bind_some] at h3 h2 ⊢
  rw [isPageMapped]
  cases he4 : present (s.mem s.cr3 (tableIndex va 39)) with
  | false => rfl
  | true =>
    rw [he4] at h3 h2
    simp only [Bool.not_true, Bool.false_eq_true, ↓reduceIte, Option.bind_some,
      ← frameOf_of_lt (h4 he4).2] at h2 ⊢
    have h3 := h3 _ (tableIndex va 30) hp.tail rfl
    cases he3 : present (s.mem (frameOf (s.mem s.cr3 (tableIndex va 39))) (tableIndex va 30)) with
    | false => rfl
    | true =>
      rw [he3] at h2
      simp only [Bool.not_true, Bool.false_eq_true, ↓reduceIte, Option.bind_some,
        ← frameOf_of_lt (h3 he3).2] at h2 ⊢
      have h2 := h2 _ (tableIndex va 21) hp rfl
      generalize frameOf (s.mem (frameOf (s.mem s.cr3 (tableIndex va 39))) (tableIndex va 30)) = n
        at h2 ⊢
      cases he2 : present (s.mem n (tableIndex va 21)) with
      | false => rfl
      | true =>
        simp only [Bool.not_true, Bool.false_eq_true, ↓reduceIte, Option.bind_some,
          ← frameOf_of_lt (h2 he2).2, leaf]
        cases present (s.mem (frameOf (s.mem n (tableIndex va 21))) (tableIndex va 12)) <;> rfl

theorem Structured.self_ne (h : s.Structured) (hp : Path (i :: p)) (hn : s.tableAt p = some n) :
    s.cr3 ≠ n ∨ pml4RecursiveEntryNum ≠ i := by
  by_cases hc : s.cr3 = n
  · right
    subst hc
    have he := h.distinct p [] s.cr3 hp.tail Path.nil hn rfl
    subst he
    intro hi
    exact hp.start (by rw [← hi]; rfl)
  · exact .inl hc

theorem Structured.translate_window (h : s.Structured) (hq : Path q) (hx : x < 512) :
    s.translate (windowAddr q + 8 * x) = s.tableAt q := by
  apply h.selfMapped.translate_window hq hx
  intro p j n hs hn hpr
  have hqt : Path q.tail := by
    cases q with
    | nil => exact hq
    | cons i q => exact hq.tail
  exact (h.table p n j (hqt.of_suffix hs) hn hpr).1

theorem newEntry (hf : f < 2 ^ 40) :
    present (f * pageSize ||| pageMapFlags) = true ∧
    large (f * pageSize ||| pageMapFlags) = false ∧
    frameOf (f * pageSize ||| pageMapFlags) = f ∧ f * pageSize ||| pageMapFlags < 2 ^ 52 := by
  have he : f * pageSize ||| pageMapFlags = f * 4096 + 7 := by
    have ho := Nat.two_pow_add_eq_or_of_lt (i := 12) (b := 7) (by decide) f
    rw [pageSize, pageMapFlags, Nat.mul_comm f 4096]
    exact ho.symm
  rw [he]
  refine ⟨?_, ?_, ?_, by omega⟩
  · rw [present, decide_eq_true_eq]
    omega
  · rw [large, decide_eq_false_iff_not]
    omega
  · rw [frameOf, pageSize]
    omega

/-- The state after a missing table has been made: the entry written, the frame cleared. -/
def withTable (s : Mmu) (allocator : PageFrameAllocator) (n i f : Nat) : Mmu :=
  { s with allocator, mem := graft s.mem n i (f * pageSize ||| pageMapFlags) f 0 }

theorem withTable_mem (s : Mmu) (a : PageFrameAllocator) (n i f : Nat) :
    (s.withTable a n i f).mem = graft s.mem n i (f * pageSize ||| pageMapFlags) f 0 := rfl

theorem Structured.follow_withTable (h : s.Structured) (hp : Path (i :: p))
    (hn : s.tableAt p = some n) (hnone : present (s.mem n i) = false) (hf : f < 2 ^ 40)
    (hfree : ¬ s.IsTable f) (a : PageFrameAllocator) (hq : Path q) :
    (s.withTable a n i f).tableAt q = if q = i :: p then some f else s.tableAt q := by
  obtain ⟨hpr, _, hfr, _⟩ := newEntry hf
  apply h.distinct.follow_graft (fun _ _ hh => hh.tail) hp.tail hn
  · rw [nextTable, hnone]
    rfl
  · rw [nextTable, if_pos hpr, hfr]
  · rfl
  · exact hfree
  · exact hq

theorem Structured.withTable (h : s.Structured) (hp : Path (i :: p)) (hn : s.tableAt p = some n)
    (hnone : present (s.mem n i) = false) (hf : f < 2 ^ 40) (hfree : ¬ s.IsTable f)
    (a : PageFrameAllocator) : (s.withTable a n i f).Structured := by
  obtain ⟨hpr, hlg, hfr, hlt⟩ := newEntry hf
  have hroot : s.cr3 ≠ f := by
    rintro rfl
    exact hfree ⟨[], Path.nil, rfl⟩
  have hself : (s.withTable a n i f).mem s.cr3 pml4RecursiveEntryNum =
      s.mem s.cr3 pml4RecursiveEntryNum := graft_of_ne s.mem _ 0 hroot (h.self_ne hp hn)
  refine ⟨⟨?_, ?_⟩, ?_, ?_⟩
  · exact (congrArg nextTable hself).trans h.selfMapped.self
  · exact (congrArg large hself).trans h.selfMapped.small
  · intro q n' j hq hn' hpr'
    rw [h.follow_withTable hp hn hnone hf hfree a hq.tail] at hn'
    by_cases hqi : q = i :: p
    · rw [if_pos hqi] at hn'
      cases hn'
      rw [withTable_mem, graft_child] at hpr'
      cases hpr'
    · rw [if_neg hqi] at hn'
      have hn'f : n' ≠ f := by
        rintro rfl
        exact hfree ⟨q, hq.tail, hn'⟩
      by_cases hji : n' ≠ n ∨ j ≠ i
      · rw [withTable_mem, graft_of_ne s.mem _ 0 hn'f hji] at hpr' ⊢
        exact h.table q n' j hq hn' hpr'
      · obtain ⟨rfl, rfl⟩ : n' = n ∧ j = i := by omega
        rw [withTable_mem, graft_parent s.mem j _ 0 hn'f]
        exact ⟨hlg, hlt⟩
  · apply h.distinct.graft (fun _ _ hh => hh.tail) hp.tail hn
    · rw [nextTable, hnone]
      rfl
    · rw [nextTable, if_pos hpr, hfr]
    · rfl
    · exact hfree

theorem Structured.isPageMapped_withTable (h : s.Structured) (hp : Path (i :: p))
    (hn : s.tableAt p = some n) (hnone : present (s.mem n i) = false) (hf : f < 2 ^ 40)
    (hfree : ¬ s.IsTable f) (a : PageFrameAllocator)
    (hv : tableIndex va 39 ≠ pml4RecursiveEntryNum) :
    isPageMapped (s.withTable a n i f).mem s.cr3 va = isPageMapped s.mem s.cr3 va := by
  have hq := pathOf_path hv
  have hnew := (h.withTable hp hn hnone hf hfree a).isPageMapped_eq hv
  rw [h.follow_withTable hp hn hnone hf hfree a hq] at hnew
  refine Eq.trans hnew ?_
  rw [h.isPageMapped_eq hv]
  by_cases hqi : pathOf va = i :: p
  · have hold : s.tableAt (i :: p) = none := by
      rw [tableAt] at hn ⊢
      rw [follow, hn, Option.bind_some, nextTable, hnone]
      rfl
    rw [if_pos hqi, hqi, hold, Option.bind_some, withTable_mem, graft_child]
    rfl
  · rw [if_neg hqi]
    cases hn' : s.tableAt (pathOf va) with
    | none => rfl
    | some n' =>
      have hn'f : n' ≠ f := by
        rintro rfl
        exact hfree ⟨pathOf va, hq, hn'⟩
      have hn'n : n' ≠ n := by
        rintro rfl
        have he := h.distinct _ _ _ hq hp.tail hn' hn
        have hl := hp.length
        rw [List.length_cons, ← he] at hl
        exact absurd hl (by simp [pathOf])
      rw [Option.bind_some, Option.bind_some, withTable_mem,
        graft_of_ne s.mem _ 0 hn'f (.inl hn'n)]

end Mmu

end BiosKernel
