import BiosKernel.Paging.WellFormed

namespace BiosKernel
open Radix
set_option autoImplicit true

namespace Mmu

variable {s s' : Mmu}

theorem Structured.loadEntry_window (h : s.Structured) (hp : Path p) (hn : s.tableAt p = some n)
    (hi : i < 512) : s.loadEntry (windowAddr p + 8 * i) = some (s.mem n i) := by
  rw [loadEntry, h.translate_window hp hi, hn, Option.map_some, windowAddr_index hp hi]

theorem Structured.storeEntry_window (h : s.Structured) (hp : Path p) (hn : s.tableAt p = some n)
    (hi : i < 512) (a : PageFrameAllocator) (e : Nat) :
    storeEntry { s with allocator := a } (windowAddr p + 8 * i) e =
      some { s with allocator := a, mem := set s.mem n i e } := by
  have ht : translate { s with allocator := a } (windowAddr p + 8 * i) = some n :=
    (h.translate_window hp hi).trans hn
  rw [storeEntry, ht, Option.map_some, windowAddr_index hp hi]

theorem Structured.translate_child (h : s.Structured) (hp : Path (i :: p))
    (hn : s.tableAt p = some n) (a : PageFrameAllocator) (he : nextTable e = some f) :
    translate { s with allocator := a, mem := set s.mem n i e } (windowAddr (i :: p)) = some f := by
  have hself : set s.mem n i e s.cr3 pml4RecursiveEntryNum = s.mem s.cr3 pml4RecursiveEntryNum :=
    set_of_ne s.mem e (h.self_ne hp hn)
  have hsame (q : List Nat) (hq : q <:+ p) :
      follow nextTable (set s.mem n i e) s.cr3 q = s.tableAt q := by
    apply h.distinct.follow_set (fun _ _ hh => hh.tail) hp.tail hn e (hp.tail.of_suffix hq)
    intro hs
    have hl := (hs.trans hq).length_le
    rw [List.length_cons] at hl
    omega
  have ht : SelfMapped { s with allocator := a, mem := set s.mem n i e } :=
    ⟨(congrArg nextTable hself).trans h.selfMapped.self,
      (congrArg large hself).trans h.selfMapped.small⟩
  have hw := ht.translate_window hp (x := 0) (by decide) (by
    intro q j n' hs hq hpr
    have hn' := (hsame q ((List.suffix_cons j q).trans hs)).symm.trans hq
    have hjq := hp.tail.of_suffix hs
    have hne : n' ≠ n := by
      rintro rfl
      have hqp := h.distinct q p n' hjq.tail hp.tail hn' hn
      have hl := hs.length_le
      rw [hqp, List.length_cons, List.tail_cons] at hl
      omega
    have hold : set s.mem n i e n' j = s.mem n' j := set_of_ne s.mem e (.inl hne)
    exact (congrArg large hold).trans (h.table q n' j hjq hn' (hold ▸ hpr)).1)
  rw [Nat.mul_zero, Nat.add_zero] at hw
  rw [hw, tableAt, follow, hsame p (List.suffix_refl p), hn, Option.bind_some]
  exact (congrArg nextTable (set_self s.mem n i e)).trans he

theorem Structured.ensureTable_present (h : s.Structured) (hp : Path (i :: p))
    (hn : s.tableAt p = some n) (hpr : present (s.mem n i) = true) (pid child : Nat) :
    ensureTable s pid (windowAddr p) i child = .returned s := by
  rw [ensureTable, h.loadEntry_window hp.tail hn (hp.index i (by simp))]
  simp only [hpr, ↓reduceIte]

theorem Structured.ensureTable_missing (h : s.Structured) (hp : Path (i :: p))
    (hn : s.tableAt p = some n) (hnone : present (s.mem n i) = false)
    (ha : allocatePage s.allocator pid = (f * pageSize, a)) (hf : f ≠ 0) (hlt : f < 2 ^ 40) :
    ensureTable s pid (windowAddr p) i (windowAddr (i :: p)) =
      .returned (s.withTable a n i f) := by
  have hi := hp.index i (by simp)
  have hf0 : ¬ f * pageSize = 0 := by
    rw [pageSize]
    omega
  obtain ⟨hpr, _, hfr, _⟩ := newEntry hlt
  have hc := h.translate_child hp hn a (e := f * pageSize ||| pageMapFlags) (f := f)
    (by rw [nextTable, if_pos hpr, hfr])
  rw [ensureTable, h.loadEntry_window hp.tail hn hi]
  simp only [hnone, Bool.false_eq_true, ↓reduceIte, ha, hf0,
    h.storeEntry_window hp.tail hn hi a, clearPage, hc, Option.map_some]
  rfl

/-- The first part of `map_page`, for any depth: make the tables of a path exist. -/
def ensurePath (s : Mmu) (pid : Nat) : List Nat → MapOutcome
  | [] => .returned s
  | i :: p => (s.ensurePath pid p).andThen fun s =>
      ensureTable s pid (windowAddr p) i (windowAddr (i :: p))

/-- The number of tables that a path lacks. -/
def missing (s : Mmu) : List Nat → Nat
  | [] => 0
  | i :: p => s.missing p + if (s.tableAt (i :: p)).isSome then 0 else 1

/-- `allocate_page` succeeded each time, with a frame not yet used as a table. An entry has 40 bits
for its number. -/
structure FreshPages (s : Mmu) (pages : List Nat) : Prop where
  nodup : pages.Nodup
  nonzero : 0 ∉ pages
  free : ∀ f, f * pageSize ∈ pages → f < 2 ^ 40 ∧ ¬ s.IsTable f

/-- The tables of `p` have been added to those of `s`, in the frames `pages`. -/
structure Extends (s s' : Mmu) (p : List Nat) (pages : List Nat) : Prop where
  structured : s'.Structured
  cr3 : s'.cr3 = s.cr3
  table : ∃ n, s'.tableAt p = some n
  other : ∀ q, Path q → ¬ q <:+ p → s'.tableAt q = s.tableAt q
  isTable : ∀ f, s'.IsTable f → s.IsTable f ∨ f * pageSize ∈ pages
  walk : ∀ va, tableIndex va 39 ≠ pml4RecursiveEntryNum →
    isPageMapped s'.mem s'.cr3 va = isPageMapped s.mem s.cr3 va

theorem not_cons_suffix (i : Nat) (p : List Nat) : ¬ (i :: p) <:+ p := by
  intro hs
  have hl := hs.length_le
  rw [List.length_cons] at hl
  omega

theorem tableAt_cons (hn : s.tableAt p = some n) :
    s.tableAt (i :: p) = nextTable (s.mem n i) := by
  rw [tableAt] at hn ⊢
  rw [follow, hn, Option.bind_some]

theorem Extends.step_present (he : s.Extends s' p pages) (hn : s'.tableAt (i :: p) = some n) :
    s.Extends s' (i :: p) pages :=
  ⟨he.structured, he.cr3, ⟨n, hn⟩,
    fun q hq hs => he.other q hq fun hh => hs (hh.trans (List.suffix_cons i p)),
    he.isTable, he.walk⟩

theorem Extends.step_missing (he : s.Extends s' p pages) (hp : Path (i :: p))
    (hn : s'.tableAt p = some n) (hnone : present (s'.mem n i) = false) (hf : f < 2 ^ 40)
    (hfree : ¬ s'.IsTable f) (a : PageFrameAllocator) :
    s.Extends (s'.withTable a n i f) (i :: p) (pages ++ [f * pageSize]) := by
  have hat {q : List Nat} (hq : Path q) :=
    he.structured.follow_withTable hp hn hnone hf hfree a hq
  refine ⟨he.structured.withTable hp hn hnone hf hfree a, he.cr3, ⟨f, ?_⟩, ?_, ?_, ?_⟩
  · rw [hat hp, if_pos rfl]
  · intro q hq hs
    have hqi : q ≠ i :: p := by
      rintro rfl
      exact hs (List.suffix_refl _)
    rw [hat hq, if_neg hqi]
    exact he.other q hq fun hh => hs (hh.trans (List.suffix_cons i p))
  · rintro g ⟨q, hq, hg⟩
    have hg := (hat hq).symm.trans hg
    by_cases hqi : q = i :: p
    · rw [if_pos hqi] at hg
      cases hg
      exact .inr (by simp)
    · rw [if_neg hqi] at hg
      rcases he.isTable g ⟨q, hq, hg⟩ with hold | hnew
      · exact .inl hold
      · exact .inr (List.mem_append_left _ hnew)
  · intro va hv
    exact (he.structured.isPageMapped_withTable hp hn hnone hf hfree a hv).trans (he.walk va hv)

theorem nextTable_isSome (e : Nat) : (nextTable e).isSome = present e := by
  rw [nextTable]
  split
  · next h => exact h.symm
  · next h => exact (Bool.not_eq_true _ ▸ h).symm

theorem FreshPages.init (h : s.FreshPages (pages ++ [page])) : s.FreshPages pages :=
  ⟨(List.nodup_append.mp h.nodup).1, fun hh => h.nonzero (List.mem_append_left _ hh),
    fun f hf => h.free f (List.mem_append_left _ hf)⟩

theorem FreshPages.last (h : s.FreshPages (pages ++ [f * pageSize]))
    (he : s.Extends s' p pages) : f < 2 ^ 40 ∧ ¬ s'.IsTable f := by
  obtain ⟨hlt, hold⟩ := h.free f (by simp)
  refine ⟨hlt, fun hf => ?_⟩
  rcases he.isTable f hf with hf | hnew
  · exact hold hf
  · exact (List.nodup_append.mp h.nodup).2.2 _ hnew _ (by simp) rfl

theorem Structured.ensurePath_ok (h : s.Structured) (hp : Path p) (pid : Nat)
    (hfresh : s.FreshPages (takePages s.allocator pid (s.missing p)).1) :
    ∃ s', s.ensurePath pid p = .returned s' ∧
      s'.allocator = (takePages s.allocator pid (s.missing p)).2 ∧
      s.Extends s' p (takePages s.allocator pid (s.missing p)).1 := by
  induction p with
  | nil =>
    exact ⟨s, rfl, rfl, h, rfl, ⟨s.cr3, rfl⟩, fun _ _ _ => rfl, fun _ => .inl, fun _ _ => rfl⟩
  | cons i p ih =>
    -- The tables made for `p` do not change whether the next one exists.
    cases hsome : (s.tableAt (i :: p)).isSome with
    | true =>
      have hm : s.missing (i :: p) = s.missing p := by rw [missing, hsome]; rfl
      rw [hm] at hfresh ⊢
      obtain ⟨s', hs', ha, he⟩ := ih hp.tail hfresh
      obtain ⟨n, hn⟩ := he.table
      have hat := he.other (i :: p) hp (not_cons_suffix i p)
      obtain ⟨n', hn'⟩ := Option.isSome_iff_exists.mp hsome
      have hpr : present (s'.mem n i) = true := by
        rw [← nextTable_isSome, ← tableAt_cons hn, hat, hsome]
      refine ⟨s', ?_, ha, he.step_present (hat.trans hn')⟩
      rw [ensurePath, hs', MapOutcome.andThen]
      exact he.structured.ensureTable_present hp hn hpr pid _
    | false =>
      have hm : s.missing (i :: p) = s.missing p + 1 := by rw [missing, hsome]; rfl
      rw [hm, takePages_succ] at hfresh ⊢
      obtain ⟨s', hs', ha, he⟩ := ih hp.tail hfresh.init
      obtain ⟨n, hn⟩ := he.table
      have hat := he.other (i :: p) hp (not_cons_suffix i p)
      have hnone : present (s'.mem n i) = false := by
        rw [← nextTable_isSome, ← tableAt_cons hn, hat, hsome]
      rw [← ha] at hfresh ⊢
      rcases allocatePage_cases s'.allocator pid with ⟨hout, _⟩ | ⟨f, hf, _⟩
      · rw [hout] at hfresh
        exact absurd (by simp) hfresh.nonzero
      · rw [hf] at hfresh ⊢
        have hf0 : f ≠ 0 := by
          rintro rfl
          exact hfresh.nonzero (by simp)
        obtain ⟨hlt, hnew⟩ := hfresh.last he
        refine ⟨_, ?_, rfl, he.step_missing hp hn hnone hlt hnew (s'.allocator.take f pid)⟩
        rw [ensurePath, hs', MapOutcome.andThen]
        exact he.structured.ensureTable_missing hp hn hnone hf hf0 hlt

end Mmu

end BiosKernel
