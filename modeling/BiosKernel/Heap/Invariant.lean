import BiosKernel.Heap.Lists

namespace BiosKernel
open ByteMem HeapTable Linked MachineInt Runs
set_option autoImplicit true

variable {s s' : HeapState} {t t' : HeapTable}

/-- From `head` the stored `fd` links visit `zs` and end in `NULL`, and the stored `bk` links agree
with them. -/
structure DoublyLinked (m : Mem) (head : Nat) (zs : List Nat) : Prop where
  chain : Chain 0 (chunkFd m) head zs
  nodup : zs.Nodup
  head : head ≠ 0 → chunkBk m head = 0
  back : ∀ z ∈ zs, chunkFd m z ≠ 0 → chunkBk m (chunkFd m z) = z

namespace HeapState

def ListsOk (s : HeapState) : Prop :=
  ∃ xs ys, DoublyLinked s.mem (mchunk s.base s.mem) xs ∧
    DoublyLinked s.mem (unsortedBinHead s.base s.mem) ys ∧
    xs.Disjoint ys ∧ ∀ c ∈ s.carved, c ∈ xs ∨ c ∈ ys

/-- The two lists are `xs` and `ys`, and every chunk is on one of them. -/
structure Ordered (s : HeapState) (xs ys : List Nat) : Prop where
  allocated : DoublyLinked s.mem (mchunk s.base s.mem) xs
  bin : DoublyLinked s.mem (unsortedBinHead s.base s.mem) ys
  disjoint : xs.Disjoint ys
  carved : ∀ c ∈ s.carved, c ∈ xs ∨ c ∈ ys

theorem listsOk_iff_ordered : s.ListsOk ↔ ∃ xs ys, s.Ordered xs ys :=
  ⟨fun ⟨xs, ys, ha, hb, hd, hc⟩ => ⟨xs, ys, ha, hb, hd, hc⟩,
    fun ⟨xs, ys, h⟩ => ⟨xs, ys, h.allocated, h.bin, h.disjoint, h.carved⟩⟩

/-- `malloc` takes a chunk from the unsorted bin only where the bin starts. -/
def ReusesHead (s : HeapState) : HeapOp → Prop
  | .malloc n => ∀ c, searchFree s.base s.mem (aalign n 16) = some (some c) →
      c = unsortedBinHead s.base s.mem
  | .free _ => True

end HeapState

def HeapTable.reusesHead (t : HeapTable) : HeapOp → Bool
  | .malloc n =>
    match t.findFree (aalign n 16 + 32) with
    | some (some c) => decide (c = t.unsortedBinHead)
    | _ => true
  | .free _ => true

theorem Holds.doublyLinked_iff (h : Holds g m t) (l : ListHead) :
    DoublyLinked m (t.head l) zs ↔ t.OnList l 0 zs := by
  constructor
  · rintro ⟨hc, _, hh, hb⟩
    have hm : ∀ z ∈ zs, z ∈ t.addrs := by
      apply hc.mem_closed (S := fun z => z ∈ t.addrs)
      · intro z hz
        rw [h.fd hz]
        exact h.closed.fd z hz
      · exact h.closed.head l
    have hc' : Chain 0 t.fd (t.head l) zs := hc.congr fun z hz => (h.fd (hm z hz)).symm
    refine ⟨hc', ?_, hm⟩
    have hk : BackLinks t.bk (t.bk (t.head l)) zs := by
      apply BackLinks.of_next_back hc'
      intro z hz h0
      have hz' := hb z hz
      rw [h.fd (hm z hz), h.bk ((h.closed.fd z (hm z hz)).mem h0)] at hz'
      exact hz' h0
    cases zs with
    | nil => trivial
    | cons z zs =>
      have h0 : t.head l ≠ 0 := by rw [hc.head_eq]; exact hc.2.1
      have hz : t.head l ∈ t.addrs := by rw [hc.head_eq]; exact hm z List.mem_cons_self
      rw [← h.bk hz, hh h0] at hk
      exact hk
  · intro hl
    refine ⟨hl.chain.congr fun z hz => h.fd (hl.mem z hz), hl.chain.nodup, ?_, ?_⟩
    · intro h0
      rw [h.bk (hl.mem _ (hl.head_mem h0))]
      cases zs with
      | nil => exact absurd hl.chain h0
      | cons z zs =>
        rw [hl.chain.head_eq]
        exact hl.back.1
    · intro z hz h0
      rw [h.fd (hl.mem z hz)] at h0 ⊢
      rw [h.bk ((h.closed.fd z (hl.mem z hz)).mem h0)]
      exact hl.back.next_back hl.chain hz h0

namespace HeapState

theorem Tracks.ordered_iff (h : s.Tracks t) : s.Ordered xs ys ↔ t.Lists 0 xs ys := by
  have hm := h.holds.mchunk
  have hb := h.holds.bin
  constructor
  · rintro ⟨hx, hy, hd, hc⟩
    rw [hm] at hx
    rw [hb] at hy
    have hx' := (h.holds.doublyLinked_iff .allocated).mp hx
    have hy' := (h.holds.doublyLinked_iff .unsortedBin).mp hy
    refine ⟨hx', hy', ?_⟩
    apply (List.perm_ext_iff_of_nodup (hx.nodup.append hy.nodup hd)
      h.holds.geometry.addrs_nodup).mpr
    intro c
    rw [List.mem_append, ← h.carved]
    refine ⟨?_, hc c⟩
    rw [h.carved]
    rintro (hc | hc)
    · exact hx'.mem c hc
    · exact hy'.mem c hc
  · intro hl
    refine ⟨?_, ?_, List.disjoint_of_nodup_append (hl.nodup h.holds.geometry), ?_⟩
    · rw [hm]
      exact (h.holds.doublyLinked_iff .allocated).mpr hl.alloc
    · rw [hb]
      exact (h.holds.doublyLinked_iff .unsortedBin).mpr hl.bin
    · intro c hc
      rw [h.carved] at hc
      exact List.mem_append.mp (hl.perm.mem_iff.mpr hc)

theorem Tracks.listsOk_iff (h : s.Tracks t) : s.ListsOk ↔ ∃ xs ys, t.Lists 0 xs ys := by
  simp only [listsOk_iff_ordered, h.ordered_iff]

/-- A stale back link on the first allocated chunk is not `NULL`. -/
theorem bk_mchunk_eq_zero (h : t.Lists 0 xs ys) (h0 : t.mchunk ≠ 0) : t.bk t.mchunk = 0 := by
  cases xs with
  | nil => exact absurd h.alloc.chain h0
  | cons x xs =>
    have hx : t.mchunk = x := h.alloc.chain.head_eq
    rw [hx]
    exact h.alloc.back.1

theorem Tracks.searchFree_eq (h : s.Tracks t) (hn : aalign n 16 + 32 < 2 ^ 32) :
    searchFree s.base s.mem (aalign n 16) = t.findFree (aalign n 16 + 32) := by
  rw [h.holds.search_free, u64, Nat.mod_eq_of_lt (by omega)]

/-- The first chunk of the bin is the one whose reuse leaves no stale back link. -/
theorem reuse_head_iff (h : t.OnList .unsortedBin 0 (pre ++ c :: post)) :
    c = t.unsortedBinHead ↔ t.bk c = 0 := by
  constructor
  · intro hc
    cases pre with
    | nil => exact h.back.1
    | cons y pre =>
      have hy : t.unsortedBinHead = y := h.chain.head_eq
      have hn := h.chain.nodup
      rw [← hy, ← hc] at hn
      simp at hn
  · intro hb
    rcases h.back.back_cases with ⟨rfl, _⟩ | hm
    · exact h.chain.head_eq.symm
    · rw [hb] at hm
      exact absurd rfl (h.chain.ne_null (List.mem_append_left _ hm))

theorem Tracks.malloc_listsOk_iff (h : s.Tracks t) (hl : t.Lists 0 xs ys)
    (hf : t.Fits (.malloc n)) :
    s.ReusesHead (.malloc n) ↔ ∃ s', s.step (.malloc n) = some s' ∧ s'.ListsOk := by
  rw [ReusesHead, h.searchFree_eq hf.1, h.holds.bin]
  rcases hl.malloc_cases h.holds.geometry (aalign n 16 + 32) with
    ⟨t', hr, hn, _, hl'⟩ | ⟨t', pre, c, post, hr, hc, rfl, _, hl'⟩
  · obtain ⟨s', hs, ht, _⟩ := h.malloc hf.1 hf.2 hr
    refine ⟨fun _ => ⟨s', hs, ht.listsOk_iff.mpr ⟨_, _, hl'⟩⟩, fun _ c hc => ?_⟩
    rw [hn] at hc
    cases hc
  · obtain ⟨s', hs, ht, _⟩ := h.malloc hf.1 hf.2 hr
    constructor
    · intro hhead
      rw [(reuse_head_iff hl.bin).mp (hhead c hc)] at hl'
      exact ⟨s', hs, ht.listsOk_iff.mpr ⟨_, _, hl'⟩⟩
    · rintro ⟨u, hu, hlu⟩ d hd
      rw [hs] at hu
      cases hu
      rw [hc] at hd
      cases hd
      obtain ⟨xs', ys', hlu⟩ := ht.listsOk_iff.mp hlu
      have hmc : t'.mchunk = c := hl'.alloc.chain.head_eq
      have hb := bk_mchunk_eq_zero hlu (by rw [hmc]; exact hl'.alloc.chain.2.1)
      rw [hmc, hl'.alloc.back.1] at hb
      exact (reuse_head_iff hl.bin).mpr hb

theorem Tracks.step_listsOk_iff (h : s.Tracks t) (hl : s.ListsOk) (hf : s.Fits op) :
    s.ReusesHead op ↔ ∃ s', s.step op = some s' ∧ s'.ListsOk := by
  obtain ⟨xs, ys, hl⟩ := h.listsOk_iff.mp hl
  cases op with
  | malloc n => exact h.malloc_listsOk_iff hl (h.fits_iff.mp hf)
  | free ptr =>
    refine ⟨fun _ => ?_, fun _ => trivial⟩
    rcases hl.free_cases h.holds.geometry ptr (fun _ _ => rfl) with
      ⟨hr, _⟩ | ⟨t', pre, c, post, hr, _, _, hl'⟩
    · obtain ⟨s', hs, ht, _⟩ := h.free hr
      exact ⟨s', hs, ht.listsOk_iff.mpr ⟨_, _, hl⟩⟩
    · obtain ⟨s', hs, ht, _⟩ := h.free hr
      exact ⟨s', hs, ht.listsOk_iff.mpr ⟨_, _, hl'⟩⟩

/-- The two lists are in order after every call of a run exactly when no call takes a chunk from
behind the head of the unsorted bin. -/
theorem listsOk_iff_reusesHead (m : Mem) (baseAddr size : Nat)
    (hb : aalign baseAddr 64 + 64 < 2 ^ 64) (ops : List HeapOp)
    (hf : Meets step Fits (init m baseAddr size) ops) :
    Always step ListsOk (init m baseAddr size) ops ↔
      Meets step ReusesHead (init m baseAddr size) ops := by
  have ht := init_tracks m baseAddr size hb
  apply always_iff_meets (I := fun s => ∃ t, s.Tracks t)
  · rintro s op s' ⟨t, h⟩ hf hs _
    obtain ⟨t', _, h', _⟩ := h.of_step (h.fits_iff.mp hf) hs
    exact ⟨t', h'⟩
  · rintro s op ⟨t, h⟩ hl hf
    exact h.step_listsOk_iff hl hf
  · exact ⟨_, ht⟩
  · exact ht.listsOk_iff.mpr ⟨[], [], Lists.empty _ _⟩
  · exact hf

theorem Tracks.reusesHead (h : s.Tracks t) (hf : t.Fits op) (hr : t.reusesHead op = true) :
    s.ReusesHead op := by
  cases op with
  | free ptr => trivial
  | malloc n =>
    intro c hc
    rw [h.searchFree_eq hf.1] at hc
    rw [HeapTable.reusesHead, hc] at hr
    rw [h.holds.bin]
    exact of_decide_eq_true hr

theorem listsOk_malloc_free_malloc : Always step ListsOk (init (fun _ => 0) 4096 65536)
    [.malloc 16, .malloc 100, .free 4256, .free 4192, .malloc 16] := by
  have ht := init_tracks (fun _ => 0) 4096 65536 (by decide)
  apply (listsOk_iff_reusesHead _ 4096 65536 (by decide) _ (ht.meets_fits _ (by decide))).mpr
  exact Tracks.meets (Q := fun t op => t.reusesHead op = true)
    (fun s t op _ h hf hr => h.reusesHead hf hr) rfl ht _ (by decide)

/-- Two chunks are freed in turn and the second one of the bin is asked for: the new first chunk
of the allocated list still names its old neighbour of the bin. -/
theorem reuse_behind_head_breaks_lists :
    Meets step Fits (init (fun _ => 0) 4096 65536)
        [.malloc 16, .malloc 100, .free 4256, .free 4192, .malloc 100] ∧
      ∃ s, (init (fun _ => 0) 4096 65536).run
          [.malloc 16, .malloc 100, .free 4256, .free 4192, .malloc 100] = some s ∧
        mchunk s.base s.mem = 4224 ∧ chunkBk s.mem 4224 = 4160 ∧ ¬ s.ListsOk := by
  have ht := init_tracks (fun _ => 0) 4096 65536 (by decide)
  have hm := ht.meets_fits [.malloc 16, .malloc 100, .free 4256, .free 4192, .malloc 100]
    (by decide)
  obtain ⟨s, hs, h, _⟩ := ht.run_some
    [.malloc 16, .malloc 100, .free 4256, .free 4192, .malloc 100] (by decide) rfl
  have hmc : mchunk s.base s.mem = 4224 := h.holds.mchunk
  have hbk : chunkBk s.mem 4224 = 4160 := h.holds.bk (by decide)
  refine ⟨hm, s, hs, hmc, hbk, ?_⟩
  rintro ⟨xs, ys, hx, _⟩
  have h0 := hx.head (by rw [hmc]; decide)
  rw [hmc, hbk] at h0
  cases h0

end HeapState

end BiosKernel
