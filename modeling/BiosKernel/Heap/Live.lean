import BiosKernel.Heap.Invariant

namespace BiosKernel
open ByteMem HeapTable Linked MachineInt Runs
set_option autoImplicit true

variable {s s' : HeapState} {t t' : HeapTable}

namespace HeapState

/-- No two allocations in use overlap, nor does one overlap the allocator's own data. -/
structure LiveApart (s : HeapState) : Prop where
  nodup : (s.live.map Prod.fst).Nodup
  payload : s.live.Pairwise fun a b => a.1 + a.2 ≤ b.1 ∨ b.1 + b.2 ≤ a.1
  state : ∀ a ∈ s.live, a.1 + a.2 ≤ s.base ∨ s.base + sizeofMallocState ≤ a.1
  header : ∀ a ∈ s.live, ∀ c ∈ s.carved, a.1 + a.2 ≤ c ∨ c + sizeofMallocChunk ≤ a.1

/-- Rounding a request up does not wrap, and `free` does not unlink the first allocated chunk
through a stale back link. -/
def SafeCall (s : HeapState) : HeapOp → Prop
  | .malloc n => n ≤ aalign n 16 ∧ s.Fits (.malloc n)
  | .free ptr => mchunk s.base s.mem ≠ 0 → chunkData s.mem (mchunk s.base s.mem) = ptr →
      chunkBk s.mem (mchunk s.base s.mem) = 0

/-- Every allocation in use has a chunk of its own on the allocated list, large enough for it. -/
structure Sound (s : HeapState) (t : HeapTable) (p : Nat) (xs ys : List Nat) : Prop where
  tracks : s.Tracks t
  lists : t.Lists p xs ys
  live : ∀ a ∈ s.live, ∃ c ∈ xs, a.1 = c + 32 ∧ a.2 + 32 ≤ t.size c
  nodup : (s.live.map Prod.fst).Nodup

theorem Sound.init (m : Mem) (baseAddr size : Nat) (hb : aalign baseAddr 64 + 64 < 2 ^ 64) :
    (HeapState.init m baseAddr size).Sound
      (HeapTable.empty (aalign baseAddr 64) (u64 (aalign size 64))) 0 [] [] := by
  refine ⟨init_tracks m baseAddr size hb, Lists.empty _ _, ?_, List.nodup_nil⟩
  intro a ha
  cases ha

theorem Sound.liveApart (h : s.Sound t p xs ys) : s.LiveApart := by
  have hg := h.tracks.holds.geometry
  refine ⟨h.nodup, ?_, ?_, ?_⟩
  · apply (List.pairwise_map.mp h.nodup).imp_of_mem
    intro a b ha hb hne
    obtain ⟨c, hc, hac, hsc⟩ := h.live a ha
    obtain ⟨d, hd, hbd, hsd⟩ := h.live b hb
    have hcm := h.lists.alloc.mem c hc
    have hdm := h.lists.alloc.mem d hd
    have hap := hg.apart hcm hdm (by omega)
    have hlc := hg.size_le hcm
    have hld := hg.size_le hdm
    omega
  · intro a ha
    obtain ⟨c, hc, hac, _⟩ := h.live a ha
    have hw := hg.within (h.lists.alloc.mem c hc)
    rw [sizeofMallocState]
    omega
  · intro a ha d hd
    obtain ⟨c, hc, hac, hsc⟩ := h.live a ha
    have hcm := h.lists.alloc.mem c hc
    rw [h.tracks.carved] at hd
    rw [sizeofMallocChunk]
    by_cases he : c = d
    · omega
    · have hap := hg.apart hcm hd he
      have hlc := hg.size_le hcm
      have hld := hg.size_le hd
      have hbd := hg.size_bounds hd
      omega

theorem Sound.size_le (h : s.Sound t p xs ys) (hp : t.shape <+: t'.shape)
    (hg : Geometry g t') (ha : a ∈ s.live) : ∃ c ∈ xs, a.1 = c + 32 ∧ a.2 + 32 ≤ t'.size c := by
  obtain ⟨c, hc, hac, hsc⟩ := h.live a ha
  refine ⟨c, hc, hac, ?_⟩
  rw [hg.size_of_prefix hp (h.lists.alloc.mem c hc)]
  exact hsc

theorem Sound.malloc (h : s.Sound t p xs ys) (hn : n ≤ aalign n 16) (hf : t.Fits (.malloc n)) :
    ∃ s' t' p' xs' ys', s.step (.malloc n) = some s' ∧ t.step (.malloc n) = some t' ∧
      s'.base = s.base ∧ s'.Sound t' p' xs' ys' := by
  have hg := h.tracks.holds.geometry
  have hspec : ∃ c t' p' ys', t.malloc (aalign n 16 + 32) = some (c, t') ∧
      t'.Lists p' (c :: xs) ys' ∧ aalign n 16 + 32 ≤ t'.size c := by
    rcases h.lists.malloc_cases hg (aalign n 16 + 32) with
      ⟨t', hr, _, hsz, hl⟩ | ⟨t', pre, c, post, hr, _, _, hsz, hl⟩
    · exact ⟨_, t', _, _, hr, hl, hsz⟩
    · exact ⟨c, t', _, _, hr, hl, hsz⟩
  obtain ⟨c, t', p', ys', hr, hl, hsz⟩ := hspec
  obtain ⟨s', hs, ht, hbase, hlive⟩ := h.tracks.malloc hf.1 hf.2 hr
  have hg' := ht.holds.geometry
  refine ⟨s', t', p', c :: xs, ys', hs, ?_, hbase, ht, hl, ?_, ?_⟩
  · rw [HeapTable.step, hr]
    rfl
  · intro a ha
    rw [hlive] at ha
    rcases List.mem_cons.mp ha with rfl | ha
    · exact ⟨c, List.mem_cons_self, rfl, by dsimp only; omega⟩
    · obtain ⟨d, hd, hsd⟩ := h.size_le (shape_malloc hr) hg' ha
      exact ⟨d, List.mem_cons_of_mem _ hd, hsd⟩
  · rw [hlive, List.map_cons, List.nodup_cons]
    refine ⟨?_, h.nodup⟩
    intro hm
    obtain ⟨a, ha, hac⟩ := List.mem_map.mp hm
    obtain ⟨d, hd, had, _⟩ := h.live a ha
    have hcd : c = d := by dsimp only at hac; omega
    rw [← hcd] at hd
    exact (List.nodup_cons.mp hl.alloc.chain.nodup).1 hd

theorem Sound.free (h : s.Sound t p xs ys) (hq : s.SafeCall (.free ptr)) :
    ∃ s' t' p' xs' ys', s.step (.free ptr) = some s' ∧ t.step (.free ptr) = some t' ∧
      s'.base = s.base ∧ s'.Sound t' p' xs' ys' := by
  have hg := h.tracks.holds.geometry
  have hq' : t.mchunk ≠ 0 → t.data t.mchunk = ptr → p = 0 := by
    intro h0 hd
    have hm : t.mchunk ∈ t.addrs := h.lists.alloc.mem _ (h.lists.alloc.head_mem h0)
    rw [SafeCall, h.tracks.holds.mchunk] at hq
    have hb := hq h0 ((h.tracks.holds.data hm).trans hd)
    rw [h.tracks.holds.bk hm] at hb
    cases xs with
    | nil => exact absurd h.lists.alloc.chain h0
    | cons x xs =>
      have hx : t.mchunk = x := h.lists.alloc.chain.head_eq
      rw [hx, h.lists.alloc.back.1] at hb
      exact hb
  have hsub : ((s.live.filter fun l => l.1 ≠ ptr).map Prod.fst).Sublist (s.live.map Prod.fst) :=
    List.filter_sublist.map _
  rcases h.lists.free_cases hg ptr hq' with ⟨hr, _⟩ | ⟨t', pre, c, post, hr, rfl, hd, hl⟩
  · obtain ⟨s', hs, ht, hbase, hlive⟩ := h.tracks.free hr
    refine ⟨s', t, p, xs, ys, hs, hr, hbase, ht, h.lists, ?_, hlive ▸ h.nodup.sublist hsub⟩
    intro a ha
    rw [hlive] at ha
    exact h.live a (List.mem_filter.mp ha).1
  · obtain ⟨s', hs, ht, hbase, hlive⟩ := h.tracks.free hr
    refine ⟨s', t', p, _, _, hs, hr, hbase, ht, hl, ?_, hlive ▸ h.nodup.sublist hsub⟩
    intro a ha
    rw [hlive] at ha
    obtain ⟨ha, hne⟩ := List.mem_filter.mp ha
    have hp : t.shape <+: t'.shape := by simp only [shape_free hr, List.prefix_refl]
    obtain ⟨d, hdm, had, hsd⟩ := h.size_le hp ht.holds.geometry ha
    refine ⟨d, ?_, had, hsd⟩
    have hdc : d ≠ c := by
      rintro rfl
      have hda := hg.data_eq (h.lists.alloc.mem d hdm)
      exact of_decide_eq_true hne (by omega)
    rcases List.mem_append.mp hdm with hm | hm
    · exact List.mem_append_left _ hm
    · exact List.mem_append_right _ ((List.mem_cons.mp hm).resolve_left hdc)

theorem Sound.step (h : s.Sound t p xs ys) (hc : s.SafeCall op) :
    ∃ s' t' p' xs' ys', s.step op = some s' ∧ t.step op = some t' ∧ s'.base = s.base ∧
      s'.Sound t' p' xs' ys' := by
  cases op with
  | malloc n => exact h.malloc hc.1 (h.tracks.fits_iff.mp hc.2)
  | free ptr => exact h.free hc

/-- In a run of such calls every call returns and the allocations in use stay apart. -/
theorem liveApart_of_safeCalls (m : Mem) (baseAddr size : Nat)
    (hb : aalign baseAddr 64 + 64 < 2 ^ 64) (ops : List HeapOp)
    (hm : Meets HeapState.step SafeCall (HeapState.init m baseAddr size) ops) :
    Always HeapState.step LiveApart (HeapState.init m baseAddr size) ops := by
  apply always_of_meets (I := fun s => ∃ t p xs ys, s.Sound t p xs ys)
  · rintro s op ⟨t, p, xs, ys, h⟩ hc
    obtain ⟨s', t', p', xs', ys', hs, _, _, h'⟩ := h.step hc
    exact ⟨s', hs, t', p', xs', ys', h'⟩
  · rintro s ⟨t, p, xs, ys, h⟩
    exact h.liveApart
  · exact ⟨_, _, _, _, Sound.init m baseAddr size hb⟩
  · exact hm

end HeapState

def HeapTable.safeCall (t : HeapTable) : HeapOp → Bool
  | .malloc n => decide (n ≤ aalign n 16)
  | .free ptr => decide (t.data t.mchunk ≠ ptr ∨ t.bk t.mchunk = 0)

namespace HeapState

theorem Tracks.safeCall (h : s.Tracks t) (hf : t.Fits op) (hr : t.safeCall op = true) :
    s.SafeCall op := by
  cases op with
  | malloc n => exact ⟨of_decide_eq_true hr, h.fits_iff.mpr hf⟩
  | free ptr =>
    intro h0 hd
    rw [h.holds.mchunk] at h0 hd ⊢
    have hm := h.holds.closed.mchunk.mem h0
    rw [h.holds.data hm] at hd
    rw [h.holds.bk hm]
    exact (of_decide_eq_true hr).resolve_left fun hne => hne hd

theorem liveApart_reuse_behind_head : Always HeapState.step LiveApart
    (HeapState.init (fun _ => 0) 4096 65536) [.malloc 16, .malloc 100, .free 4256, .free 4192,
      .malloc 100, .malloc 16, .free 4256] := by
  have ht := init_tracks (fun _ => 0) 4096 65536 (by decide)
  apply liveApart_of_safeCalls _ 4096 65536 (by decide)
  exact Tracks.meets (Q := fun t op => t.safeCall op = true)
    (fun s t op _ h hf hr => h.safeCall hf hr) rfl ht _ (by decide)

/-- The chunk at 4288 is reused from behind the head of the bin and freed while it is the first
allocated one. Its stale back link cuts the bin over to the allocated list, and the pointer 4192
is handed out a second time. -/
theorem free_through_stale_link_returns_live_pointer :
    Meets HeapState.step Fits (HeapState.init (fun _ => 0) 4096 65536)
        [.malloc 16, .malloc 16, .malloc 100, .free 4320, .free 4256, .malloc 100, .free 4320,
          .malloc 16, .malloc 16, .malloc 16] ∧
      ∃ s, (HeapState.init (fun _ => 0) 4096 65536).run
        [.malloc 16, .malloc 16, .malloc 100, .free 4320, .free 4256, .malloc 100, .free 4320,
          .malloc 16, .malloc 16, .malloc 16] = some s ∧
        s.live = [(4192, 16), (4256, 16), (4320, 16), (4192, 16)] ∧ ¬ s.LiveApart := by
  have ht := init_tracks (fun _ => 0) 4096 65536 (by decide)
  have hm := ht.meets_fits [.malloc 16, .malloc 16, .malloc 100, .free 4320, .free 4256,
    .malloc 100, .free 4320, .malloc 16, .malloc 16, .malloc 16] (by decide)
  obtain ⟨s, hs, _, _, hl⟩ := ht.run_some [.malloc 16, .malloc 16, .malloc 100, .free 4320,
    .free 4256, .malloc 100, .free 4320, .malloc 16, .malloc 16, .malloc 16] (by decide) rfl
  have hlive : s.live = [(4192, 16), (4256, 16), (4320, 16), (4192, 16)] := hl
  refine ⟨hm, s, hs, hlive, ?_⟩
  intro h
  have hn := h.nodup
  rw [hlive] at hn
  exact absurd hn (by decide)

end HeapState

end BiosKernel
