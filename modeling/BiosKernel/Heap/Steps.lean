import BiosKernel.Heap.Invariant
import Mathlib.Data.List.Find

namespace BiosKernel
open ByteMem HeapTable Linked MachineInt
set_option autoImplicit true

variable {s : HeapState} {t t' : HeapTable}

/-- The bytes outside the heap's own header and the headers of the chunks `cs` are the same. -/
def SamePayload (g : Nat) (cs : List Nat) (m m' : Mem) : Prop :=
  ∀ x, g + 64 ≤ x → (∀ d ∈ cs, x < d ∨ d + 32 ≤ x) → m' x = m x

namespace SamePayload

variable {m m' : Mem} {cs : List Nat}

theorem refl (g : Nat) (cs : List Nat) (m : Mem) : SamePayload g cs m m := fun _ _ _ => rfl

theorem trans (h : SamePayload g cs m m') (h' : SamePayload g cs m' m'') :
    SamePayload g cs m m'' :=
  fun x hx hd => (h' x hx hd).trans (h x hx hd)

theorem setFd (h : SamePayload g cs m m') (hc : c ∈ cs) (v : Nat) :
    SamePayload g cs m (setFd m' c v) := by
  intro x hx hd
  have hcx := hd c hc
  rw [BiosKernel.setFd, store_apart _ _ (by omega), h x hx hd]

theorem setBk (h : SamePayload g cs m m') (hc : c ∈ cs) (v : Nat) :
    SamePayload g cs m (setBk m' c v) := by
  intro x hx hd
  have hcx := hd c hc
  rw [BiosKernel.setBk, store_apart _ _ (by omega), h x hx hd]

theorem setHead (h : SamePayload g cs m m') (l : ListHead) (v : Nat) :
    SamePayload g cs m (store m' (headAddr g l) 8 v) := by
  intro x hx hd
  have ha : headAddr g l + 8 ≤ g + 64 := by cases l <;> simp [headAddr]
  rw [store_apart _ _ (by omega), h x hx hd]

end SamePayload

theorem Holds.unlink_samePayload (h : Holds g m t) (hc : c ∈ t.addrs) (l : ListHead) :
    SamePayload g t.addrs m (BiosKernel.unlink m (headAddr g l) c) := by
  have hfront : SamePayload g t.addrs m
      (if chunkBk m c ≠ 0 then BiosKernel.setFd m (chunkBk m c) (chunkFd m c)
        else store m (headAddr g l) 8 (chunkFd m c)) := by
    rw [h.bk hc]
    split
    · next h0 => exact (SamePayload.refl g _ m).setFd ((h.closed.bk c hc).mem h0) _
    · exact (SamePayload.refl g _ m).setHead l _
  obtain ⟨h₁, ha⟩ := h.unlink_front hc l
  rw [BiosKernel.unlink]
  generalize (if chunkBk m c ≠ 0 then BiosKernel.setFd m (chunkBk m c) (chunkFd m c)
    else store m (headAddr g l) 8 (chunkFd m c)) = m₁ at hfront h₁ ⊢
  generalize (if t.bk c ≠ 0 then t.setFd (t.bk c) (t.fd c)
    else t.setHead (t.fd c) l) = t₁ at h₁ ha
  have hc₁ := ha ▸ hc
  rw [h₁.fd hc₁]
  split
  · next h0 => exact hfront.setBk (ha ▸ (h₁.closed.fd c hc₁).mem h0) _
  · exact hfront

theorem Holds.pushAllocated_samePayload (h : Holds g m t) (hc : c ∈ t.addrs) :
    SamePayload g t.addrs m (BiosKernel.pushAllocated g m c) := by
  rw [BiosKernel.pushAllocated, h.mchunk]
  refine SamePayload.setFd (SamePayload.setHead ?_ .allocated c) hc _
  split
  · next h0 => exact (SamePayload.refl g _ m).setBk (h.closed.mchunk.mem h0) _
  · exact .refl g _ m

theorem Holds.pushFree_samePayload (h : Holds g m t) (hc : c ∈ t.addrs) :
    SamePayload g t.addrs m (BiosKernel.pushFree g m c) := by
  have h₁ := h.setBk hc (.inl rfl)
  have hu : (t.setBk c 0).Ptr t.unsortedBinHead := by
    simpa [Ptr] using h.closed.bin
  have h₂ := h₁.setFd (by simpa using hc) hu
  have hc₂ : c ∈ ((t.setBk c 0).setFd c t.unsortedBinHead).addrs := by simpa using hc
  have hf := h₂.closed.fd c hc₂
  have hsame := ((SamePayload.refl g t.addrs m).setBk hc 0).setFd hc t.unsortedBinHead
  rw [BiosKernel.pushFree, h₁.bin, unsortedBinHead_setBk]
  rw [h₂.fd hc₂]
  refine SamePayload.setHead ?_ .unsortedBin c
  split
  · next h0 => exact hsame.setBk (by simpa using hf.mem h0) c
  · exact hsame

/-- The payload of `c` is cleared and every other one is kept. -/
structure PayloadCleared (t : HeapTable) (m m' : Mem) (c : Nat) : Prop where
  zero : ∀ x, c + 32 ≤ x → x < c + t.size c → m' x = 0
  others : ∀ d ∈ t.addrs, d ≠ c → ∀ x, d + 32 ≤ x → x < d + t.size d → m' x = m x

theorem HeapTable.Geometry.payload_apart (h : Geometry g t) (hd : d ∈ t.addrs) (hx : d + 32 ≤ x)
    (hx' : x < d + t.size d) (he : e ∈ t.addrs) : x < e ∨ e + 32 ≤ x := by
  by_cases hed : e = d
  · omega
  · have ha := h.apart he hd hed
    have hl := h.size_le he
    have hl' := h.size_le hd
    have hs := h.size_bounds he
    omega

theorem SamePayload.fill (h : SamePayload g t.addrs m m') (hg : Geometry g t)
    (hc : c ∈ t.addrs) (hn : n + 32 = t.size c) :
    PayloadCleared t m (fill m' (c + 32) 0 n) c := by
  refine ⟨?_, ?_⟩
  · intro x hx hx'
    rw [fill_apply, if_pos (by omega)]
  · intro d hd hne x hx hx'
    have ha := hg.apart hd hc hne
    have hl := hg.size_le hc
    have hl' := hg.size_le hd
    have hw := hg.within hd
    rw [fill_apply, if_neg (by omega), h x (by omega) fun e => hg.payload_apart hd hx hx']

theorem Holds.reuse_cleared (h : Holds g m t) (hc : c ∈ t.addrs) :
    PayloadCleared t m (reuseChunk g m c).mem c := by
  have hpush := (h.unlink hc .unsortedBin).pushAllocated_samePayload (c := c) (by simpa using hc)
  rw [addrs_unlink] at hpush
  have hsame := (h.unlink_samePayload hc .unsortedBin).trans hpush
  have hd := (h.data hc).trans (h.geometry.data_eq hc)
  have hp := h.payload_size hc
  rw [← h.size hc] at hp
  rw [reuseChunk, linkAllocated_reused_mem hd]
  exact hsame.fill h.geometry hc (hp.trans (h.size hc))

theorem Holds.free_cleared (h : Holds g m t) (hm : free g m ptr = some m')
    (hf : search 0 t.fd (fun c => decide (t.data c = ptr)) loopBound t.mchunk = some (some c)) :
    PayloadCleared t m m' c := by
  obtain ⟨hc, _⟩ := search_mem (S := fun c => c ∈ t.addrs) h.closed.fd h.closed.mchunk hf
  have hu := h.unlink hc .allocated
  have hpush := hu.pushFree_samePayload (c := c) (by simpa using hc)
  rw [addrs_unlink] at hpush
  have hsame := (h.unlink_samePayload hc .allocated).trans hpush
  have hl := hu.pushFree (c := c) (by simpa using hc)
  have hd := hl.data (c := c) (by simpa using hc)
  have hs := hl.size (c := c) (by simpa using hc)
  rw [data_linkFree, data_unlink, h.geometry.data_eq hc] at hd
  rw [size_linkFree, size_unlink] at hs
  have hfill := hsame.fill h.geometry hc (h.payload_size hc)
  rw [free, h.search_data, hf] at hm
  cases hm
  rw [← hd, ← hs] at hfill
  exact hfill

theorem Holds.mchunk_far (h : Holds g m t) (h0 : t.mchunk ≠ 0) :
    g + 64 ≤ t.mchunk ∧ t.mchunk + 64 ≤ t.heapEnd := by
  have hm := h.closed.mchunk.mem h0
  have hw := h.geometry.within hm
  have hs := h.geometry.size_bounds hm
  have hl := h.geometry.size_le hm
  omega

theorem Holds.expand_apart (h : Holds g m t) (hn : n + 32 < 2 ^ 32) (hx : x < t.heapEnd)
    (hbrk : g + 16 ≤ x) (hhead : x < g + 24 ∨ g + 32 ≤ x)
    (hbk : t.mchunk ≠ 0 → x < t.mchunk + 16 ∨ t.mchunk + 24 ≤ x) :
    (expandHeap g m n).mem x = m x := by
  obtain ⟨_, _, _, hmem⟩ := h.expandHeap_eq hn
  have hge := h.geometry.tiles.le
  have hend := h.heapEnd
  have hcarve : carveMem g m (max 64 (n + 32)) x = m x := carveMem_apart (by omega) (by omega)
  rw [hmem, BiosKernel.pushAllocated, h.mchunk_carveMem]
  rw [BiosKernel.setFd, store_apart _ _ (by omega), store_apart _ _ (by omega)]
  split
  · next h0 =>
    have hb := hbk h0
    rw [BiosKernel.setBk, store_apart _ _ (by omega), hcarve]
  · exact hcarve

theorem Holds.expand_chunk (h : Holds g m t) (hn : n + 32 < 2 ^ 32) :
    BiosKernel.mchunk g (expandHeap g m n).mem = t.heapEnd ∧
      chunkFd (expandHeap g m n).mem t.heapEnd = t.mchunk ∧
      chunkSize (expandHeap g m n).mem t.heapEnd = max 64 (n + 32) ∧
      ∀ x, t.heapEnd + 32 ≤ x → x < t.heapEnd + max 64 (n + 32) →
        (expandHeap g m n).mem x = 0 := by
  obtain ⟨_, _, _, hmem⟩ := h.expandHeap_eq hn
  have hge := h.geometry.tiles.le
  have htop := h.geometry.top
  have hdvd := h.geometry.heapEnd_dvd
  have hmc := h.geometry.ptr_lt h.closed.mchunk
  have hend := h.heapEnd
  have hcarve := readHeader_carveMem (g := g) (m := m) (n := max 64 (n + 32)) (by omega)
    (by rw [h.mchunk]; exact hmc) (by omega)
  have hsize := congrArg Header.size hcarve
  rw [hend] at hsize
  rw [hmem, BiosKernel.pushAllocated, h.mchunk_carveMem]
  refine ⟨?_, load_store_of_lt _ _ _ (by omega), ?_, ?_⟩
  · exact (load_store_apart _ _ (.inr (by omega))).trans (load_store_of_lt _ _ _ (by omega))
  · refine (load_store_apart _ _ (.inr (by omega))).trans ?_
    refine (load_store_apart _ _ (.inl (by omega))).trans ?_
    split
    · next h0 =>
      have hfar := h.mchunk_far h0
      exact (load_store_apart _ _ (.inl (by omega))).trans hsize
    · exact hsize
  · intro x hx hx'
    have hzero : carveMem g m (max 64 (n + 32)) x = 0 := by
      rw [carveMem, hend, fill_apply, if_pos (by omega)]
    rw [BiosKernel.setFd, store_apart _ _ (by omega), store_apart _ _ (by omega)]
    split
    · next h0 =>
      have hfar := h.mchunk_far h0
      rw [BiosKernel.setBk, store_apart _ _ (by omega), hzero]
    · exact hzero

theorem Holds.expand_fd (h : Holds g m t) (hn : n + 32 < 2 ^ 32) (hd : d ∈ t.addrs) :
    chunkFd (expandHeap g m n).mem d = t.fd d := by
  have hg := h.geometry
  have hge := hg.tiles.le
  rw [← h.fd hd]
  apply load_congr
  intro x hx hx'
  have hw := hg.within hd
  have hs := hg.size_bounds hd
  have hle := hg.size_le hd
  apply h.expand_apart hn (by omega) (by omega) (by omega)
  intro h0
  by_cases he : d = t.mchunk
  · omega
  · have ha := hg.apart_header hd (h.closed.mchunk.mem h0) he
    omega

theorem Holds.expand_bin (h : Holds g m t) (hn : n + 32 < 2 ^ 32) :
    unsortedBinHead g (expandHeap g m n).mem = t.unsortedBinHead := by
  have hge := h.geometry.tiles.le
  rw [← h.bin]
  apply load_congr
  intro x hx hx'
  apply h.expand_apart hn (by omega) (by omega) (by omega)
  intro h0
  have hfar := h.mchunk_far h0
  omega

theorem Holds.expand_payload (h : Holds g m t) (hn : n + 32 < 2 ^ 32) (hd : d ∈ t.addrs)
    (hx : d + 32 ≤ x) (hx' : x < d + t.size d) : (expandHeap g m n).mem x = m x := by
  have hg := h.geometry
  have hw := hg.within hd
  have hle := hg.size_le hd
  apply h.expand_apart hn (by omega) (by omega) (by omega)
  intro h0
  have hp := hg.payload_apart hd hx hx' (h.closed.mchunk.mem h0)
  omega

theorem erase_middle {pre post : List Nat} (h : (pre ++ c :: post).Nodup) :
    (pre ++ c :: post).erase c = pre ++ post := by
  have hc : c ∉ pre := fun hm => List.disjoint_of_nodup_append h hm List.mem_cons_self
  rw [List.erase_append_right _ hc, List.erase_cons_head]

theorem HeapTable.Lists.find_data (hl : t.Lists 0 xs ys) (hg : Geometry g t) (hc : c ∈ xs)
    (hptr : t.data c = ptr) : (xs.find? fun d => decide (t.data d = ptr)) = some c := by
  cases hf : xs.find? fun d => decide (t.data d = ptr) with
  | none => exact absurd (decide_eq_true hptr) (List.find?_eq_none.mp hf c hc)
  | some d =>
    have hd : t.data d = ptr := of_decide_eq_true (List.find?_some hf :)
    have hdm := hl.alloc.mem d (List.mem_of_find?_eq_some hf)
    rw [← hptr, hg.data_eq hdm, hg.data_eq (hl.alloc.mem c hc)] at hd
    rw [Nat.add_right_cancel hd]

namespace HeapState

/-- One step of a first-fit allocator with the allocated chunks `xs` and the free chunks `ys`: it
takes the chunk `c`. -/
structure FirstFit (s : HeapState) (n : Nat) (xs ys : List Nat) (a : Allocation) (c : Nat) :
    Prop where
  chunk : c = (ys.find? fun d => decide (aalign n 16 + 32 ≤ chunkSize s.mem d)).getD
    (heapEnd s.base s.mem)
  payload : a.newMchunk.data = c + 32
  room : aalign n 16 + 32 ≤ chunkSize a.mem c
  cleared : ∀ x, c + 32 ≤ x → x < c + chunkSize a.mem c → a.mem x = 0
  bin : Chain 0 (chunkFd a.mem) (unsortedBinHead s.base a.mem) (ys.erase c)
  allocated : Chain 0 (chunkFd a.mem) (mchunk s.base a.mem) (c :: xs)
  others : ∀ d ∈ s.carved, d ≠ c → ∀ x, d + 32 ≤ x → x < d + chunkSize s.mem d → a.mem x = s.mem x

theorem Tracks.find_eq (h : s.Tracks t) (hl : t.Lists 0 xs ys) (need : Nat) :
    (ys.find? fun d => decide (need ≤ chunkSize s.mem d)) =
      ys.find? fun d => decide (need ≤ t.size d) :=
  List.find?_congr fun d hd => by rw [h.holds.size (hl.bin.mem d hd)]

theorem Tracks.firstFit_reuse (h : s.Tracks t) (hl : t.Lists 0 xs ys)
    (hf : (ys.find? fun d => decide (aalign n 16 + 32 ≤ t.size d)) = some c) :
    s.FirstFit n xs ys (reuseChunk s.base s.mem c) c := by
  obtain ⟨hfit, pre, post, hys, _⟩ := List.find?_eq_some_iff_append.mp hf
  have hfit := of_decide_eq_true hfit
  have hc : c ∈ t.addrs := hl.bin.mem c (List.mem_of_find?_eq_some hf)
  obtain ⟨hd, _, hh⟩ := h.holds.reuse hc
  have hclear := h.holds.reuse_cleared hc
  have herase : ys.erase c = pre ++ post := by
    rw [hys, erase_middle (hys ▸ hl.bin.chain.nodup)]
  have hl' := (hys ▸ hl).reuse h.holds.geometry
  have hsize : chunkSize (reuseChunk s.base s.mem c).mem c = t.size c := by
    rw [hh.size (by simpa using hc), size_linkAllocated, size_unlink]
  refine ⟨?_, hd, by rw [hsize]; exact hfit, ?_, ?_, ?_, ?_⟩
  · rw [h.find_eq hl, hf]
    rfl
  · rw [hsize]
    exact hclear.zero
  · rw [herase, hh.bin]
    exact hl'.bin.chain.congr fun z hz => hh.fd (hl'.bin.mem z hz)
  · rw [hh.mchunk]
    exact hl'.alloc.chain.congr fun z hz => hh.fd (hl'.alloc.mem z hz)
  · intro d hd' hne
    rw [h.carved] at hd'
    rw [h.holds.size hd']
    exact hclear.others d hd' hne

theorem Tracks.firstFit_expand (h : s.Tracks t) (hl : t.Lists 0 xs ys)
    (hn : aalign n 16 + 32 < 2 ^ 32)
    (hf : (ys.find? fun d => decide (aalign n 16 + 32 ≤ t.size d)) = none) :
    s.FirstFit n xs ys (expandHeap s.base s.mem (aalign n 16)) t.heapEnd := by
  have hg := h.holds.geometry
  obtain ⟨_, hd, _, _⟩ := h.holds.expandHeap_eq hn
  obtain ⟨hhead, hfd, hsize, hzero⟩ := h.holds.expand_chunk hn
  have hge := hg.tiles.le
  have hnot : t.heapEnd ∉ ys := fun hm => hg.heapEnd_not_mem (hl.bin.mem _ hm)
  refine ⟨?_, hd, ?_, ?_, ?_, ?_, ?_⟩
  · rw [h.find_eq hl, hf, h.holds.heapEnd]
    rfl
  · rw [hsize]
    exact Nat.le_max_right _ _
  · rw [hsize]
    exact hzero
  · rw [List.erase_of_not_mem hnot, h.holds.expand_bin hn]
    exact hl.bin.chain.congr fun z hz => h.holds.expand_fd hn (hl.bin.mem z hz)
  · refine ⟨hhead, by omega, ?_⟩
    rw [hfd]
    exact hl.alloc.chain.congr fun z hz => h.holds.expand_fd hn (hl.alloc.mem z hz)
  · intro d hd' _ x hx hx'
    rw [h.carved] at hd'
    rw [h.holds.size hd'] at hx'
    exact h.holds.expand_payload hn hd' hx hx'

/-- `malloc` is a first-fit step: the chunk it takes, its payload, the two lists and all other
payloads are as they should be. -/
theorem malloc_firstFit (h : s.Tracks t) (hl : s.Ordered xs ys) (hn : aalign n 16 + 32 < 2 ^ 32) :
    ∃ a c, malloc s.base s.mem n = some a ∧ s.FirstFit n xs ys a c := by
  have hl := h.ordered_iff.mp hl
  have hu : u64 (aalign n 16 + 32) = aalign n 16 + 32 := Nat.mod_eq_of_lt (by omega)
  have hfind := hl.findFree_eq h.holds.geometry (aalign n 16 + 32)
  cases hf : ys.find? fun d => decide (aalign n 16 + 32 ≤ t.size d) with
  | none =>
    rw [hf] at hfind
    exact ⟨_, _, h.holds.malloc_expand (by rw [hu]; exact hfind), h.firstFit_expand hl hn hf⟩
  | some c =>
    rw [hf] at hfind
    exact ⟨_, _, h.holds.malloc_reuse (by rw [hu]; exact hfind), h.firstFit_reuse hl hf⟩

theorem ordered_malloc_malloc_free : ∃ s t,
    (init (fun _ => 0) 4096 65536).run [.malloc 16, .malloc 100, .free 4256] = some s ∧
      s.Tracks t ∧ s.Ordered [4160] [4224] ∧ t.size 4224 = 144 ∧ t.data 4160 = 4192 := by
  obtain ⟨s, hs, h, _⟩ := (init_tracks (fun _ => 0) 4096 65536 (by decide)).run_some
    [.malloc 16, .malloc 100, .free 4256] (by decide) rfl
  refine ⟨s, _, hs, h, h.ordered_iff.mpr ⟨⟨?_, ?_, ?_⟩, ⟨?_, ?_, ?_⟩, ?_⟩, rfl, rfl⟩
  · exact ⟨rfl, by decide, rfl⟩
  · exact ⟨rfl, trivial⟩
  · decide
  · exact ⟨rfl, by decide, rfl⟩
  · exact ⟨rfl, trivial⟩
  · decide
  · decide

theorem malloc_firstFit_reuses : ∃ s a,
    (init (fun _ => 0) 4096 65536).run [.malloc 16, .malloc 100, .free 4256] = some s ∧
      malloc s.base s.mem 100 = some a ∧ s.FirstFit 100 [4160] [4224] a 4224 := by
  obtain ⟨s, t, hs, h, hl, hsize, _⟩ := ordered_malloc_malloc_free
  obtain ⟨a, c, ha, hfit⟩ := malloc_firstFit h hl (show aalign 100 16 + 32 < 2 ^ 32 by decide)
  have hc : c = 4224 := by
    have hchunk := hfit.chunk
    rw [h.find_eq (h.ordered_iff.mp hl),
      List.find?_cons_of_pos (by rw [hsize]; decide)] at hchunk
    exact hchunk
  exact ⟨s, a, hs, ha, hc ▸ hfit⟩

/-- `free` of the payload of `c`: the chunk moves from the allocated list to the front of the
bin. -/
structure Released (s : HeapState) (xs ys : List Nat) (m : Mem) (c : Nat) : Prop where
  ordered : { s with mem := m }.Ordered (xs.erase c) (c :: ys)
  cleared : ∀ x, c + 32 ≤ x → x < c + chunkSize m c → m x = 0
  others : ∀ d ∈ s.carved, d ≠ c → ∀ x, d + 32 ≤ x → x < d + chunkSize s.mem d → m x = s.mem x

theorem Tracks.released (h : s.Tracks t) (hl : t.Lists 0 xs ys) (hc : c ∈ xs)
    (hptr : t.data c = ptr) :
    ∃ m, BiosKernel.free s.base s.mem ptr = some m ∧ s.Released xs ys m c := by
  have hg := h.holds.geometry
  have hsearch := hl.alloc.search_eq hg fun c => decide (t.data c = ptr)
  rw [head, hl.find_data hg hc hptr] at hsearch
  obtain ⟨m, hm, hca, _, hh⟩ := h.holds.free_chunk hsearch
  have hclear := h.holds.free_cleared hm hsearch
  obtain ⟨pre, post, hxs⟩ := List.append_of_mem hc
  have herase : xs.erase c = pre ++ post := by
    rw [hxs, erase_middle (hxs ▸ hl.alloc.chain.nodup)]
  have htracks : Tracks { s with mem := m } ((t.unlink .allocated c).linkFree c) := by
    refine ⟨hh, ?_⟩
    rw [addrs_linkFree, addrs_unlink]
    exact h.carved
  have hsize : chunkSize m c = t.size c := by
    rw [hh.size (by simpa using hca), size_linkFree, size_unlink]
  refine ⟨m, hm, htracks.ordered_iff.mpr ?_, ?_, ?_⟩
  · rw [herase]
    exact (hxs ▸ hl).release hg fun _ => rfl
  · rw [hsize]
    exact hclear.zero
  · intro d hd hne
    rw [h.carved] at hd
    rw [h.holds.size hd]
    exact hclear.others d hd hne

/-- `free` moves the chunk whose payload it is given, and does nothing with any other pointer. -/
theorem free_step (h : s.Tracks t) (hl : s.Ordered xs ys) (ptr : Nat) :
    (∀ c ∈ xs, chunkData s.mem c = ptr →
      ∃ m, free s.base s.mem ptr = some m ∧ s.Released xs ys m c) ∧
    ((∀ c ∈ xs, chunkData s.mem c ≠ ptr) → free s.base s.mem ptr = some s.mem) := by
  have hl := h.ordered_iff.mp hl
  constructor
  · intro c hc hptr
    rw [h.holds.data (hl.alloc.mem c hc)] at hptr
    exact h.released hl hc hptr
  · intro hno
    have hsearch := hl.alloc.search_eq h.holds.geometry fun c => decide (t.data c = ptr)
    have hfind : (xs.find? fun c => decide (t.data c = ptr)) = none := by
      rw [List.find?_eq_none]
      intro c hc hptr
      exact hno c hc ((h.holds.data (hl.alloc.mem c hc)).trans (of_decide_eq_true hptr))
    rw [hfind, head] at hsearch
    rw [free, h.holds.search_data, hsearch]

theorem free_step_releases : ∃ s m,
    (init (fun _ => 0) 4096 65536).run [.malloc 16, .malloc 100, .free 4256] = some s ∧
      free s.base s.mem 4192 = some m ∧ s.Released [4160] [4224] m 4160 ∧
      free s.base s.mem 4256 = some s.mem := by
  obtain ⟨s, t, hs, h, hl, _, hdata⟩ := ordered_malloc_malloc_free
  have hmem := (h.ordered_iff.mp hl).alloc.mem
  have hd : chunkData s.mem 4160 = 4192 := (h.holds.data (hmem 4160 (by simp))).trans hdata
  obtain ⟨m, hm, hr⟩ := (free_step h hl 4192).1 4160 (by simp) hd
  refine ⟨s, m, hs, hm, hr, (free_step h hl 4256).2 ?_⟩
  intro c hc
  rw [List.mem_singleton.mp hc, hd]
  decide

end HeapState

end BiosKernel
