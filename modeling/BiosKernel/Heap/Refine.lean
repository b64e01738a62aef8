import BiosKernel.Heap.Holds

namespace BiosKernel
open ByteMem HeapTable Linked MachineInt Tiling
set_option autoImplicit true

variable {t t' : HeapTable}

@[simp] theorem HeapTable.addrs_unlink (t : HeapTable) (l : ListHead) (c : Nat) :
    (t.unlink l c).addrs = t.addrs := by
  simp only [HeapTable.unlink]
  split <;> split <;> simp

@[simp] theorem HeapTable.shape_unlink (t : HeapTable) (l : ListHead) (c : Nat) :
    (t.unlink l c).shape = t.shape := by
  simp only [HeapTable.unlink]
  split <;> split <;> simp

@[simp] theorem HeapTable.size_unlink (t : HeapTable) (l : ListHead) (c : Nat) :
    (t.unlink l c).size = t.size := by
  simp only [HeapTable.unlink]
  split <;> split <;> simp

@[simp] theorem HeapTable.data_unlink (t : HeapTable) (l : ListHead) (c : Nat) :
    (t.unlink l c).data = t.data := by
  simp only [HeapTable.unlink]
  split <;> split <;> simp

@[simp] theorem HeapTable.size_linkAllocated (t : HeapTable) (c : Nat) :
    (t.linkAllocated c).size = t.size := by
  simp only [HeapTable.linkAllocated]
  split <;> simp

@[simp] theorem HeapTable.addrs_linkAllocated (t : HeapTable) (c : Nat) :
    (t.linkAllocated c).addrs = t.addrs := by
  simp only [HeapTable.linkAllocated]
  split <;> simp

@[simp] theorem HeapTable.shape_linkAllocated (t : HeapTable) (c : Nat) :
    (t.linkAllocated c).shape = t.shape := by
  simp only [HeapTable.linkAllocated]
  split <;> simp

@[simp] theorem HeapTable.shape_linkFree (t : HeapTable) (c : Nat) :
    (t.linkFree c).shape = t.shape := by
  simp only [HeapTable.linkFree]
  split <;> simp

theorem Holds.unlink_front (h : Holds g m t) (hc : c ∈ t.addrs) (l : ListHead) :
    Holds g
      (if chunkBk m c ≠ 0 then BiosKernel.setFd m (chunkBk m c) (chunkFd m c)
        else store m (headAddr g l) 8 (chunkFd m c))
      (if t.bk c ≠ 0 then t.setFd (t.bk c) (t.fd c) else t.setHead (t.fd c) l) ∧
      (if t.bk c ≠ 0 then t.setFd (t.bk c) (t.fd c) else t.setHead (t.fd c) l).addrs =
        t.addrs := by
  have hfd := h.closed.fd c hc
  have hbk := h.closed.bk c hc
  rw [h.bk hc, h.fd hc]
  by_cases h0 : t.bk c ≠ 0
  · rw [if_pos h0, if_pos h0]
    exact ⟨h.setFd (hbk.mem h0) hfd, by simp⟩
  · rw [if_neg h0, if_neg h0]
    exact ⟨h.setHead hfd l, by simp⟩

theorem Holds.unlink (h : Holds g m t) (hc : c ∈ t.addrs) (l : ListHead) :
    Holds g (unlink m (headAddr g l) c) (t.unlink l c) := by
  have hfirst := h.unlink_front hc l
  rw [BiosKernel.unlink, HeapTable.unlink]
  generalize (if chunkBk m c ≠ 0 then BiosKernel.setFd m (chunkBk m c) (chunkFd m c)
    else store m (headAddr g l) 8 (chunkFd m c)) = m₁ at hfirst ⊢
  generalize (if t.bk c ≠ 0 then t.setFd (t.bk c) (t.fd c)
    else t.setHead (t.fd c) l) = t₁ at hfirst ⊢
  obtain ⟨h₁, ha⟩ := hfirst
  have hc₁ : c ∈ t₁.addrs := by rw [ha]; exact hc
  have hfd₁ := h₁.closed.fd c hc₁
  have hbk₁ := h₁.closed.bk c hc₁
  simp only [h₁.fd hc₁, h₁.bk hc₁]
  by_cases h0 : t₁.fd c ≠ 0
  · rw [if_pos h0, if_pos h0]
    exact h₁.setBk (hfd₁.mem h0) hbk₁
  · rw [if_neg h0, if_neg h0]
    exact h₁

theorem Holds.search_free (h : Holds g m t) (n : Nat) :
    searchFree g m n = t.findFree (u64 (n + 32)) := by
  rw [findFree, searchFree, h.bin]
  apply search_congr (S := fun c => c ∈ t.addrs)
  · exact h.closed.fd
  · intro c hc; exact h.fd hc
  · intro c hc; rw [h.size hc, sizeofMallocChunk]
  · exact h.closed.bin

theorem Holds.search_data (h : Holds g m t) (ptr : Nat) :
    search 0 (chunkFd m) (fun c => decide (chunkData m c = ptr)) loopBound
        (BiosKernel.mchunk g m) =
      search 0 t.fd (fun c => decide (t.data c = ptr)) loopBound t.mchunk := by
  rw [h.mchunk]
  apply search_congr (S := fun c => c ∈ t.addrs)
  · exact h.closed.fd
  · intro c hc; exact h.fd hc
  · intro c hc; rw [h.data hc]
  · exact h.closed.mchunk

theorem HeapTable.findFree_mem (h : t.Closed) (hf : t.findFree need = some (some c)) :
    c ∈ t.addrs ∧ need ≤ t.size c := by
  have hm := search_mem (S := fun c => c ∈ t.addrs) h.fd h.bin hf
  exact ⟨hm.1, of_decide_eq_true hm.2⟩

/-- The bytes with a chunk linked in front of the allocated list. -/
def pushAllocated (g : Nat) (m : Mem) (c : Nat) : Mem :=
  let next := BiosKernel.mchunk g m
  let m := if next ≠ 0 then setBk m next c else m
  setFd (store m (g + 24) 8 c) c next

/-- The bytes with a chunk linked in front of the unsorted bin. -/
def pushFree (g : Nat) (m : Mem) (c : Nat) : Mem :=
  let m := setBk m c 0
  let m := setFd m c (unsortedBinHead g m)
  let m := if chunkFd m c ≠ 0 then setBk m (chunkFd m c) c else m
  store m (g + 32) 8 c

theorem Holds.pushAllocated (h : Holds g m t) (hc : c ∈ t.addrs) :
    Holds g (pushAllocated g m c) (t.linkAllocated c) := by
  rw [BiosKernel.pushAllocated, h.mchunk, HeapTable.linkAllocated]
  have hm := h.closed.mchunk
  by_cases h0 : t.mchunk ≠ 0
  · simp only [if_pos h0]
    have h₁ := h.setBk (hm.mem h0) (.inr hc)
    have h₂ := h₁.setHead (v := c) (.inr (by simpa using hc)) .allocated
    exact h₂.setFd (by simpa using hc) (by simpa [Ptr] using hm)
  · simp only [if_neg h0]
    have h₂ := h.setHead (v := c) (.inr hc) .allocated
    exact h₂.setFd (by simpa using hc) (by simpa [Ptr] using hm)

theorem Holds.payload_size (h : Holds g m t) (hc : c ∈ t.addrs) :
    u64 (t.size c + 2 ^ 64 - sizeofMallocChunk) + 32 = t.size c := by
  have hs := h.geometry.size_bounds hc
  rw [u64, sizeofMallocChunk]
  omega

theorem linkAllocated_reused_mem (hn : new.data = c + 32) :
    (linkAllocated g m true c new).mem =
      fill (pushAllocated g m c) (c + 32) 0
        (u64 (new.mchunkSize + 2 ^ 64 - sizeofMallocChunk)) := by
  simp only [linkAllocated, pushAllocated, hn, ↓reduceIte, setFd]
  exact store_fill_comm _ _ _ (.inr (by omega))

theorem Holds.reuse (h : Holds g m t) (hc : c ∈ t.addrs) :
    (reuseChunk g m c).newMchunk.data = c + 32 ∧
      (reuseChunk g m c).newMchunk.mchunkSize = t.size c ∧
      Holds g (reuseChunk g m c).mem ((t.unlink .unsortedBin c).linkAllocated c) := by
  have hd := (h.data hc).trans (h.geometry.data_eq hc)
  have hl := (h.unlink hc .unsortedBin).pushAllocated (by simpa using hc)
  have hp := hl.payload_size (c := c) (by simpa using hc)
  have hfill := hl.fill (c := c) (by simpa using hc) (Nat.le_of_eq hp)
  rw [size_linkAllocated, size_unlink, ← h.size hc] at hfill
  refine ⟨hd, h.size hc, ?_⟩
  rw [reuseChunk, linkAllocated_reused_mem hd]
  exact hfill

theorem linkAllocated_new_mem (hn : new.data = c + 32) (hg : g + 64 ≤ c)
    (hf : mchunk g m + 24 ≤ c) :
    (linkAllocated g m false c new).mem =
      let m' := fill (MallocChunk.write { new with bk := 0, fd := mchunk g m } m c) (c + 32) 0
        (u64 (new.mchunkSize + 2 ^ 64 - sizeofMallocChunk))
      setFd (store (if mchunk g m ≠ 0 then setBk m' (mchunk g m) c else m') (g + 24) 8 c) c
        (mchunk g m) := by
  simp only [linkAllocated, hn, Bool.false_eq_true, ↓reduceIte]
  congr 1
  by_cases h0 : mchunk g m ≠ 0
  · rw [if_pos h0, if_pos h0, setBk, setBk, write_store_comm _ _ _ (.inr (by omega)),
      write_store_comm _ _ _ (.inr (by omega)), store_fill_comm _ _ _ (.inr (by omega)),
      store_fill_comm _ _ _ (.inr (by omega))]
  · rw [if_neg h0, if_neg h0, write_store_comm _ _ _ (.inr (by omega)),
      store_fill_comm _ _ _ (.inr (by omega))]

/-- The break is stored in eight bytes, so it does not matter where it wraps around. -/
theorem brk_u64 (g : Nat) (m : Mem) (v : Nat) : brk g m (u64 v) = brk g m v :=
  store_mod m (g + 8) 8 v

theorem Holds.mchunk_carveMem (h : Holds g m t) (n : Nat) :
    BiosKernel.mchunk g (carveMem g m n) = t.mchunk := by
  have hge := h.geometry.tiles.le
  have hend := h.heapEnd
  rw [← h.mchunk]
  apply load_congr
  intro x hx hx'
  exact carveMem_apart (by omega) (by omega)

theorem Holds.expandHeap_eq (h : Holds g m t) (hn : n + 32 < 2 ^ 32) :
    (expandHeap g m n).newAddr = t.heapEnd ∧
      (expandHeap g m n).newMchunk.data = t.heapEnd + 32 ∧
      (expandHeap g m n).newMchunk.mchunkSize = max 64 (n + 32) ∧
      (expandHeap g m n).mem =
        BiosKernel.pushAllocated g (carveMem g m (max 64 (n + 32))) t.heapEnd := by
  have hge := h.geometry.tiles.le
  have htop := h.geometry.top
  have hdvd := h.geometry.heapEnd_dvd
  have hsz : u32 (sizeofMallocChunk + max (heapChunkMinSizeBytes - sizeofMallocChunk) n) =
      max 64 (n + 32) := by
    simp only [u32, sizeofMallocChunk, heapChunkMinSizeBytes]
    omega
  have hdata : u64 (t.heapEnd + sizeofMallocChunk) = t.heapEnd + 32 := by
    rw [u64, sizeofMallocChunk]
    omega
  have hbrk : sbrk g m (max 64 (n + 32)) =
      (t.heapEnd, brk g m (t.heapEnd + aalign (max 64 (n + 32)) 64)) := by
    rw [sbrk, h.heapEnd, heapChunkMinSizeBytes, brk_u64]
  have hmc : BiosKernel.mchunk g (brk g m (t.heapEnd + aalign (max 64 (n + 32)) 64)) =
      t.mchunk := (load_store_apart _ _ (.inl (by omega))).trans h.mchunk
  have hfar : t.mchunk + 24 ≤ t.heapEnd := by
    rcases h.closed.mchunk with h0 | hm
    · omega
    · have hw := h.geometry.within hm
      have hs := h.geometry.size_bounds hm
      have hl := h.geometry.size_le hm
      omega
  have hpay : u64 (max 64 (n + 32) + 2 ^ 64 - sizeofMallocChunk) = max 64 (n + 32) - 32 := by
    rw [u64, sizeofMallocChunk]
    omega
  rw [expandHeap, hsz, hbrk]
  refine ⟨rfl, hdata, rfl, ?_⟩
  rw [BiosKernel.pushAllocated, h.mchunk_carveMem]
  dsimp only
  rw [linkAllocated_new_mem hdata (by omega) (by rw [hmc]; exact hfar)]
  simp only [hpay, hmc, hdata, carveMem, h.heapEnd, h.mchunk]

theorem Holds.expand (h : Holds g m t) (hd : 16 ∣ n) (hn : n + 32 < 2 ^ 32)
    (he : t.heapEnd + aalign (max 64 (n + 32)) 64 < 2 ^ 64) :
    (expandHeap g m n).newAddr = t.heapEnd ∧
      (expandHeap g m n).newMchunk.data = t.heapEnd + 32 ∧
      (expandHeap g m n).newMchunk.mchunkSize = max 64 (n + 32) ∧
      Holds g (expandHeap g m n).mem
        ((t.carve (max 64 (n + 32))).linkAllocated t.heapEnd) := by
  obtain ⟨ha, hdata, hsz, hmem⟩ := h.expandHeap_eq hn
  have hdvd : 16 ∣ max 64 (n + 32) := by
    rcases Nat.le_total 64 (n + 32) with hle | hle
    · rw [Nat.max_eq_right hle]; omega
    · rw [Nat.max_eq_left hle]; omega
  have hc := h.carve hdvd (Nat.le_max_left _ _) (by omega) he
  have hl := hc.pushAllocated (c := t.heapEnd) (by rw [addrs_carve]; simp)
  exact ⟨ha, hdata, hsz, hmem ▸ hl⟩

theorem Holds.pushFree (h : Holds g m t) (hc : c ∈ t.addrs) :
    Holds g (pushFree g m c) (t.linkFree c) := by
  have h₁ := h.setBk hc (.inl rfl)
  have hc₁ : c ∈ (t.setBk c 0).addrs := by simpa using hc
  have hu : (t.setBk c 0).Ptr t.unsortedBinHead := by
    simpa [Ptr] using h.closed.bin
  rw [BiosKernel.pushFree, h₁.bin, unsortedBinHead_setBk]
  have h₂ := h₁.setFd hc₁ hu
  have hc₂ : c ∈ ((t.setBk c 0).setFd c t.unsortedBinHead).addrs := by simpa using hc
  rw [h₂.fd hc₂, HeapTable.linkFree]
  generalize (t.setBk c 0).setFd c t.unsortedBinHead = t₂ at h₂ hc₂ ⊢
  have hf := h₂.closed.fd c hc₂
  by_cases h0 : t₂.fd c ≠ 0
  · rw [if_pos h0, if_pos h0]
    have h₃ := h₂.setBk (hf.mem h0) (.inr hc₂)
    exact h₃.setHead (.inr (by simpa using hc₂)) .unsortedBin
  · rw [if_neg h0, if_neg h0]
    exact h₂.setHead (.inr hc₂) .unsortedBin

@[simp] theorem HeapTable.size_linkFree (t : HeapTable) (c : Nat) :
    (t.linkFree c).size = t.size := by
  simp only [HeapTable.linkFree]
  split <;> simp

@[simp] theorem HeapTable.data_linkFree (t : HeapTable) (c : Nat) :
    (t.linkFree c).data = t.data := by
  simp only [HeapTable.linkFree]
  split <;> simp

@[simp] theorem HeapTable.addrs_linkFree (t : HeapTable) (c : Nat) :
    (t.linkFree c).addrs = t.addrs := by
  simp only [HeapTable.linkFree]
  split <;> simp

theorem Holds.malloc_diverges (h : Holds g m t)
    (hf : t.findFree (u64 (aalign n 16 + 32)) = none) : malloc g m n = none := by
  rw [malloc, h.search_free, hf]

theorem Holds.malloc_reuse (h : Holds g m t)
    (hf : t.findFree (u64 (aalign n 16 + 32)) = some (some c)) :
    malloc g m n = some (reuseChunk g m c) := by
  rw [malloc, h.search_free, hf]

theorem Holds.malloc_expand (h : Holds g m t)
    (hf : t.findFree (u64 (aalign n 16 + 32)) = some none) :
    malloc g m n = some (expandHeap g m (aalign n 16)) := by
  rw [malloc, h.search_free, hf]

theorem Holds.free_chunk (h : Holds g m t)
    (hf : search 0 t.fd (fun c => decide (t.data c = ptr)) loopBound t.mchunk = some (some c)) :
    ∃ m', free g m ptr = some m' ∧ c ∈ t.addrs ∧ t.data c = ptr ∧
      Holds g m' ((t.unlink .allocated c).linkFree c) := by
  obtain ⟨hc, hptr⟩ := search_mem (S := fun c => c ∈ t.addrs) h.closed.fd h.closed.mchunk hf
  have hu := (h.unlink hc .allocated).pushFree (by simpa using hc)
  have hd := hu.data (c := c) (by simpa using hc)
  have hp := hu.payload_size (c := c) (by simpa using hc)
  have hs := hu.size (c := c) (by simpa using hc)
  have hfill := hu.fill (c := c) (by simpa using hc) (Nat.le_of_eq hp)
  rw [data_linkFree, data_unlink, h.geometry.data_eq hc] at hd
  refine ⟨_, by rw [free, h.search_data, hf], hc, of_decide_eq_true hptr, ?_⟩
  rw [← hd, ← hs] at hfill
  exact hfill

/-- The history of the run is the table's: `sbrk` returned its chunks, in that order. -/
structure HeapState.Tracks (s : HeapState) (t : HeapTable) : Prop where
  holds : Holds s.base s.mem t
  carved : s.carved = t.addrs

variable {s : HeapState}

theorem HeapState.Tracks.malloc_diverges (h : s.Tracks t) (hn : aalign n 16 + 32 < 2 ^ 32)
    (hf : t.findFree (aalign n 16 + 32) = none) : s.step (.malloc n) = none := by
  have hu : u64 (aalign n 16 + 32) = aalign n 16 + 32 := Nat.mod_eq_of_lt (by omega)
  rw [step, h.holds.malloc_diverges (by rw [hu]; exact hf)]
  rfl

/-- A completed `malloc` of a request whose chunk size fits its 32-bit field, and an unbounded
address space above the break. -/
theorem HeapState.Tracks.malloc (h : s.Tracks t) (hn : aalign n 16 + 32 < 2 ^ 32)
    (he : t.findFree (aalign n 16 + 32) = some none →
      t.heapEnd + aalign (max 64 (aalign n 16 + 32)) 64 < 2 ^ 64)
    (hr : t.malloc (aalign n 16 + 32) = some (c, t')) :
    ∃ s', s.step (.malloc n) = some s' ∧ s'.Tracks t' ∧ s'.base = s.base ∧
      s'.live = (c + 32, n) :: s.live := by
  have hu : u64 (aalign n 16 + 32) = aalign n 16 + 32 := Nat.mod_eq_of_lt (by omega)
  rw [HeapTable.malloc] at hr
  cases hf : t.findFree (aalign n 16 + 32) with
  | none => rw [hf] at hr; cases hr
  | some r =>
    rw [hf] at hr
    cases r with
    | none =>
      obtain ⟨rfl, rfl⟩ := Prod.mk.inj (Option.some.inj hr)
      obtain ⟨ha, hd, hsz, hh⟩ := h.holds.expand (sixteen_dvd_aalign n) hn (he hf)
      refine ⟨s.returned n (expandHeap s.base s.mem (aalign n 16)), ?_, ⟨hh, ?_⟩, rfl, ?_⟩
      · rw [step, h.holds.malloc_expand (by rw [hu]; exact hf)]
        rfl
      · rw [addrs_linkAllocated, addrs_carve, ← h.carved, ← ha]
        rfl
      · rw [returned, hd]
    | some c =>
      obtain ⟨rfl, rfl⟩ := Prod.mk.inj (Option.some.inj hr)
      have hc := (findFree_mem h.holds.closed hf).1
      obtain ⟨hd, hsz, hh⟩ := h.holds.reuse hc
      refine ⟨s.returned n (reuseChunk s.base s.mem c), ?_, ⟨hh, ?_⟩, rfl, ?_⟩
      · rw [step, h.holds.malloc_reuse (by rw [hu]; exact hf)]
        rfl
      · rw [addrs_linkAllocated, addrs_unlink, ← h.carved]
        rfl
      · rw [returned, hd]

theorem HeapState.Tracks.free (h : s.Tracks t) (hr : t.free ptr = some t') :
    ∃ s', s.step (.free ptr) = some s' ∧ s'.Tracks t' ∧ s'.base = s.base ∧
      s'.live = s.live.filter fun l => l.1 ≠ ptr := by
  rw [HeapTable.free] at hr
  cases hf : search 0 t.fd (fun c => decide (t.data c = ptr)) loopBound t.mchunk with
  | none => rw [hf] at hr; cases hr
  | some r =>
    rw [hf] at hr
    cases r with
    | none =>
      cases hr
      refine ⟨s.released ptr s.mem, ?_, ⟨h.holds, h.carved⟩, rfl, rfl⟩
      rw [step, BiosKernel.free, h.holds.search_data, hf]
      rfl
    | some c =>
      obtain rfl := Option.some.inj hr
      obtain ⟨m', hm, hc, hptr, hh⟩ := h.holds.free_chunk hf
      refine ⟨s.released ptr m', by rw [step, hm]; rfl, ⟨hh, ?_⟩, rfl, rfl⟩
      rw [addrs_linkFree, addrs_unlink]
      exact h.carved

theorem HeapState.Tracks.free_diverges (h : s.Tracks t) (hr : t.free ptr = none) :
    s.step (.free ptr) = none := by
  rw [HeapTable.free] at hr
  cases hf : search 0 t.fd (fun c => decide (t.data c = ptr)) loopBound t.mchunk with
  | none =>
    rw [step, BiosKernel.free, h.holds.search_data, hf]
    rfl
  | some r =>
    rw [hf] at hr
    cases r <;> cases hr

theorem initHeap_fields (m : Mem) (baseAddr size : Nat)
    (hb : aalign baseAddr 64 + 64 < 2 ^ 64) :
    heapEnd (initHeap m baseAddr size).1 (initHeap m baseAddr size).2 = aalign baseAddr 64 + 64 ∧
      heapTotalSize (initHeap m baseAddr size).1 (initHeap m baseAddr size).2 =
        u64 (aalign size 64) ∧
      mchunk (initHeap m baseAddr size).1 (initHeap m baseAddr size).2 = 0 ∧
      unsortedBinHead (initHeap m baseAddr size).1 (initHeap m baseAddr size).2 = 0 := by
  have hw : (256 : Nat) ^ 8 = 2 ^ 64 := by decide
  simp only [initHeap, heapEnd, heapTotalSize, mchunk, unsortedBinHead, brk, u64,
    heapChunkMinSizeBytes, sizeofMallocState, Nat.mod_eq_of_lt hb]
  refine ⟨load_store_of_lt _ _ _ (by omega), ?_, ?_, ?_⟩
  · rw [load_store_apart _ _ (.inl (by omega)), load_fill_apart _ _ (.inr (by omega)),
      load_store_apart _ _ (.inr (by omega)), load_store_apart _ _ (.inr (by omega)),
      load_store_same, hw]
  · rw [load_store_apart _ _ (.inl (by omega)), load_fill_apart _ _ (.inr (by omega)),
      load_store_apart _ _ (.inr (by omega)), load_store_of_lt _ _ _ (by omega)]
  · rw [load_store_apart _ _ (.inl (by omega)), load_fill_apart _ _ (.inr (by omega)),
      load_store_of_lt _ _ _ (by omega)]

def HeapTable.empty (g total : Nat) : HeapTable := ⟨g + 64, total, 0, 0, []⟩

theorem HeapState.init_tracks (m : Mem) (baseAddr size : Nat)
    (hb : aalign baseAddr 64 + 64 < 2 ^ 64) :
    (HeapState.init m baseAddr size).Tracks
      (HeapTable.empty (aalign baseAddr 64) (u64 (aalign size 64))) := by
  obtain ⟨he, hs, hm, hu⟩ := initHeap_fields m baseAddr size hb
  have hno (c : Nat) : c ∉ (HeapTable.empty (aalign baseAddr 64) (u64 (aalign size 64))).addrs :=
    List.not_mem_nil
  refine ⟨⟨he, hs, hm, hu, ?_, ⟨sixtyfour_dvd_aalign _, hb, rfl, ?_⟩,
    ⟨.inl rfl, .inl rfl, ?_, ?_⟩⟩, rfl⟩
  · intro c hc
    exact absurd hc (hno c)
  · intro p hp
    cases hp
  · intro c hc
    exact absurd hc (hno c)
  · intro c hc
    exact absurd hc (hno c)

end BiosKernel
