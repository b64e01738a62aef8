import BiosKernel.Heap.Table

namespace BiosKernel
open ByteMem Linked MachineInt Tiling
set_option autoImplicit true

theorem aalign_bounds (h : n + a ≤ 2 ^ 64) (ha : 0 < a) :
    n ≤ aalign n a ∧ aalign n a < n + a ∧ a ∣ aalign n a := by
  rw [aalign]
  split
  · next hd =>
    rcases hd with h0 | hm
    · omega
    · exact ⟨Nat.le_refl n, Nat.lt_add_of_pos_right ha, Nat.dvd_of_mod_eq_zero hm⟩
  · next hd =>
    have hm : n % a ≠ 0 := fun h => hd (.inr h)
    have hdiv := Nat.div_add_mod n a
    have hlt := Nat.mod_lt n ha
    have he : (n / a + 1) * a = a * (n / a) + a := by rw [Nat.succ_mul, Nat.mul_comm]
    rw [u64, Nat.mod_eq_of_lt (by omega), he]
    refine ⟨by omega, by omega, ?_⟩
    exact Nat.dvd_add (Nat.dvd_mul_right a _) (Nat.dvd_refl a)

theorem dvd_aalign (n : Nat) (ha : a ∣ 2 ^ 64) : a ∣ aalign n a := by
  rw [aalign]
  split
  · next h =>
    rcases h with rfl | h
    · exact absurd (Nat.eq_zero_of_zero_dvd ha) (by decide)
    · exact Nat.dvd_of_mod_eq_zero h
  · exact (Nat.dvd_mod_iff ha).mpr (Nat.dvd_mul_left a _)

theorem sixteen_dvd_aalign (n : Nat) : 16 ∣ aalign n 16 := dvd_aalign n (by decide)

theorem sixtyfour_dvd_aalign (n : Nat) : 64 ∣ aalign n 64 := dvd_aalign n (by decide)

namespace HeapTable

variable {t t' : HeapTable}

/-- A stored pointer is `NULL` or the address of a carved chunk. -/
def Ptr (t : HeapTable) (v : Nat) : Prop := v = 0 ∨ v ∈ t.addrs

structure Closed (t : HeapTable) : Prop where
  mchunk : t.Ptr t.mchunk
  bin : t.Ptr t.unsortedBinHead
  fd : ∀ c ∈ t.addrs, t.Ptr (t.fd c)
  bk : ∀ c ∈ t.addrs, t.Ptr (t.bk c)

/-- The chunks fill the space between the heap header and the break. -/
structure Geometry (g : Nat) (t : HeapTable) : Prop where
  base : 64 ∣ g
  top : t.heapEnd < 2 ^ 64
  tiles : Tiles (g + 64) (t.shape.map fun p => (p.1, aalign p.2.1 64)) t.heapEnd
  chunk : ∀ p ∈ t.shape, p.2.2 = p.1 + 32 ∧ 16 ∣ p.2.1 ∧ 64 ≤ p.2.1 ∧ p.2.1 < 2 ^ 32

theorem Closed.setFd (h : t.Closed) (hv : t.Ptr v) (hc : c ∈ t.addrs) : (t.setFd c v).Closed := by
  obtain ⟨hm, hb, hf, hk⟩ := h
  refine ⟨by simpa [Ptr] using hm, by simpa [Ptr] using hb, ?_, by simpa [Ptr] using hk⟩
  intro d hd
  rw [addrs_setFd] at hd
  rw [Ptr, addrs_setFd, fd_setFd t v hc]
  by_cases he : d = c
  · rw [he, Function.update_self]; exact hv
  · rw [Function.update_of_ne he]; exact hf d hd

theorem Closed.setBk (h : t.Closed) (hv : t.Ptr v) (hc : c ∈ t.addrs) : (t.setBk c v).Closed := by
  obtain ⟨hm, hb, hf, hk⟩ := h
  refine ⟨by simpa [Ptr] using hm, by simpa [Ptr] using hb, by simpa [Ptr] using hf, ?_⟩
  intro d hd
  rw [addrs_setBk] at hd
  rw [Ptr, addrs_setBk, bk_setBk t v hc]
  by_cases he : d = c
  · rw [he, Function.update_self]; exact hv
  · rw [Function.update_of_ne he]; exact hk d hd

theorem Closed.setHead (h : t.Closed) (hv : t.Ptr v) (l : ListHead) : (t.setHead v l).Closed := by
  obtain ⟨hm, hb, hf, hk⟩ := h
  cases l with
  | allocated => exact ⟨hv, hb, hf, hk⟩
  | unsortedBin => exact ⟨hm, hv, hf, hk⟩

theorem Closed.head (h : t.Closed) (l : ListHead) : t.Ptr (t.head l) := by
  cases l with
  | allocated => exact h.mchunk
  | unsortedBin => exact h.bin

theorem Ptr.mem (h : Ptr t v) (hv : v ≠ 0) : v ∈ t.addrs := h.resolve_left hv

theorem Geometry.congr (h : Geometry g t) (he : t'.heapEnd = t.heapEnd)
    (hs : t'.shape = t.shape) : Geometry g t' := by
  obtain ⟨hb, ht, hl, hc⟩ := h
  exact ⟨hb, he ▸ ht, by rw [hs, he]; exact hl, by rw [hs]; exact hc⟩

theorem Geometry.size_bounds (h : Geometry g t) (hc : c ∈ t.addrs) :
    16 ∣ t.size c ∧ 64 ≤ t.size c ∧ t.size c < 2 ^ 32 := (h.chunk _ (t.mem_shape hc)).2

theorem Geometry.data_eq (h : Geometry g t) (hc : c ∈ t.addrs) : t.data c = c + 32 :=
  (h.chunk _ (t.mem_shape hc)).1

theorem Geometry.size_le (h : Geometry g t) (hc : c ∈ t.addrs) :
    t.size c ≤ aalign (t.size c) 64 := by
  have hs := h.size_bounds hc
  exact (aalign_bounds (by omega) (by omega)).1

theorem Geometry.within (h : Geometry g t) (hc : c ∈ t.addrs) :
    g + 64 ≤ c ∧ c + aalign (t.size c) 64 ≤ t.heapEnd :=
  h.tiles.within (List.mem_map_of_mem (f := fun p => (p.1, aalign p.2.1 64)) (t.mem_shape hc))

theorem Geometry.apart (h : Geometry g t) (hc : c ∈ t.addrs) (hd : d ∈ t.addrs) (hne : c ≠ d) :
    c + aalign (t.size c) 64 ≤ d ∨ d + aalign (t.size d) 64 ≤ c := by
  have hm (x : Nat) (hx : x ∈ t.addrs) :=
    List.mem_map_of_mem (f := fun p => (p.1, aalign p.2.1 64)) (t.mem_shape hx)
  exact h.tiles.apart (hm c hc) (hm d hd) hne

theorem Geometry.ptr_lt (h : Geometry g t) (hv : t.Ptr v) : v < 2 ^ 64 := by
  rcases hv with h0 | hv
  · omega
  · have hw := h.within hv
    have ht := h.top
    omega

theorem Geometry.apart_header (h : Geometry g t) (hc : c ∈ t.addrs) (hd : d ∈ t.addrs)
    (hne : c ≠ d) : c + 64 ≤ d ∨ d + 64 ≤ c := by
  have ha := h.apart hc hd hne
  have hs := h.size_bounds hc
  have hs' := h.size_bounds hd
  have hl := h.size_le hc
  have hl' := h.size_le hd
  omega

theorem Geometry.heapEnd_dvd (h : Geometry g t) : 64 ∣ t.heapEnd :=
  (h.tiles.dvd (k := 64) (Nat.dvd_add h.base (Nat.dvd_refl 64)) (by
    intro b hb
    obtain ⟨p, _, rfl⟩ := List.mem_map.mp hb
    exact sixtyfour_dvd_aalign _)).1

end HeapTable

open HeapTable

variable {t t' : HeapTable}

def readHeader (m : Mem) (c : Nat) : Header where
  size := chunkSize m c
  fd := chunkFd m c
  bk := chunkBk m c
  data := chunkData m c

/-- The bytes hold the table, and the table is well placed with all its pointers inside it. Every
operation of the allocator keeps this, whatever has happened to the links. -/
structure Holds (g : Nat) (m : Mem) (t : HeapTable) : Prop where
  heapEnd : heapEnd g m = t.heapEnd
  total : heapTotalSize g m = t.heapTotalSize
  mchunk : mchunk g m = t.mchunk
  bin : unsortedBinHead g m = t.unsortedBinHead
  header : ∀ c ∈ t.addrs, readHeader m c = t.header c
  geometry : Geometry g t
  closed : t.Closed

theorem Holds.fd (h : Holds g m t) (hc : c ∈ t.addrs) : chunkFd m c = t.fd c :=
  congrArg Header.fd (h.header c hc)

theorem Holds.bk (h : Holds g m t) (hc : c ∈ t.addrs) : chunkBk m c = t.bk c :=
  congrArg Header.bk (h.header c hc)

theorem Holds.size (h : Holds g m t) (hc : c ∈ t.addrs) : chunkSize m c = t.size c :=
  congrArg Header.size (h.header c hc)

theorem Holds.data (h : Holds g m t) (hc : c ∈ t.addrs) : chunkData m c = t.data c :=
  congrArg Header.data (h.header c hc)

theorem readHeader_congr (h : ∀ x, c ≤ x → x < c + 32 → m x = m' x) :
    readHeader m c = readHeader m' c := by
  have hl (i k : Nat) (hi : i + k ≤ 32) : load m (c + i) k = load m' (c + i) k := by
    apply load_congr
    intro x hx hx'
    exact h x (by omega) (by omega)
  simp only [readHeader, chunkSize, chunkFd, chunkBk, chunkData, hl 4 4 (by omega),
    hl 8 8 (by omega), hl 16 8 (by omega), hl 24 8 (by omega)]

theorem readHeader_setFd (hv : v < 2 ^ 64) :
    readHeader (setFd m c v) c = { readHeader m c with fd := v } := by
  have hs : chunkSize (setFd m c v) c = chunkSize m c := load_store_apart _ _ (.inr (by omega))
  have hb : chunkBk (setFd m c v) c = chunkBk m c := load_store_apart _ _ (.inl (by omega))
  have hd : chunkData (setFd m c v) c = chunkData m c := load_store_apart _ _ (.inl (by omega))
  have hf : chunkFd (setFd m c v) c = v := load_store_of_lt _ _ _ (by omega)
  simp only [readHeader, hs, hb, hd, hf]

theorem readHeader_setBk (hv : v < 2 ^ 64) :
    readHeader (setBk m c v) c = { readHeader m c with bk := v } := by
  have hs : chunkSize (setBk m c v) c = chunkSize m c := load_store_apart _ _ (.inr (by omega))
  have hf : chunkFd (setBk m c v) c = chunkFd m c := load_store_apart _ _ (.inr (by omega))
  have hd : chunkData (setBk m c v) c = chunkData m c := load_store_apart _ _ (.inl (by omega))
  have hb : chunkBk (setBk m c v) c = v := load_store_of_lt _ _ _ (by omega)
  simp only [readHeader, hs, hb, hd, hf]

theorem Holds.modify (h : Holds g m t) (hc : c ∈ t.addrs) (f : Header → Header)
    (hm : ∀ x, x < c ∨ c + 32 ≤ x → m' x = m x)
    (hf : readHeader m' c = f (readHeader m c)) (hs : (t.modify c f).shape = t.shape)
    (hcl : (t.modify c f).Closed) : Holds g m' (t.modify c f) := by
  have hw := h.geometry.within hc
  have hl (i k : Nat) (hi : i + k ≤ 64) : load m' (g + i) k = load m (g + i) k := by
    apply load_congr
    intro x hx hx'
    exact hm x (by omega)
  have ha : (t.modify c f).addrs = t.addrs := by rw [addrs_eq_shape, hs, addrs_eq_shape]
  refine ⟨(hl 8 8 (by omega)).trans h.heapEnd, (hl 16 8 (by omega)).trans h.total,
    (hl 24 8 (by omega)).trans h.mchunk, (hl 32 8 (by omega)).trans h.bin, ?_,
    h.geometry.congr rfl hs, hcl⟩
  intro d hd
  rw [ha] at hd
  rw [header_modify]
  by_cases he : d = c
  · subst he
    rw [if_pos ⟨rfl, hc⟩, hf, h.header d hd]
  · rw [if_neg (fun hh => he hh.1), ← h.header d hd]
    have hfar := h.geometry.apart_header hd hc he
    apply readHeader_congr
    intro x hx hx'
    exact hm x (by omega)

theorem Holds.setFd (h : Holds g m t) (hc : c ∈ t.addrs) (hv : t.Ptr v) :
    Holds g (setFd m c v) (t.setFd c v) := by
  apply h.modify hc
  · intro x hx
    exact store_apart _ _ (by omega)
  · exact readHeader_setFd (h.geometry.ptr_lt hv)
  · exact shape_setFd t c v
  · exact h.closed.setFd hv hc

theorem Holds.setBk (h : Holds g m t) (hc : c ∈ t.addrs) (hv : t.Ptr v) :
    Holds g (setBk m c v) (t.setBk c v) := by
  apply h.modify hc
  · intro x hx
    exact store_apart _ _ (by omega)
  · exact readHeader_setBk (h.geometry.ptr_lt hv)
  · exact shape_setBk t c v
  · exact h.closed.setBk hv hc

def headAddr (g : Nat) : ListHead → Nat
  | .allocated => g + 24
  | .unsortedBin => g + 32

theorem Holds.setHead (h : Holds g m t) (hv : t.Ptr v) (l : ListHead) :
    Holds g (store m (headAddr g l) 8 v) (t.setHead v l) := by
  have hvlt := h.geometry.ptr_lt hv
  have ha : headAddr g .allocated = g + 24 := rfl
  have hu : headAddr g .unsortedBin = g + 32 := rfl
  have hh : ∀ c ∈ t.addrs, readHeader (store m (headAddr g l) 8 v) c = t.header c := by
    intro c hc
    rw [← h.header c hc]
    have hw := h.geometry.within hc
    apply readHeader_congr
    intro x hx hx'
    apply store_apart
    cases l <;> omega
  cases l with
  | allocated =>
    refine ⟨?_, ?_, load_store_of_lt _ _ _ (by omega), ?_, hh, h.geometry.congr rfl rfl,
      h.closed.setHead hv .allocated⟩
    · exact (load_store_apart _ _ (.inr (by omega))).trans h.heapEnd
    · exact (load_store_apart _ _ (.inr (by omega))).trans h.total
    · exact (load_store_apart _ _ (.inl (by omega))).trans h.bin
  | unsortedBin =>
    refine ⟨?_, ?_, ?_, load_store_of_lt _ _ _ (by omega), hh, h.geometry.congr rfl rfl,
      h.closed.setHead hv .unsortedBin⟩
    · exact (load_store_apart _ _ (.inr (by omega))).trans h.heapEnd
    · exact (load_store_apart _ _ (.inr (by omega))).trans h.total
    · exact (load_store_apart _ _ (.inr (by omega))).trans h.mchunk

theorem Holds.fill (h : Holds g m t) (hc : c ∈ t.addrs) (hn : n + 32 ≤ t.size c) :
    Holds g (fill m (c + 32) 0 n) t := by
  have hw := h.geometry.within hc
  have hb := h.geometry.size_le hc
  have hl (i k : Nat) (hi : i + k ≤ 64) :
      load (ByteMem.fill m (c + 32) 0 n) (g + i) k = load m (g + i) k :=
    load_fill_apart _ _ (.inr (by omega))
  refine ⟨(hl 8 8 (by omega)).trans h.heapEnd, (hl 16 8 (by omega)).trans h.total,
    (hl 24 8 (by omega)).trans h.mchunk, (hl 32 8 (by omega)).trans h.bin, ?_, h.geometry,
    h.closed⟩
  intro d hd
  rw [← h.header d hd]
  apply readHeader_congr
  intro x hx hx'
  rw [fill_apply, if_neg]
  by_cases he : d = c
  · omega
  · have ha := h.geometry.apart hd hc he
    have hb' := h.geometry.size_le hd
    have hs := h.geometry.size_bounds hd
    omega

theorem write_apart (h : MallocChunk) (m : Mem) (hx : x < c ∨ c + 32 ≤ x) :
    h.write m c x = m x := by
  unfold MallocChunk.write BiosKernel.setFd BiosKernel.setBk
  rw [store_apart _ _ (by omega), store_apart _ _ (by omega), store_apart _ _ (by omega),
    store_apart _ _ (by omega), store_apart _ _ (by omega)]

theorem write_store_comm (h : MallocChunk) (m : Mem) (w : Nat) (ha : Apart c 32 b k) :
    h.write (store m b k w) c = store (h.write m c) b k w := by
  have hc (i n v : Nat) (hi : i + n ≤ 32) (m : Mem) :
      store (store m b k w) (c + i) n v = store (store m (c + i) n v) b k w := by
    apply store_comm
    unfold Apart at ha ⊢
    omega
  unfold MallocChunk.write BiosKernel.setFd BiosKernel.setBk
  have h0 := hc 0 4 h.mchunkPrevSize (by omega) m
  rw [Nat.add_zero] at h0
  simp only [h0, hc 4 4 _ (by omega), hc 8 8 _ (by omega), hc 16 8 _ (by omega),
    hc 24 8 _ (by omega)]

theorem readHeader_write (h : MallocChunk) (m : Mem) (c : Nat) (hs : h.mchunkSize < 2 ^ 32)
    (hf : h.fd < 2 ^ 64) (hb : h.bk < 2 ^ 64) (hd : h.data < 2 ^ 64) :
    readHeader (h.write m c) c = ⟨h.mchunkSize, h.fd, h.bk, h.data⟩ := by
  have hs' : chunkSize (h.write m c) c = h.mchunkSize := by
    unfold chunkSize MallocChunk.write BiosKernel.setFd BiosKernel.setBk
    rw [load_store_apart _ _ (.inr (by omega)), load_store_apart _ _ (.inr (by omega)),
      load_store_apart _ _ (.inr (by omega)), load_store_of_lt _ _ _ (by omega)]
  have hf' : chunkFd (h.write m c) c = h.fd := by
    unfold chunkFd MallocChunk.write BiosKernel.setFd BiosKernel.setBk
    rw [load_store_apart _ _ (.inr (by omega)), load_store_apart _ _ (.inr (by omega)),
      load_store_of_lt _ _ _ (by omega)]
  have hb' : chunkBk (h.write m c) c = h.bk := by
    unfold chunkBk MallocChunk.write BiosKernel.setFd BiosKernel.setBk
    rw [load_store_apart _ _ (.inr (by omega)), load_store_of_lt _ _ _ (by omega)]
  have hd' : chunkData (h.write m c) c = h.data := load_store_of_lt _ _ _ (by omega)
  simp only [readHeader, hs', hf', hb', hd']

namespace HeapTable

theorem Geometry.heapEnd_not_mem (h : Geometry g t) : t.heapEnd ∉ t.addrs := by
  intro hm
  have hw := h.within hm
  have hs := h.size_bounds hm
  have hl := h.size_le hm
  omega

theorem addrs_carve (t : HeapTable) (n : Nat) : (t.carve n).addrs = t.addrs ++ [t.heapEnd] := by
  simp [addrs, carve]

theorem header_carve (h : Geometry g t) (n c : Nat) : (t.carve n).header c =
    if c = t.heapEnd then ⟨n, t.mchunk, 0, t.heapEnd + 32⟩ else t.header c := by
  rw [header, carve, lookup_append]
  have hn := h.heapEnd_not_mem
  by_cases hc : c = t.heapEnd
  · subst hc
    rw [if_pos rfl]
    exact (if_neg hn).trans (if_pos rfl)
  · rw [if_neg hc]
    by_cases hm : c ∈ t.addrs
    · exact if_pos hm
    · rw [header, lookup_of_not_mem hm]
      split
      · rfl
      · rw [lookup, if_neg (Ne.symm hc), lookup]

theorem Geometry.carve (h : Geometry g t) (hd : 16 ∣ n) (hn : 64 ≤ n) (hn' : n < 2 ^ 32)
    (he : t.heapEnd + aalign n 64 < 2 ^ 64) : Geometry g (t.carve n) := by
  obtain ⟨hb, ht, hl, hc⟩ := h
  have hs : (t.carve n).shape = t.shape ++ [(t.heapEnd, n, t.heapEnd + 32)] := by
    simp [shape, HeapTable.carve]
  refine ⟨hb, he, ?_, ?_⟩
  · rw [hs, List.map_append]
    exact hl.concat _
  · intro p hp
    rw [hs] at hp
    rcases List.mem_append.mp hp with hp | hp
    · exact hc p hp
    · rw [List.mem_singleton.mp hp]
      exact ⟨rfl, hd, hn, hn'⟩

theorem Closed.carve (h : t.Closed) (hg : Geometry g t) (n : Nat) : (t.carve n).Closed := by
  have hp : ∀ v, t.Ptr v → (t.carve n).Ptr v := by
    intro v hv
    rw [Ptr, addrs_carve]
    exact hv.imp_right (List.mem_append_left _)
  have hlink : ∀ c ∈ (t.carve n).addrs,
      (t.carve n).Ptr ((t.carve n).fd c) ∧ (t.carve n).Ptr ((t.carve n).bk c) := by
    intro c hc
    rw [HeapTable.fd, HeapTable.bk, header_carve hg]
    rw [addrs_carve] at hc
    by_cases he : c = t.heapEnd
    · rw [if_pos he]
      exact ⟨hp _ h.mchunk, .inl rfl⟩
    · rw [if_neg he]
      rcases List.mem_append.mp hc with hc | hc
      · exact ⟨hp _ (h.fd c hc), hp _ (h.bk c hc)⟩
      · exact absurd (List.mem_singleton.mp hc) he
  exact ⟨hp _ h.mchunk, hp _ h.bin, fun c hc => (hlink c hc).1, fun c hc => (hlink c hc).2⟩

end HeapTable

/-- The bytes of a new chunk: the break moved past it, its header, its cleared payload. -/
def carveMem (g : Nat) (m : Mem) (n : Nat) : Mem :=
  let a := heapEnd g m
  let h : MallocChunk := ⟨0, n, mchunk g m, 0, a + 32⟩
  fill (h.write (brk g m (a + aalign n 64)) a) (a + 32) 0 (n - 32)

theorem carveMem_apart (hg : g + 64 ≤ heapEnd g m)
    (hx : x < g + 8 ∨ g + 16 ≤ x ∧ x < heapEnd g m) :
    carveMem g m n x = m x := by
  rw [carveMem, fill_apply, if_neg (by omega), write_apart _ _ (by omega), brk,
    store_apart _ _ (by omega)]

theorem carveMem_heapEnd (hg : g + 64 ≤ heapEnd g m) (he : heapEnd g m + aalign n 64 < 2 ^ 64) :
    heapEnd g (carveMem g m n) = heapEnd g m + aalign n 64 := by
  have hw : ∀ x, g + 8 ≤ x → x < g + 8 + 8 →
      carveMem g m n x = brk g m (heapEnd g m + aalign n 64) x := by
    intro x hx hx'
    rw [carveMem, fill_apply, if_neg (by omega), write_apart _ _ (by omega)]
  exact (load_congr hw).trans (load_store_of_lt _ _ _ (by omega))

theorem readHeader_carveMem (hn : n < 2 ^ 32) (hf : mchunk g m < 2 ^ 64)
    (he : heapEnd g m + 32 < 2 ^ 64) :
    readHeader (carveMem g m n) (heapEnd g m) = ⟨n, mchunk g m, 0, heapEnd g m + 32⟩ := by
  have hw := readHeader_write ⟨0, n, mchunk g m, 0, heapEnd g m + 32⟩
    (brk g m (heapEnd g m + aalign n 64)) (heapEnd g m) hn hf
    (Nat.two_pow_pos 64) he
  rw [← hw]
  apply readHeader_congr
  intro x hx hx'
  rw [carveMem, fill_apply, if_neg (by omega)]

theorem Holds.carve (h : Holds g m t) (hd : 16 ∣ n) (hn : 64 ≤ n) (hn' : n < 2 ^ 32)
    (he : t.heapEnd + aalign n 64 < 2 ^ 64) : Holds g (carveMem g m n) (t.carve n) := by
  have hge := h.geometry.tiles.le
  have hal := (aalign_bounds (n := n) (a := 64) (by omega) (by omega)).1
  have hmc := h.geometry.ptr_lt h.closed.mchunk
  have hend := h.heapEnd
  have hl (i k : Nat) (hi : 16 ≤ i) (hi' : i + k ≤ 64) :
      load (carveMem g m n) (g + i) k = load m (g + i) k := by
    apply load_congr
    intro x hx hx'
    exact carveMem_apart (by omega) (by omega)
  refine ⟨?_, (hl 16 8 (by omega) (by omega)).trans h.total,
    (hl 24 8 (by omega) (by omega)).trans h.mchunk,
    (hl 32 8 (by omega) (by omega)).trans h.bin, ?_, h.geometry.carve hd hn hn' he,
    h.closed.carve h.geometry n⟩
  · rw [carveMem_heapEnd (by omega) (by omega), hend]
    rfl
  · intro c hc
    rw [header_carve h.geometry]
    by_cases hce : c = t.heapEnd
    · rw [if_pos hce, hce, ← hend, ← h.mchunk]
      exact readHeader_carveMem hn' (by rw [h.mchunk]; exact hmc) (by omega)
    · rw [addrs_carve] at hc
      have hc' : c ∈ t.addrs := by
        rcases List.mem_append.mp hc with hc | hc
        · exact hc
        · exact absurd (List.mem_singleton.mp hc) hce
      have hw := h.geometry.within hc'
      have hs := h.geometry.size_bounds hc'
      have hsl := h.geometry.size_le hc'
      rw [if_neg hce, ← h.header c hc']
      apply readHeader_congr
      intro x hx hx'
      exact carveMem_apart (by omega) (by omega)

end BiosKernel
