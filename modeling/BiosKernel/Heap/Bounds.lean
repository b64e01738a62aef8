import BiosKernel.Heap.Live

namespace BiosKernel
open ByteMem HeapTable Linked MachineInt Runs
set_option autoImplicit true

variable {s s' : HeapState} {t t' : HeapTable}

namespace HeapState

/-- `malloc` returns, and what it returns is `NULL` with the memory as before, or a payload of at
least `n` bytes inside the region given to `init_heap`. -/
def MallocClean (s : HeapState) (n : Nat) : Prop :=
  ∃ a, malloc s.base s.mem n = some a ∧
    (a.newMchunk.data = 0 ∧ a.mem = s.mem ∨
      n ≤ a.newMchunk.mchunkSize - sizeofMallocChunk ∧
        s.base + sizeofMallocState ≤ a.newMchunk.data ∧
        a.newMchunk.data + (a.newMchunk.mchunkSize - sizeofMallocChunk) ≤
          s.base + heapTotalSize s.base s.mem)

/-- The rounded request fits the size field, and a free chunk or the rest of the region can take
it. -/
def HasRoom (s : HeapState) (n : Nat) : Prop :=
  n ≤ aalign n 16 ∧ aalign n 16 + 32 < 2 ^ 32 ∧
    ((∃ c, searchFree s.base s.mem (aalign n 16) = some (some c)) ∨
      heapEnd s.base s.mem + aalign (max 64 (aalign n 16 + 32)) 64 ≤
        s.base + heapTotalSize s.base s.mem)

def RoomyCall (s : HeapState) : HeapOp → Prop
  | .malloc n => s.HasRoom n
  | .free ptr => s.SafeCall (.free ptr)

end HeapState

namespace HeapTable

@[simp] theorem heapTotalSize_setHead (t : HeapTable) (v : Nat) (l : ListHead) :
    (t.setHead v l).heapTotalSize = t.heapTotalSize := by
  cases l <;> rfl

@[simp] theorem heapTotalSize_setFd (t : HeapTable) (c v : Nat) :
    (t.setFd c v).heapTotalSize = t.heapTotalSize := rfl

@[simp] theorem heapTotalSize_setBk (t : HeapTable) (c v : Nat) :
    (t.setBk c v).heapTotalSize = t.heapTotalSize := rfl

@[simp] theorem heapTotalSize_unlink (t : HeapTable) (l : ListHead) (c : Nat) :
    (t.unlink l c).heapTotalSize = t.heapTotalSize := by
  simp only [unlink]
  split <;> split <;> simp

@[simp] theorem heapTotalSize_linkAllocated (t : HeapTable) (c : Nat) :
    (t.linkAllocated c).heapTotalSize = t.heapTotalSize := by
  simp only [linkAllocated]
  split <;> simp

@[simp] theorem heapTotalSize_linkFree (t : HeapTable) (c : Nat) :
    (t.linkFree c).heapTotalSize = t.heapTotalSize := by
  simp only [linkFree]
  split <;> simp

theorem heapTotalSize_step (h : t.step op = some t') : t'.heapTotalSize = t.heapTotalSize := by
  cases op with
  | malloc n =>
    obtain ⟨⟨c, u⟩, hm, rfl⟩ := Option.map_eq_some_iff.mp h
    rw [malloc] at hm
    split at hm
    · cases hm
    · cases hm
      simp
    · cases hm
      rw [heapTotalSize_linkAllocated]
      rfl
  | free ptr =>
    rw [step, free] at h
    split at h
    · cases h
    · obtain rfl := Option.some.inj h
      rfl
    · obtain rfl := Option.some.inj h
      simp

/-- Every chunk ends inside the region, which ends inside the address space. -/
structure Bounded (t : HeapTable) (g : Nat) : Prop where
  aligned : 64 ∣ t.heapTotalSize
  region : g + t.heapTotalSize < 2 ^ 64
  chunk : ∀ c ∈ t.addrs, c + t.size c ≤ g + t.heapTotalSize

theorem Bounded.step (hb : t.Bounded g) (hg : Geometry g t) (hr : t.step op = some t')
    (hroom : ∀ n, op = .malloc n → t.findFree (aalign n 16 + 32) = some none →
      t.heapEnd + max 64 (aalign n 16 + 32) ≤ g + t.heapTotalSize) : t'.Bounded g := by
  have htot := heapTotalSize_step hr
  refine ⟨htot ▸ hb.aligned, htot ▸ hb.region, ?_⟩
  rw [htot]
  cases op with
  | free ptr =>
    rw [HeapTable.step, free] at hr
    split at hr
    · cases hr
    · obtain rfl := Option.some.inj hr
      exact hb.chunk
    · obtain rfl := Option.some.inj hr
      simpa using hb.chunk
  | malloc n =>
    obtain ⟨⟨c, u⟩, hm, rfl⟩ := Option.map_eq_some_iff.mp hr
    rw [malloc] at hm
    split at hm
    · cases hm
    · cases hm
      simpa using hb.chunk
    · next hf =>
      cases hm
      intro c hc
      rw [addrs_linkAllocated, addrs_carve] at hc
      rw [size_linkAllocated, size, header_carve hg]
      by_cases he : c = t.heapEnd
      · rw [if_pos he, he]
        exact hroom n rfl hf
      · rw [if_neg he]
        rcases List.mem_append.mp hc with hc | hc
        · exact hb.chunk c hc
        · exact absurd (List.mem_singleton.mp hc) he

end HeapTable

namespace HeapState

theorem Tracks.hasRoom_iff (h : s.Tracks t) : s.HasRoom n ↔
    n ≤ aalign n 16 ∧ aalign n 16 + 32 < 2 ^ 32 ∧
      ((∃ c, t.findFree (aalign n 16 + 32) = some (some c)) ∨
        t.heapEnd + aalign (max 64 (aalign n 16 + 32)) 64 ≤ s.base + t.heapTotalSize) := by
  apply and_congr_right
  intro _
  apply and_congr_right
  intro hn
  rw [h.searchFree_eq hn, h.holds.heapEnd, h.holds.total]

theorem Tracks.fits_of_hasRoom (h : s.Tracks t) (hb : t.Bounded s.base) (hr : s.HasRoom n) :
    t.Fits (.malloc n) := by
  obtain ⟨_, hn, hroom⟩ := h.hasRoom_iff.mp hr
  refine ⟨hn, ?_⟩
  intro hf
  rcases hroom with ⟨c, hc⟩ | hroom
  · rw [hf] at hc
    cases hc
  · exact Nat.lt_of_le_of_lt hroom hb.region

theorem Sound.mallocClean_of_hasRoom (h : s.Sound t p xs ys) (hb : t.Bounded s.base)
    (hr : s.HasRoom n) : s.MallocClean n := by
  have hg := h.tracks.holds.geometry
  have hf := h.tracks.fits_of_hasRoom hb hr
  obtain ⟨hn, hlt, hroom⟩ := h.tracks.hasRoom_iff.mp hr
  have hu : u64 (aalign n 16 + 32) = aalign n 16 + 32 := Nat.mod_eq_of_lt (by omega)
  rw [MallocClean, h.tracks.holds.total, sizeofMallocChunk, sizeofMallocState]
  cases hs : t.findFree (aalign n 16 + 32) with
  | none =>
    rw [h.lists.findFree_eq hg] at hs
    cases hs
  | some r =>
    cases r with
    | none =>
      obtain ⟨_, hd, hsz, _⟩ := h.tracks.holds.expand (sixteen_dvd_aalign n) hlt (hf.2 hs)
      refine ⟨_, h.tracks.holds.malloc_expand (by rw [hu]; exact hs), .inr ?_⟩
      rcases hroom with ⟨c, hc⟩ | hroom
      · rw [hs] at hc
        cases hc
      · have hal := (aalign_bounds (n := max 64 (aalign n 16 + 32)) (a := 64)
          (by omega) (by omega)).1
        have hle := hg.tiles.le
        rw [hd, hsz]
        omega
    | some c =>
      obtain ⟨hc, hsc⟩ := findFree_mem h.tracks.holds.closed hs
      obtain ⟨hd, hsz, _⟩ := h.tracks.holds.reuse hc
      refine ⟨_, h.tracks.holds.malloc_reuse (by rw [hu]; exact hs), .inr ?_⟩
      have hw := hg.within hc
      have hbc := hb.chunk c hc
      rw [hd, hsz]
      omega

theorem Sound.hasRoom_of_mallocClean (h : s.Sound t p xs ys) (hb : t.Bounded s.base)
    (hc : s.MallocClean n) : s.HasRoom n := by
  have hg := h.tracks.holds.geometry
  obtain ⟨a, ha, hc⟩ := hc
  rw [h.tracks.holds.total, sizeofMallocChunk, sizeofMallocState] at hc
  rw [h.tracks.hasRoom_iff]
  cases hs : t.findFree (u64 (aalign n 16 + 32)) with
  | none =>
    rw [h.lists.findFree_eq hg] at hs
    cases hs
  | some r =>
    cases r with
    | some c =>
      obtain ⟨hcm, hsc⟩ := findFree_mem h.tracks.holds.closed hs
      obtain ⟨hd, hsz, _⟩ := h.tracks.holds.reuse hcm
      rw [h.tracks.holds.malloc_reuse hs] at ha
      cases ha
      rw [hd, hsz] at hc
      have hbd := hg.size_bounds hcm
      obtain ⟨hal, hal', _⟩ := aalign_bounds (n := n) (a := 16) (by omega) (by omega)
      have hu : u64 (aalign n 16 + 32) = aalign n 16 + 32 := Nat.mod_eq_of_lt (by omega)
      rw [hu] at hs hsc
      exact ⟨hal, by omega, .inl ⟨c, hs⟩⟩
    | none =>
      rw [h.tracks.holds.malloc_expand hs] at ha
      cases ha
      have hd : (expandHeap s.base s.mem (aalign n 16)).newMchunk.data = u64 (t.heapEnd + 32) := by
        rw [← h.tracks.holds.heapEnd]
        rfl
      have hsz : (expandHeap s.base s.mem (aalign n 16)).newMchunk.mchunkSize =
          u32 (32 + max 32 (aalign n 16)) := rfl
      have hend := hg.heapEnd_dvd
      have htop := hg.top
      have hbase := hg.base
      have htot := hb.aligned
      have hdata : u64 (t.heapEnd + 32) = t.heapEnd + 32 := Nat.mod_eq_of_lt (by omega)
      rw [hd, hsz, hdata] at hc
      -- The chunk has at most 2 ^ 32 bytes and holds the request, so nothing wrapped.
      have hu32 : u32 (32 + max 32 (aalign n 16)) < 2 ^ 32 := Nat.mod_lt _ (by omega)
      obtain ⟨hal, hal', hdvd⟩ := aalign_bounds (n := n) (a := 16) (by omega) (by omega)
      have hlt : aalign n 16 + 32 < 2 ^ 32 := by
        rw [u32] at hc
        omega
      have hmax : u32 (32 + max 32 (aalign n 16)) = max 64 (aalign n 16 + 32) := by
        rw [u32]
        omega
      rw [hmax] at hc
      have hround := aalign_bounds (n := max 64 (aalign n 16 + 32)) (a := 64)
        (by omega) (by omega)
      exact ⟨hal, hlt, .inr (by omega)⟩

theorem Sound.step_bounded (h : s.Sound t p xs ys) (hb : t.Bounded s.base)
    (hc : s.RoomyCall op) : ∃ s', s.step op = some s' ∧
      ∃ t' p' xs' ys', s'.Sound t' p' xs' ys' ∧ t'.Bounded s'.base := by
  have hsafe : s.SafeCall op := by
    cases op with
    | malloc n => exact ⟨hc.1, h.tracks.fits_iff.mpr (h.tracks.fits_of_hasRoom hb hc)⟩
    | free ptr => exact hc
  obtain ⟨s', t', p', xs', ys', hs, ht, hbase, h'⟩ := h.step hsafe
  refine ⟨s', hs, t', p', xs', ys', h', ?_⟩
  rw [hbase]
  apply hb.step h.tracks.holds.geometry ht
  rintro n rfl hf
  obtain ⟨_, hn, ⟨c, hc⟩ | hroom⟩ := h.tracks.hasRoom_iff.mp hc
  · rw [hf] at hc
    cases hc
  · have hal := (aalign_bounds (n := max 64 (aalign n 16 + 32)) (a := 64)
      (by omega) (by omega)).1
    omega

theorem init_bounded (m : Mem) (baseAddr size : Nat)
    (hs : aalign baseAddr 64 + aalign size 64 < 2 ^ 64) :
    (HeapTable.empty (aalign baseAddr 64) (u64 (aalign size 64))).Bounded
      (HeapState.init m baseAddr size).base := by
  have hd := sixtyfour_dvd_aalign size
  have hu : u64 (aalign size 64) = aalign size 64 := Nat.mod_eq_of_lt (by omega)
  rw [hu]
  refine ⟨hd, hs, ?_⟩
  intro c hc
  cases hc

/-- In a run in which every request has had room, the next one is served or refused cleanly
exactly when it has room too. -/
theorem mallocClean_iff_hasRoom (m : Mem) (baseAddr size : Nat)
    (hb : aalign baseAddr 64 + 64 < 2 ^ 64)
    (hs : aalign baseAddr 64 + aalign size 64 < 2 ^ 64) (ops : List HeapOp)
    (hm : Meets HeapState.step RoomyCall (HeapState.init m baseAddr size) ops) :
    Always HeapState.step (fun s => ∀ n < 2 ^ 64, s.MallocClean n ↔ s.HasRoom n)
      (HeapState.init m baseAddr size) ops := by
  apply always_of_meets
    (I := fun s => ∃ t p xs ys, s.Sound t p xs ys ∧ t.Bounded s.base)
  · rintro s op ⟨t, p, xs, ys, h, hbd⟩ hc
    exact h.step_bounded hbd hc
  · rintro s ⟨t, p, xs, ys, h, hbd⟩ n _
    exact ⟨h.hasRoom_of_mallocClean hbd, h.mallocClean_of_hasRoom hbd⟩
  · exact ⟨_, _, _, _, Sound.init m baseAddr size hb, init_bounded m baseAddr size hs⟩
  · exact hm

end HeapState

def HeapTable.roomyCall (g : Nat) (t : HeapTable) : HeapOp → Bool
  | .malloc n => decide (n ≤ aalign n 16) &&
      ((t.findFree (aalign n 16 + 32)).join.isSome ||
        decide (t.heapEnd + aalign (max 64 (aalign n 16 + 32)) 64 ≤ g + t.heapTotalSize))
  | .free ptr => t.safeCall (.free ptr)

namespace HeapState

theorem Tracks.roomyCall (h : s.Tracks t) (hf : t.Fits op) (hr : t.roomyCall s.base op = true) :
    s.RoomyCall op := by
  cases op with
  | free ptr => exact h.safeCall hf hr
  | malloc n =>
    simp only [HeapTable.roomyCall, Bool.and_eq_true, Bool.or_eq_true, decide_eq_true_eq] at hr
    obtain ⟨hn, hroom⟩ := hr
    refine h.hasRoom_iff.mpr ⟨hn, hf.1, hroom.imp_left ?_⟩
    intro hj
    obtain ⟨c, hc⟩ := Option.isSome_iff_exists.mp hj
    exact ⟨c, Option.join_eq_some_iff.mp hc⟩

theorem mallocClean_after_free : ∃ s, (HeapState.init (fun _ => 0) 4096 256).run
    [.malloc 16, .malloc 16, .free 4192] = some s ∧ s.MallocClean 30 ∧ ¬ s.MallocClean 100 := by
  have ht := init_tracks (fun _ => 0) 4096 256 (by decide)
  obtain ⟨s, hs, h, hbase, _⟩ := ht.run_some [.malloc 16, .malloc 16, .free 4192] (by decide) rfl
  have hm : Meets HeapState.step RoomyCall (HeapState.init (fun _ => 0) 4096 256)
      [.malloc 16, .malloc 16, .free 4192] :=
    Tracks.meets (g := 4096) (Q := fun t op => t.roomyCall 4096 op = true)
      (fun s t op hg h hf hr => h.roomyCall hf (hg ▸ hr)) rfl ht _ (by decide)
  obtain ⟨u, hu, hiff⟩ := (mallocClean_iff_hasRoom _ 4096 256 (by decide) (by decide) _ hm).last
  cases hs.symm.trans hu
  refine ⟨s, hs, ?_, ?_⟩
  · rw [hiff 30 (by decide), h.hasRoom_iff]
    exact ⟨by decide, by decide, .inl ⟨4160, rfl⟩⟩
  · rw [hiff 100 (by decide), h.hasRoom_iff, hbase]
    rintro ⟨_, _, ⟨c, hc⟩ | hroom⟩
    · cases hc
    · revert hroom
      decide

/-- With 128 bytes of heap a request for 1000 bytes is answered with a pointer. -/
theorem malloc_beyond_region : ¬ (HeapState.init (fun _ => 0) 4096 128).MallocClean 1000 := by
  intro hc
  have hs := Sound.init (fun _ => 0) 4096 128 (by decide)
  have hr := hs.hasRoom_of_mallocClean (init_bounded _ 4096 128 (by decide)) hc
  obtain ⟨_, _, ⟨c, hc⟩ | hroom⟩ := hs.tracks.hasRoom_iff.mp hr
  · cases hc
  · revert hroom
    decide

end HeapState

end BiosKernel
