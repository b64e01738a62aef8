import BiosKernel.Heap.Refine

namespace BiosKernel
open ByteMem HeapTable Linked MachineInt Runs Tiling
set_option autoImplicit true

/-- A call whose chunk size fits the 32-bit field, and a break that does not pass the end of the
address space. -/
def HeapState.Fits (s : HeapState) : HeapOp → Prop
  | .malloc n => aalign n 16 + 32 < 2 ^ 32 ∧
      (searchFree s.base s.mem (aalign n 16) = some none →
        heapEnd s.base s.mem + aalign (max 64 (aalign n 16 + 32)) 64 < 2 ^ 64)
  | .free _ => True

namespace HeapTable

def step (t : HeapTable) : HeapOp → Option HeapTable
  | .malloc n => (t.malloc (aalign n 16 + 32)).map Prod.snd
  | .free ptr => t.free ptr

def Fits (t : HeapTable) : HeapOp → Prop
  | .malloc n => aalign n 16 + 32 < 2 ^ 32 ∧
      (t.findFree (aalign n 16 + 32) = some none →
        t.heapEnd + aalign (max 64 (aalign n 16 + 32)) 64 < 2 ^ 64)
  | .free _ => True

instance (t : HeapTable) : (op : HeapOp) → Decidable (t.Fits op)
  | .malloc n => inferInstanceAs (Decidable (aalign n 16 + 32 < 2 ^ 32 ∧
      (t.findFree (aalign n 16 + 32) = some none →
        t.heapEnd + aalign (max 64 (aalign n 16 + 32)) 64 < 2 ^ 64)))
  | .free _ => .isTrue trivial

/-- The pointers handed out and not freed, after a call that returns. -/
def liveAfter (t : HeapTable) (live : List (Nat × Nat)) : HeapOp → List (Nat × Nat)
  | .malloc n =>
    match t.malloc (aalign n 16 + 32) with
    | some (c, _) => (c + 32, n) :: live
    | none => live
  | .free ptr => live.filter fun l => l.1 ≠ ptr

def liveRun (t : HeapTable) (live : List (Nat × Nat)) : List HeapOp → List (Nat × Nat)
  | [] => live
  | op :: ops =>
    match t.step op with
    | some t' => t'.liveRun (t.liveAfter live op) ops
    | none => live

theorem shape_carve (t : HeapTable) (n : Nat) :
    (t.carve n).shape = t.shape ++ [(t.heapEnd, n, t.heapEnd + 32)] := by
  simp [shape, carve]

theorem shape_malloc {t t' : HeapTable} (h : t.malloc need = some (c, t')) :
    t.shape <+: t'.shape := by
  rw [malloc] at h
  split at h
  · cases h
  · cases h
    simp
  · cases h
    rw [shape_linkAllocated, shape_carve]
    exact List.prefix_append _ _

theorem shape_free {t t' : HeapTable} (h : t.free ptr = some t') : t'.shape = t.shape := by
  rw [free] at h
  split at h
  · cases h
  · cases h; rfl
  · cases h; simp

theorem shape_step {t t' : HeapTable} (h : t.step op = some t') : t.shape <+: t'.shape := by
  cases op with
  | malloc n =>
    obtain ⟨⟨c, u⟩, hm, rfl⟩ := Option.map_eq_some_iff.mp h
    exact shape_malloc hm
  | free ptr => simp only [shape_free h, List.prefix_refl]

end HeapTable

variable {s s' : HeapState} {t t' : HeapTable}

namespace HeapState

theorem Tracks.fits_iff (h : s.Tracks t) : s.Fits op ↔ t.Fits op := by
  cases op with
  | free ptr => exact Iff.rfl
  | malloc n =>
    apply and_congr_right
    intro hn
    rw [h.holds.search_free, u64, Nat.mod_eq_of_lt (by omega), h.holds.heapEnd]

theorem Tracks.step_some (h : s.Tracks t) (hf : t.Fits op) (hr : t.step op = some t') :
    ∃ s', s.step op = some s' ∧ s'.Tracks t' ∧ s'.base = s.base ∧
      s'.live = t.liveAfter s.live op := by
  cases op with
  | malloc n =>
    obtain ⟨⟨c, u⟩, hm, rfl⟩ := Option.map_eq_some_iff.mp hr
    rw [liveAfter, hm]
    exact h.malloc hf.1 hf.2 hm
  | free ptr => exact h.free hr

theorem Tracks.step_none (h : s.Tracks t) (hf : t.Fits op) (hr : t.step op = none) :
    s.step op = none := by
  cases op with
  | malloc n =>
    apply h.malloc_diverges hf.1
    have hm := Option.map_eq_none_iff.mp hr
    rw [HeapTable.malloc] at hm
    split at hm
    · assumption
    · cases hm
    · cases hm
  | free ptr => exact h.free_diverges hr

/-- The bytes step as the table steps. -/
theorem Tracks.of_step (h : s.Tracks t) (hf : t.Fits op) (hs : s.step op = some s') :
    ∃ t', t.step op = some t' ∧ s'.Tracks t' ∧ s'.base = s.base := by
  cases hr : t.step op with
  | none =>
    rw [h.step_none hf hr] at hs
    cases hs
  | some t' =>
    obtain ⟨u, hu, ht, hb, _⟩ := h.step_some hf hr
    rw [hs] at hu
    cases hu
    exact ⟨t', rfl, ht, hb⟩

theorem Tracks.of_run (h : s.Tracks t) (hm : Meets step Fits s ops) (hr : s.run ops = some s') :
    ∃ t', s'.Tracks t' ∧ s'.base = s.base ∧ t.shape <+: t'.shape := by
  induction ops generalizing s t with
  | nil =>
    cases hr
    exact ⟨t, h, rfl, List.prefix_refl _⟩
  | cons op ops ih =>
    obtain ⟨u, hu, hr⟩ := run_cons hr
    obtain ⟨t₁, h₁, ht₁, hb₁⟩ := h.of_step (h.fits_iff.mp hm.1) hu
    obtain ⟨t₂, ht₂, hb₂, hp⟩ := ih ht₁ (hm.2 u hu) hr
    exact ⟨t₂, ht₂, hb₂.trans hb₁, (shape_step h₁).trans hp⟩

theorem Tracks.run_some (h : s.Tracks t) (ops : List HeapOp)
    (hm : Meets HeapTable.step HeapTable.Fits t ops)
    (hr : Runs.run HeapTable.step t ops = some t') :
    ∃ s', s.run ops = some s' ∧ s'.Tracks t' ∧ s'.base = s.base ∧
      s'.live = t.liveRun s.live ops := by
  induction ops generalizing s t with
  | nil =>
    cases hr
    exact ⟨s, rfl, h, rfl, rfl⟩
  | cons op ops ih =>
    obtain ⟨t₁, ht₁, hr⟩ := run_cons hr
    obtain ⟨u, hu, htu, hbu, hlu⟩ := h.step_some hm.1 ht₁
    obtain ⟨s', hs', ht', hb', hl'⟩ := ih htu (hm.2 t₁ ht₁) hr
    refine ⟨s', ?_, ht', hb'.trans hbu, ?_⟩
    · rw [HeapState.run, Runs.run, hu]
      exact hs'
    · rw [hl', hlu, liveRun, ht₁]

theorem Tracks.meets {P : HeapState → HeapOp → Prop} {Q : HeapTable → HeapOp → Prop}
    (hPQ : ∀ s t op, s.base = g → Tracks s t → t.Fits op → Q t op → P s op) (hg : s.base = g)
    (h : s.Tracks t) (ops : List HeapOp)
    (hm : Meets HeapTable.step (fun t op => t.Fits op ∧ Q t op) t ops) : Meets step P s ops := by
  induction ops generalizing s t with
  | nil => trivial
  | cons op ops ih =>
    obtain ⟨⟨hf, hq⟩, hr⟩ := hm
    refine ⟨hPQ s t op hg h hf hq, ?_⟩
    intro s' hs'
    obtain ⟨t', ht', htr, hb⟩ := h.of_step hf hs'
    exact ih (hb.trans hg) htr (hr t' ht')

theorem Tracks.meets_fits (h : s.Tracks t) (ops : List HeapOp)
    (hm : Meets HeapTable.step HeapTable.Fits t ops) : Meets step Fits s ops := by
  apply Tracks.meets (Q := fun _ _ => True) (fun s t op _ h hf _ => h.fits_iff.mpr hf) rfl h
  exact hm.mono fun t op hf => ⟨hf, trivial⟩

/-- The chunks carved so far fill the heap above its header, each one well placed. -/
structure WellTiled (s : HeapState) : Prop where
  cover : ∀ x, (∃ c ∈ s.carved, c ≤ x ∧ x < c + aalign (chunkSize s.mem c) 64) ↔
    s.base + 64 ≤ x ∧ x < heapEnd s.base s.mem
  apart : s.carved.Pairwise fun c d =>
    c + aalign (chunkSize s.mem c) 64 ≤ d ∨ d + aalign (chunkSize s.mem d) 64 ≤ c
  chunk : ∀ c ∈ s.carved, 64 ∣ c ∧ chunkData s.mem c = c + 32 ∧ 16 ∣ chunkSize s.mem c ∧
    64 ≤ chunkSize s.mem c

end HeapState

theorem HeapTable.Geometry.addrs_nodup (h : Geometry g t) : t.addrs.Nodup := by
  have hn := h.tiles.nodup (by
    intro b hb
    obtain ⟨p, hp, rfl⟩ := List.mem_map.mp hb
    have hc := (h.chunk p hp).2
    have ha := (aalign_bounds (n := p.2.1) (a := 64) (by omega) (by omega)).1
    exact Nat.lt_of_lt_of_le (by omega) ha)
  rw [List.map_map] at hn
  rw [addrs_eq_shape]
  exact hn

theorem HeapTable.Geometry.dvd (h : Geometry g t) (hc : c ∈ t.addrs) : 64 ∣ c := by
  have hd := (h.tiles.dvd (k := 64) (Nat.dvd_add h.base (Nat.dvd_refl 64)) (by
    intro b hb
    obtain ⟨p, _, rfl⟩ := List.mem_map.mp hb
    exact sixtyfour_dvd_aalign _)).2
  exact hd _ (List.mem_map_of_mem (f := fun p => (p.1, aalign p.2.1 64)) (t.mem_shape hc))

theorem HeapTable.mem_addrs_of_shape (h : p ∈ t.shape) : p.1 ∈ t.addrs := by
  rw [addrs_eq_shape]
  exact List.mem_map_of_mem h

theorem HeapTable.Geometry.shape_eq (h : Geometry g t) (hp : p ∈ t.shape) :
    t.size p.1 = p.2.1 ∧ t.data p.1 = p.2.2 := by
  obtain ⟨q, hq, rfl⟩ := List.mem_map.mp hp
  have hl := lookup_of_mem h.addrs_nodup hq
  rw [size, data, header]
  dsimp only
  rw [hl]
  exact ⟨rfl, rfl⟩

theorem HeapTable.Geometry.size_of_prefix (h : Geometry g t') (hp : t.shape <+: t'.shape)
    (hc : c ∈ t.addrs) : t'.size c = t.size c := (h.shape_eq (hp.subset (t.mem_shape hc))).1

namespace HeapState

theorem Tracks.wellTiled (h : s.Tracks t) : s.WellTiled := by
  have hg := h.holds.geometry
  refine ⟨?_, ?_, ?_⟩
  · intro x
    rw [h.carved, h.holds.heapEnd]
    constructor
    · rintro ⟨c, hc, hx⟩
      rw [h.holds.size hc] at hx
      have hw := hg.within hc
      omega
    · rintro ⟨hlo, hhi⟩
      obtain ⟨b, hb, hx⟩ := hg.tiles.cover hlo hhi
      obtain ⟨p, hp, rfl⟩ := List.mem_map.mp hb
      have hc := mem_addrs_of_shape hp
      refine ⟨p.1, hc, ?_⟩
      rw [h.holds.size hc, (hg.shape_eq hp).1]
      exact hx
  · rw [h.carved]
    apply hg.addrs_nodup.imp_of_mem
    intro c d hc hd hne
    rw [h.holds.size hc, h.holds.size hd]
    exact hg.apart hc hd hne
  · intro c hc
    rw [h.carved] at hc
    rw [h.holds.data hc, h.holds.size hc]
    have hs := hg.size_bounds hc
    exact ⟨hg.dvd hc, hg.data_eq hc, hs.1, hs.2.1⟩

/-- After any run, completed calls only, the carved chunks tile the heap, and whatever the rest
of the run does to the lists, they stay where they are with their size and data pointer. -/
theorem wellTiled_of_run (m : Mem) (baseAddr size : Nat) (hb : aalign baseAddr 64 + 64 < 2 ^ 64)
    (ops more : List HeapOp) (hm : Meets step Fits (init m baseAddr size) (ops ++ more))
    (hr : (init m baseAddr size).run ops = some s) :
    s.WellTiled ∧ ∀ s', s.run more = some s' → ∀ c ∈ s.carved, c ∈ s'.carved ∧
      chunkSize s'.mem c = chunkSize s.mem c ∧ chunkData s'.mem c = chunkData s.mem c := by
  obtain ⟨hops, hmore⟩ := hm.append
  obtain ⟨t, ht, _, _⟩ := (init_tracks m baseAddr size hb).of_run hops hr
  refine ⟨ht.wellTiled, ?_⟩
  intro s' hs' c hc
  obtain ⟨t', ht', _, hp⟩ := ht.of_run (hmore s hr) hs'
  rw [ht.carved] at hc
  have hmem := hp.subset (t.mem_shape hc)
  have hc' := mem_addrs_of_shape hmem
  obtain ⟨hsz, hdt⟩ := ht'.holds.geometry.shape_eq hmem
  rw [ht'.carved, ht'.holds.size hc', ht'.holds.data hc', ht.holds.size hc, ht.holds.data hc]
  exact ⟨hc', hsz, hdt⟩

theorem wellTiled_of_two_mallocs : ∃ s, (init (fun _ => 0) 4096 65536).run
      [.malloc 16, .malloc 100] = some s ∧ s.WellTiled ∧
    ∀ s', s.run [.free 4192, .malloc 8] = some s' → ∀ c ∈ s.carved, c ∈ s'.carved ∧
      chunkSize s'.mem c = chunkSize s.mem c ∧ chunkData s'.mem c = chunkData s.mem c := by
  have ht := init_tracks (fun _ => 0) 4096 65536 (by decide)
  obtain ⟨s, hs, _⟩ := ht.run_some [.malloc 16, .malloc 100] (by decide) rfl
  have hm := ht.meets_fits [.malloc 16, .malloc 100, .free 4192, .malloc 8] (by decide)
  exact ⟨s, hs, wellTiled_of_run _ 4096 65536 (by decide) [.malloc 16, .malloc 100]
    [.free 4192, .malloc 8] hm hs⟩

end HeapState

end BiosKernel
