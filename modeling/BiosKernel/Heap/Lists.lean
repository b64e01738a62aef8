import BiosKernel.Heap.Geometry
import Mathlib.Data.List.Perm.Subperm

namespace BiosKernel
open ByteMem Linked HeapTable Runs
set_option autoImplicit true

variable {t t' : HeapTable}

namespace HeapTable

/-- The links of list `l` visit `zs` in both directions, and the first back link is `q`. -/
structure OnList (t : HeapTable) (l : ListHead) (q : Nat) (zs : List Nat) : Prop where
  chain : Chain 0 t.fd (t.head l) zs
  back : BackLinks t.bk q zs
  mem : ∀ z ∈ zs, z ∈ t.addrs

theorem OnList.congr (h : t.OnList l q zs) (hh : t'.head l = t.head l)
    (hf : ∀ z ∈ zs, t'.fd z = t.fd z) (hb : ∀ z ∈ zs, t'.bk z = t.bk z)
    (ha : ∀ z ∈ t.addrs, z ∈ t'.addrs) : t'.OnList l q zs := by
  refine ⟨?_, h.back.congr hb, fun z hz => ha z (h.mem z hz)⟩
  rw [hh]
  exact h.chain.congr hf

theorem OnList.head_mem (h : t.OnList l q zs) (h0 : t.head l ≠ 0) : t.head l ∈ zs := by
  cases zs with
  | nil => exact absurd h.chain h0
  | cons z zs =>
    rw [h.chain.head_eq]
    exact List.mem_cons_self

theorem OnList.fd_cases (h : t.OnList l q zs) (hc : c ∈ zs) : t.fd c = 0 ∨ t.fd c ∈ zs :=
  h.chain.next_mem hc

/-- Only a first chunk with a stale back link has one that leaves the list. -/
theorem OnList.bk_cases (h : t.OnList l q (pre ++ c :: post)) (hq : pre = [] → q = 0) :
    t.bk c = 0 ∨ t.bk c ∈ pre := by
  rcases h.back.back_cases with ⟨hp, hb⟩ | hb
  · exact .inl (hb.trans (hq hp))
  · exact .inr hb

theorem OnList.bk_ne (h : t.OnList l q (pre ++ c :: post)) (hq : pre = [] → q = 0) :
    t.bk c ≠ c := by
  intro he
  rcases h.bk_cases hq with h0 | hm
  · exact h.chain.ne_null (List.mem_append_right _ List.mem_cons_self) (he.symm.trans h0)
  · rw [he] at hm
    exact (List.disjoint_of_nodup_append h.chain.nodup) hm List.mem_cons_self

theorem fd_unlink (t : HeapTable) (l : ListHead) (hb : t.bk c = 0 ∨ t.bk c ∈ t.addrs) :
    (t.unlink l c).fd =
      if t.bk c ≠ 0 then Function.update t.fd (t.bk c) (t.fd c) else t.fd := by
  have h₁ : (if t.bk c ≠ 0 then t.setFd (t.bk c) (t.fd c) else t.setHead (t.fd c) l).fd =
      if t.bk c ≠ 0 then Function.update t.fd (t.bk c) (t.fd c) else t.fd := by
    by_cases h0 : t.bk c ≠ 0
    · rw [if_pos h0, if_pos h0, fd_setFd t _ (hb.resolve_left h0)]
    · rw [if_neg h0, if_neg h0, fd_setHead]
  simp only [unlink]
  generalize (if t.bk c ≠ 0 then t.setFd (t.bk c) (t.fd c) else t.setHead (t.fd c) l) = u at h₁ ⊢
  rw [← h₁]
  split
  · rw [fd_setBk]
  · rfl

theorem bk_unlink (t : HeapTable) (l : ListHead) (hb : t.bk c = 0 ∨ t.bk c ∈ t.addrs)
    (hbc : t.bk c ≠ c) (hf : t.fd c = 0 ∨ t.fd c ∈ t.addrs) :
    (t.unlink l c).bk =
      if t.fd c ≠ 0 then Function.update t.bk (t.fd c) (t.bk c) else t.bk := by
  have h₁ : ∃ u : HeapTable,
      (if t.bk c ≠ 0 then t.setFd (t.bk c) (t.fd c) else t.setHead (t.fd c) l) = u ∧
        u.fd c = t.fd c ∧ u.bk = t.bk ∧ u.addrs = t.addrs := by
    by_cases h0 : t.bk c ≠ 0
    · refine ⟨_, if_pos h0, ?_, by simp, by simp⟩
      rw [fd_setFd t _ (hb.resolve_left h0), Function.update_of_ne (Ne.symm hbc)]
    · exact ⟨_, if_neg h0, by simp, by simp, by simp⟩
  obtain ⟨u, hu, hfd, hbk, ha⟩ := h₁
  simp only [unlink, hu, hfd, hbk]
  by_cases h0 : t.fd c ≠ 0
  · rw [if_pos h0, if_pos h0, bk_setBk u _ (by rw [ha]; exact hf.resolve_left h0), hbk]
  · rw [if_neg h0, if_neg h0, hbk]

theorem head_unlink (t : HeapTable) (l : ListHead) (c : Nat) :
    (t.unlink l c).head l = if t.bk c ≠ 0 then t.head l else t.fd c := by
  simp only [unlink]
  split <;> split <;> cases l <;> rfl

theorem head_unlink_other (t : HeapTable) (c : Nat) (hl : l' ≠ l) :
    (t.unlink l c).head l' = t.head l' := by
  simp only [unlink]
  cases l <;> cases l' <;> first | exact absurd rfl hl | (split <;> split <;> rfl)

theorem OnList.unlink (h : t.OnList l q (pre ++ c :: post)) (hq : pre = [] → q = 0) :
    (t.unlink l c).OnList l q (pre ++ post) := by
  have hc : c ∈ pre ++ c :: post := List.mem_append_right _ List.mem_cons_self
  have hb := (h.bk_cases hq).imp_right fun hm => h.mem _ (List.mem_append_left _ hm)
  have hf := (h.fd_cases hc).imp_right (h.mem _)
  refine ⟨?_, ?_, ?_⟩
  · rw [fd_unlink t l hb, head_unlink]
    exact h.chain.unlink h.back hq
  · rw [bk_unlink t l hb (h.bk_ne hq) hf]
    exact BackLinks.unlink h.chain h.back
  · intro z hz
    rw [addrs_unlink]
    exact h.mem z (((List.sublist_cons_self c post).append_left pre).subset hz)

theorem OnList.unlink_apart (h : t.OnList l q (pre ++ c :: post)) (hq : pre = [] → q = 0)
    (hd : d ∉ pre ++ c :: post) : (t.unlink l c).fd d = t.fd d ∧ (t.unlink l c).bk d = t.bk d := by
  have hc : c ∈ pre ++ c :: post := List.mem_append_right _ List.mem_cons_self
  have hb := (h.bk_cases hq).imp_right fun hm => List.mem_append_left (c :: post) hm
  have hf := h.fd_cases hc
  rw [fd_unlink t l (hb.imp_right (h.mem _)), bk_unlink t l (hb.imp_right (h.mem _)) (h.bk_ne hq)
    (hf.imp_right (h.mem _))]
  constructor
  · split
    · next h0 =>
      apply Function.update_of_ne
      rintro rfl
      exact hd (hb.resolve_left h0)
    · rfl
  · split
    · next h0 =>
      apply Function.update_of_ne
      rintro rfl
      exact hd (hf.resolve_left h0)
    · rfl

theorem OnList.unlink_other (h : t.OnList l q (pre ++ c :: post)) (hq : pre = [] → q = 0)
    (ho : t.OnList l' q' ws) (hl : l' ≠ l) (hd : ∀ z ∈ ws, z ∉ pre ++ c :: post) :
    (t.unlink l c).OnList l' q' ws := by
  apply ho.congr
  · exact head_unlink_other t c hl
  · intro z hz
    exact (h.unlink_apart hq (hd z hz)).1
  · intro z hz
    exact (h.unlink_apart hq (hd z hz)).2
  · intro z hz
    rw [addrs_unlink]
    exact hz

/-- The unlinked chunk keeps its stored back link. -/
theorem OnList.bk_unlink_self (h : t.OnList l q (pre ++ c :: post)) (hq : pre = [] → q = 0) :
    (t.unlink l c).bk c = t.bk c := by
  have hc : c ∈ pre ++ c :: post := List.mem_append_right _ List.mem_cons_self
  have hb := (h.bk_cases hq).imp_right fun hm => h.mem _ (List.mem_append_left _ hm)
  rw [bk_unlink t l hb (h.bk_ne hq) ((h.fd_cases hc).imp_right (h.mem _))]
  split
  · exact Function.update_of_ne (Ne.symm h.chain.next_ne) ..
  · rfl

theorem fd_linkAllocated (t : HeapTable) (hc : c ∈ t.addrs) :
    (t.linkAllocated c).fd = Function.update t.fd c t.mchunk := by
  simp only [linkAllocated]
  split
  · rw [fd_setFd _ _ (by simpa using hc), fd_setHead, fd_setBk]
  · rw [fd_setFd _ _ (by simpa using hc), fd_setHead]

theorem bk_linkAllocated (t : HeapTable) (c : Nat) (hm : t.mchunk = 0 ∨ t.mchunk ∈ t.addrs) :
    (t.linkAllocated c).bk =
      if t.mchunk ≠ 0 then Function.update t.bk t.mchunk c else t.bk := by
  simp only [linkAllocated]
  split
  · next h0 => rw [bk_setFd, bk_setHead, bk_setBk t c (hm.resolve_left h0)]
  · rw [bk_setFd, bk_setHead]

@[simp] theorem mchunk_linkAllocated (t : HeapTable) (c : Nat) :
    (t.linkAllocated c).mchunk = c := by
  simp only [linkAllocated]
  split <;> rfl

@[simp] theorem unsortedBinHead_linkAllocated (t : HeapTable) (c : Nat) :
    (t.linkAllocated c).unsortedBinHead = t.unsortedBinHead := by
  simp only [linkAllocated]
  split <;> rfl

theorem OnList.linkAllocated (h : t.OnList .allocated q xs) (hc : c ∈ t.addrs) (h0 : c ≠ 0)
    (hn : c ∉ xs) : (t.linkAllocated c).OnList .allocated (t.bk c) (c :: xs) := by
  refine ⟨?_, ?_, ?_⟩
  · rw [fd_linkAllocated t hc, head, mchunk_linkAllocated]
    exact h.chain.push h0 hn
  · rw [bk_linkAllocated t c (or_iff_not_imp_left.mpr fun hm => h.mem _ (h.head_mem hm))]
    exact BackLinks.push h.chain h.back hn
  · intro z hz
    rw [addrs_linkAllocated]
    rcases List.mem_cons.mp hz with rfl | hz
    · exact hc
    · exact h.mem z hz

theorem OnList.linkAllocated_bin (h : t.OnList .allocated q xs) (hb : t.OnList .unsortedBin q' ys)
    (hc : c ∈ t.addrs) (hn : c ∉ ys) (hd : ∀ x ∈ xs, x ∉ ys) :
    (t.linkAllocated c).OnList .unsortedBin q' ys := by
  apply hb.congr
  · exact unsortedBinHead_linkAllocated t c
  · intro z hz
    rw [fd_linkAllocated t hc]
    apply Function.update_of_ne
    rintro rfl
    exact hn hz
  · intro z hz
    rw [bk_linkAllocated t c (or_iff_not_imp_left.mpr fun hm => h.mem _ (h.head_mem hm))]
    split
    · next h0 =>
      apply Function.update_of_ne
      rintro rfl
      exact hd _ (h.head_mem h0) hz
    · rfl
  · intro z hz
    rw [addrs_linkAllocated]
    exact hz

theorem fd_linkFree (t : HeapTable) (hc : c ∈ t.addrs) :
    (t.linkFree c).fd = Function.update t.fd c t.unsortedBinHead := by
  have h₁ : ((t.setBk c 0).setFd c t.unsortedBinHead).fd =
      Function.update t.fd c t.unsortedBinHead := by
    rw [fd_setFd _ _ (by simpa using hc), fd_setBk]
  simp only [linkFree]
  split
  · rw [fd_setHead, fd_setBk, h₁]
  · rw [fd_setHead, h₁]

theorem bk_linkFree (t : HeapTable) (hc : c ∈ t.addrs)
    (hu : t.unsortedBinHead = 0 ∨ t.unsortedBinHead ∈ t.addrs) :
    (t.linkFree c).bk = if t.unsortedBinHead ≠ 0
      then Function.update (Function.update t.bk c 0) t.unsortedBinHead c
      else Function.update t.bk c 0 := by
  have hf : ((t.setBk c 0).setFd c t.unsortedBinHead).fd c = t.unsortedBinHead := by
    rw [fd_setFd _ _ (by simpa using hc), Function.update_self]
  simp only [linkFree, hf]
  by_cases h0 : t.unsortedBinHead ≠ 0
  · have hm := hu.resolve_left h0
    rw [if_pos h0, if_pos h0, bk_setHead, bk_setBk _ _ (by simpa using hm), bk_setFd,
      bk_setBk t _ hc]
  · rw [if_neg h0, if_neg h0, bk_setHead, bk_setFd, bk_setBk t _ hc]

@[simp] theorem mchunk_linkFree (t : HeapTable) (c : Nat) : (t.linkFree c).mchunk = t.mchunk := by
  simp only [linkFree]
  split <;> rfl

@[simp] theorem unsortedBinHead_linkFree (t : HeapTable) (c : Nat) :
    (t.linkFree c).unsortedBinHead = c := by
  simp only [linkFree]
  split <;> rfl

theorem OnList.linkFree (h : t.OnList .unsortedBin q ys) (hc : c ∈ t.addrs) (h0 : c ≠ 0)
    (hn : c ∉ ys) : (t.linkFree c).OnList .unsortedBin 0 (c :: ys) := by
  refine ⟨?_, ?_, ?_⟩
  · rw [fd_linkFree t hc, head, unsortedBinHead_linkFree]
    exact h.chain.push h0 hn
  · rw [bk_linkFree t hc (or_iff_not_imp_left.mpr fun hm => h.mem _ (h.head_mem hm))]
    have hb : BackLinks (Function.update t.bk c 0) q ys := by
      apply h.back.congr
      intro z hz
      apply Function.update_of_ne
      rintro rfl
      exact hn hz
    have hp := BackLinks.push h.chain hb hn
    rw [Function.update_self] at hp
    exact hp
  · intro z hz
    rw [addrs_linkFree]
    rcases List.mem_cons.mp hz with rfl | hz
    · exact hc
    · exact h.mem z hz

theorem OnList.linkFree_allocated (h : t.OnList .unsortedBin q ys)
    (ha : t.OnList .allocated p xs) (hc : c ∈ t.addrs) (hn : c ∉ xs) (hd : ∀ x ∈ xs, x ∉ ys) :
    (t.linkFree c).OnList .allocated p xs := by
  have hne : ∀ z ∈ xs, z ≠ c := by
    rintro z hz rfl
    exact hn hz
  apply ha.congr
  · exact mchunk_linkFree t c
  · intro z hz
    rw [fd_linkFree t hc]
    exact Function.update_of_ne (hne z hz) ..
  · intro z hz
    rw [bk_linkFree t hc (or_iff_not_imp_left.mpr fun hm => h.mem _ (h.head_mem hm))]
    split
    · next h0 =>
      rw [Function.update_of_ne, Function.update_of_ne (hne z hz)]
      rintro rfl
      exact hd _ hz (h.head_mem h0)
    · exact Function.update_of_ne (hne z hz) ..
  · intro z hz
    rw [addrs_linkFree]
    exact hz

theorem OnList.carve (h : t.OnList l q zs) (hg : Geometry g t) (n : Nat) :
    (t.carve n).OnList l q zs := by
  have hne : ∀ z ∈ zs, z ≠ t.heapEnd := by
    rintro z hz rfl
    exact hg.heapEnd_not_mem (h.mem _ hz)
  apply h.congr
  · cases l <;> rfl
  · intro z hz
    rw [fd, header_carve hg, if_neg (hne z hz), fd]
  · intro z hz
    rw [bk, header_carve hg, if_neg (hne z hz), bk]
  · intro z hz
    rw [addrs_carve]
    exact List.mem_append_left _ hz

/-- Every chunk is on one of the two lists: `xs` of the allocated ones, `ys` of the free ones. All
back links are right, except that the first allocated chunk may name any `p`. -/
structure Lists (t : HeapTable) (p : Nat) (xs ys : List Nat) : Prop where
  alloc : t.OnList .allocated p xs
  bin : t.OnList .unsortedBin 0 ys
  perm : (xs ++ ys).Perm t.addrs

theorem Lists.empty (g total : Nat) : (HeapTable.empty g total).Lists 0 [] [] :=
  ⟨⟨rfl, trivial, by simp⟩, ⟨rfl, trivial, by simp⟩, .nil⟩

theorem Lists.nodup (h : t.Lists p xs ys) (hg : Geometry g t) : (xs ++ ys).Nodup :=
  h.perm.nodup_iff.mpr hg.addrs_nodup

theorem Lists.reuse (h : t.Lists p xs (pre ++ c :: post)) (hg : Geometry g t) :
    ((t.unlink .unsortedBin c).linkAllocated c).Lists (t.bk c) (c :: xs) (pre ++ post) := by
  obtain ⟨ha, hb, hp⟩ := h
  have hn := Lists.nodup ⟨ha, hb, hp⟩ hg
  have hd := List.disjoint_of_nodup_append hn
  have hc : c ∈ pre ++ c :: post := List.mem_append_right _ List.mem_cons_self
  have hcx : c ∉ xs := fun hx => hd hx hc
  have hcy : c ∉ pre ++ post := by
    have hn' := (List.nodup_middle.mp hn.of_append_right)
    exact (List.nodup_cons.mp hn').1
  have hq : pre = [] → 0 = 0 := fun _ => rfl
  have hsub := ((List.sublist_cons_self c post).append_left pre).subset
  have ha₁ := hb.unlink_other hq ha (by rintro ⟨⟩) (fun z hz hm => hd hz hm)
  have hca : c ∈ (t.unlink .unsortedBin c).addrs := by
    rw [addrs_unlink]
    exact hb.mem c hc
  refine ⟨?_, ?_, ?_⟩
  · rw [← hb.bk_unlink_self hq]
    exact ha₁.linkAllocated hca (hb.chain.ne_null hc) hcx
  · exact ha₁.linkAllocated_bin (hb.unlink hq) hca hcy (fun x hx hy => hd hx (hsub hy))
  · rw [addrs_linkAllocated, addrs_unlink]
    refine .trans ?_ hp
    rw [← List.append_assoc, List.cons_append, ← List.append_assoc xs pre (c :: post)]
    exact List.perm_middle.symm

theorem Lists.expand (h : t.Lists p xs ys) (hg : Geometry g t) (n : Nat) :
    ((t.carve n).linkAllocated t.heapEnd).Lists 0 (t.heapEnd :: xs) ys := by
  obtain ⟨ha, hb, hp⟩ := h
  have hd := List.disjoint_of_nodup_append (Lists.nodup ⟨ha, hb, hp⟩ hg)
  have hc : t.heapEnd ∈ (t.carve n).addrs := by
    rw [addrs_carve]
    simp
  have h0 : t.heapEnd ≠ 0 := by
    have hle := hg.tiles.le
    omega
  have hbk : (t.carve n).bk t.heapEnd = 0 := by
    rw [bk, header_carve hg, if_pos rfl]
  refine ⟨?_, ?_, ?_⟩
  · rw [← hbk]
    exact (ha.carve hg n).linkAllocated hc h0 (fun hx => hg.heapEnd_not_mem (ha.mem _ hx))
  · exact (ha.carve hg n).linkAllocated_bin (hb.carve hg n) hc
      (fun hx => hg.heapEnd_not_mem (hb.mem _ hx)) (fun x hx hy => hd hx hy)
  · rw [addrs_linkAllocated, addrs_carve, List.cons_append]
    exact (List.Perm.cons _ hp).trans (List.perm_append_singleton _ _).symm

/-- An allocated chunk moves to the front of the bin, unless it is the first one and its back link
is stale. -/
theorem Lists.release (h : t.Lists p (pre ++ c :: post) ys) (hg : Geometry g t)
    (hq : pre = [] → p = 0) :
    ((t.unlink .allocated c).linkFree c).Lists p (pre ++ post) (c :: ys) := by
  obtain ⟨ha, hb, hp⟩ := h
  have hn := Lists.nodup ⟨ha, hb, hp⟩ hg
  have hd := List.disjoint_of_nodup_append hn
  have hc : c ∈ pre ++ c :: post := List.mem_append_right _ List.mem_cons_self
  have hcy : c ∉ ys := fun hy => hd hc hy
  have hcx : c ∉ pre ++ post := by
    have hn' := (List.nodup_middle.mp hn.of_append_left)
    exact (List.nodup_cons.mp hn').1
  have hsub := ((List.sublist_cons_self c post).append_left pre).subset
  have hb₁ := ha.unlink_other hq hb (by rintro ⟨⟩) (fun z hz hm => hd hm hz)
  have hca : c ∈ (t.unlink .allocated c).addrs := by
    rw [addrs_unlink]
    exact ha.mem c hc
  refine ⟨?_, ?_, ?_⟩
  · exact hb₁.linkFree_allocated (ha.unlink hq) hca hcx (fun x hx hy => hd (hsub hx) hy)
  · exact hb₁.linkFree hca (ha.chain.ne_null hc) hcy
  · rw [addrs_linkFree, addrs_unlink]
    refine .trans ?_ hp
    rw [List.append_assoc, List.append_assoc]
    apply List.Perm.append_left
    exact List.perm_middle

theorem OnList.length_lt (h : t.OnList l q zs) (hg : Geometry g t) : zs.length < loopBound := by
  have hsub : zs ⊆ List.range (2 ^ 64) := by
    intro z hz
    exact List.mem_range.mpr (hg.ptr_lt (.inr (h.mem z hz)))
  have hle := (List.subperm_of_subset h.chain.nodup hsub).length_le
  rw [List.length_range] at hle
  exact Nat.lt_succ_of_le hle

theorem OnList.search_eq (h : t.OnList l q zs) (hg : Geometry g t) (P : Nat → Bool) :
    search 0 t.fd P loopBound (t.head l) = some (zs.find? P) :=
  h.chain.search_eq P (h.length_lt hg)

theorem Lists.findFree_eq (h : t.Lists p xs ys) (hg : Geometry g t) (need : Nat) :
    t.findFree need = some (ys.find? fun c => decide (need ≤ t.size c)) :=
  h.bin.search_eq hg _

theorem Lists.malloc_cases (h : t.Lists p xs ys) (hg : Geometry g t) (need : Nat) :
    (∃ t', t.malloc need = some (t.heapEnd, t') ∧ t.findFree need = some none ∧
      need ≤ t'.size t.heapEnd ∧ t'.Lists 0 (t.heapEnd :: xs) ys) ∨
    ∃ t' pre c post, t.malloc need = some (c, t') ∧ t.findFree need = some (some c) ∧
      ys = pre ++ c :: post ∧ need ≤ t'.size c ∧ t'.Lists (t.bk c) (c :: xs) (pre ++ post) := by
  have hf := h.findFree_eq hg need
  rw [malloc]
  cases hy : ys.find? fun c => decide (need ≤ t.size c) with
  | none =>
    rw [hy] at hf
    rw [hf]
    refine .inl ⟨_, rfl, rfl, ?_, h.expand hg _⟩
    rw [size_linkAllocated, size, header_carve hg, if_pos rfl]
    exact Nat.le_max_right _ _
  | some c =>
    rw [hy] at hf
    rw [hf]
    obtain ⟨hc, pre, post, rfl, _⟩ := List.find?_eq_some_iff_append.mp hy
    refine .inr ⟨_, pre, c, post, rfl, rfl, rfl, ?_, h.reuse hg⟩
    rw [size_linkAllocated, size_unlink]
    exact of_decide_eq_true hc

theorem Lists.free_cases (h : t.Lists p xs ys) (hg : Geometry g t) (ptr : Nat)
    (hq : t.mchunk ≠ 0 → t.data t.mchunk = ptr → p = 0) :
    (t.free ptr = some t ∧ ∀ x ∈ xs, t.data x ≠ ptr) ∨
    ∃ t' pre c post, t.free ptr = some t' ∧ xs = pre ++ c :: post ∧ t.data c = ptr ∧
      t'.Lists p (pre ++ post) (c :: ys) := by
  have hf := h.alloc.search_eq hg fun c => decide (t.data c = ptr)
  rw [head] at hf
  rw [free, hf]
  cases hx : xs.find? fun c => decide (t.data c = ptr) with
  | none =>
    refine .inl ⟨rfl, ?_⟩
    intro x hm hd
    exact List.find?_eq_none.mp hx x hm (decide_eq_true hd)
  | some c =>
    obtain ⟨hc, pre, post, rfl, _⟩ := List.find?_eq_some_iff_append.mp hx
    refine .inr ⟨_, pre, c, post, rfl, rfl, of_decide_eq_true hc, h.release hg ?_⟩
    rintro rfl
    have hm : t.mchunk = c := h.alloc.chain.head_eq
    rw [hm] at hq
    exact hq h.alloc.chain.2.1 (of_decide_eq_true hc)

end HeapTable

end BiosKernel
