import BiosKernel.Vfs.Walk

namespace BiosKernel
set_option autoImplicit true

namespace Vfs

variable {v v' : Vfs}

theorem vfsMkdir_cases (v : Vfs) (path : CString) :
    v.vfsMkdir path = some (none, v) ∨
    ∃ parent r, (v.vfsGetNode path).foundNode = some parent ∧
      (v.vfsGetNode path).remainingPath = some r ∧ (v.node parent).type = .dir ∧
      strchr r.tail pathSeperator = none ∧
      v.vfsMkdir path = if r.tail.length < vfsNodeNameNumOfChars
        then some (some v.count, v.addDir parent r.tail) else none := by
  rw [vfsMkdir]
  cases hr : (v.vfsGetNode path).remainingPath with
  | none => exact .inl rfl
  | some r =>
    cases hf : (v.vfsGetNode path).foundNode with
    | none => exact .inl rfl
    | some parent =>
      dsimp only
      by_cases ht : (v.node parent).type = .dir
      · rw [if_neg (not_not_intro ht)]
        cases hchr : strchr r.tail pathSeperator with
        | some next => exact .inl rfl
        | none => exact .inr ⟨parent, r, rfl, rfl, ht, hchr, rfl⟩
      · exact .inl (if_pos ht)

theorem mountFileSystem_cases (v : Vfs) (path : CString) (fs : MountData) :
    v.mountFileSystem path fs = (none, v) ∨
    ∃ i, (v.vfsGetNode path).foundNode = some i ∧ (v.node i).type = .dir ∧
      (v.node i).data = .list [] ∧ v.mountFileSystem path fs = (some i, v.mountAt i fs) := by
  rw [mountFileSystem]
  cases hf : (v.vfsGetNode path).foundNode with
  | none => exact .inl rfl
  | some i =>
    cases hr : (v.vfsGetNode path).remainingPath with
    | some r => exact .inl rfl
    | none =>
      dsimp only
      by_cases ht : (v.node i).type = .dir
      · by_cases hd : (v.node i).data = .list []
        · exact .inr ⟨i, rfl, ht, hd, by rw [if_neg (not_not_intro ht), if_neg (not_not_intro hd)]⟩
        · exact .inl (by rw [if_neg (not_not_intro ht), if_pos hd])
      · exact .inl (if_pos ht)

theorem addDir_node (v : Vfs) (parent : Nat) (name : CString) (i : Nat) :
    (v.addDir parent name).node i =
      if i = parent then { v.node parent with data := .list (v.count :: v.children parent) }
      else if i = v.count then ⟨.dir, name, .list []⟩ else v.node i := by
  simp only [addDir, Function.update_apply]

theorem mountAt_node (v : Vfs) (i : Nat) (fs : MountData) (j : Nat) : (v.mountAt i fs).node j =
    if j = i then { v.node i with type := .fileSystem, data := .mount fs } else v.node j := by
  simp only [mountAt, Function.update_apply]

theorem addDir_children (v : Vfs) (parent : Nat) (name : CString) (i : Nat) :
    (v.addDir parent name).children i =
      if i = parent then v.count :: v.children parent
      else if i = v.count then [] else v.children i := by
  rw [children, addDir_node]
  split
  · rfl
  · split <;> rfl

section AddDir

variable (hp : parent < v.count) (name : CString) (i : Nat)
include hp

theorem addDir_type : ((v.addDir parent name).node i).type =
    if i = v.count then .dir else (v.node i).type := by
  rw [addDir_node]
  by_cases hi : i = parent
  · rw [if_pos hi, if_neg (by omega), hi]
  · rw [if_neg hi]
    split <;> rfl

theorem addDir_name : ((v.addDir parent name).node i).name =
    if i = v.count then name else (v.node i).name := by
  rw [addDir_node]
  by_cases hi : i = parent
  · rw [if_pos hi, if_neg (by omega), hi]
  · rw [if_neg hi]
    split <;> rfl

end AddDir

theorem mountAt_name (v : Vfs) (i : Nat) (fs : MountData) (j : Nat) :
    ((v.mountAt i fs).node j).name = (v.node j).name := by
  rw [mountAt_node]
  split
  · next hj => rw [hj]
  · rfl

theorem mountAt_children (hd : (v.node i).data = .list []) (fs : MountData) (j : Nat) :
    (v.mountAt i fs).children j = v.children j := by
  rw [children, mountAt_node]
  split
  · next hj => rw [hj, children, hd]; rfl
  · rfl

theorem Typed.addDir (h : v.Typed) (hp : parent < v.count) (ht : (v.node parent).type = .dir)
    (name : CString) : (v.addDir parent name).Typed := by
  refine ⟨Nat.lt_succ_of_lt h.root, ?_, ?_⟩
  · intro i hi
    rw [addDir_node]
    by_cases hip : i = parent
    · rw [if_pos hip]
      exact .inl ⟨ht, _, rfl⟩
    · rw [if_neg hip]
      by_cases hic : i = v.count
      · rw [if_pos hic]
        exact .inl ⟨rfl, _, rfl⟩
      · rw [if_neg hic]
        exact h.data i (Nat.lt_of_le_of_ne (Nat.le_of_lt_succ hi) hic)
  · intro i hi c hc
    rw [addDir_children] at hc
    have hroot := h.root
    have hold (j : Nat) (hj : j < v.count) (hc : c ∈ v.children j) :
        vfsRoot < c ∧ c < (v.addDir parent name).count :=
      ⟨(h.children j hj c hc).1, Nat.lt_succ_of_lt (h.children j hj c hc).2⟩
    split at hc
    · rcases List.mem_cons.mp hc with rfl | hc
      · exact ⟨h.root, Nat.lt_succ_self _⟩
      · exact hold parent hp hc
    · split at hc
      · cases hc
      · next hic => exact hold i (Nat.lt_of_le_of_ne (Nat.le_of_lt_succ hi) hic) hc

theorem Typed.mountAt (h : v.Typed) (hd : (v.node i).data = .list []) (fs : MountData) :
    (v.mountAt i fs).Typed := by
  refine ⟨h.root, ?_, ?_⟩
  · intro j hj
    rw [mountAt_node]
    split
    · exact .inr ⟨rfl, _, rfl⟩
    · exact h.data j hj
  · intro j hj c hc
    rw [mountAt_children hd] at hc
    exact h.children j hj c hc

theorem Invariant.addDir (h : v.Invariant) (hp : parent < v.count)
    (ht : (v.node parent).type = .dir) (hname : ValidName name)
    (hnew : ∀ c ∈ v.children parent, (v.node c).name ≠ name) :
    (v.addDir parent name).Invariant := by
  -- The names of the children are looked up among the nodes that were there before.
  have hmap (i : Nat) (hi : i < v.count) : (v.children i).map (fun c =>
      ((v.addDir parent name).node c).name) = (v.children i).map fun c => (v.node c).name := by
    apply List.map_congr_left
    intro c hc
    rw [addDir_name hp, if_neg (Nat.ne_of_lt (h.children i hi c hc).2)]
  refine ⟨h.toTyped.addDir hp ht name, ?_, ?_⟩
  · intro i hpos hi
    rw [addDir_name hp]
    split
    · exact hname
    · next hic => exact h.names i hpos (Nat.lt_of_le_of_ne (Nat.le_of_lt_succ hi) hic)
  · intro i hi
    rw [addDir_children]
    split
    · rw [List.map_cons, hmap parent hp, addDir_name hp, if_pos rfl, List.nodup_cons]
      refine ⟨?_, h.distinct parent hp⟩
      intro hm
      obtain ⟨c, hc, hcn⟩ := List.mem_map.mp hm
      exact hnew c hc hcn
    · split
      · exact List.nodup_nil
      · next hic =>
        have hlt := Nat.lt_of_le_of_ne (Nat.le_of_lt_succ hi) hic
        rw [hmap i hlt]
        exact h.distinct i hlt

theorem Invariant.mountAt (h : v.Invariant) (hd : (v.node i).data = .list []) (fs : MountData) :
    (v.mountAt i fs).Invariant := by
  refine ⟨h.toTyped.mountAt hd fs, ?_, ?_⟩
  · intro j hpos hj
    rw [mountAt_name]
    exact h.names j hpos hj
  · intro j hj
    simp only [mountAt_children hd, mountAt_name]
    exact h.distinct j hj

end Vfs

def VfsOp.path : VfsOp → CString
  | .mkdir path => path
  | .mount path _ => path

/-- The path is absolute, and none of its components is longer than 255 bytes. -/
structure VfsOp.Absolute (op : VfsOp) : Prop where
  absolute : ∃ s, op.path = pathSeperator :: s
  components : ∀ seg, seg <:+: op.path → pathSeperator ∉ seg → seg.length ≤ 255

namespace Vfs

variable {v v' : Vfs}

theorem Invariant.step_mkdir (h : v.Invariant) (habs : (VfsOp.mkdir path).Absolute) :
    ∃ r v', v.vfsMkdir path = some (r, v') ∧ v'.Invariant := by
  rcases vfsMkdir_cases v path with hm | ⟨parent, r, hf, hr, ht, hchr, hm⟩
  · exact ⟨_, _, hm, h⟩
  · have hlt := h.toTyped.found_lt hf
    obtain ⟨s, hs⟩ := habs.absolute
    change path = pathSeperator :: s at hs
    subst hs
    obtain ⟨t, rest, hpre, rfl, hrem⟩ := vfsGetNode_remains h hf hr
    have hbyte (c : UInt8) (hc : c ∈ rest) : PathByte c :=
      preprocessPath_pathByte hpre (hrem.suffix.subset hc)
    have hsep : pathSeperator ∉ rest := by
      intro hmem
      obtain ⟨_, _, _, _, hsome⟩ := strchr_of_mem (fun h0 => (hbyte 0 h0).1 rfl) hmem
      rw [List.tail_cons, hsome] at hchr
      cases hchr
    have hfits := habs.components rest
      (infix_of_preprocessPath hpre hsep hrem.suffix.isInfix) hsep
    have hname : ValidName rest := ⟨hrem.ne_nil, hbyte, hsep, Nat.lt_succ_of_le hfits⟩
    rw [List.tail_cons, if_pos hname.fits] at hm
    exact ⟨_, _, hm, h.addDir hlt ht hname (hrem.no_child hsep)⟩

theorem Invariant.step (h : v.Invariant) (habs : op.Absolute) :
    ∃ v', v.step op = some v' ∧ v'.Invariant := by
  cases op with
  | mkdir path =>
    obtain ⟨r, v', hm, hv'⟩ := h.step_mkdir habs
    exact ⟨v', by rw [Vfs.step, hm]; rfl, hv'⟩
  | mount path fs =>
    refine ⟨_, rfl, ?_⟩
    rcases mountFileSystem_cases v path fs with hm | ⟨i, _, _, hd, hm⟩
    · rw [hm]
      exact h
    · rw [hm]
      exact h.mountAt hd fs

theorem Typed.step_cases (h : v.Typed) (hs : v.step op = some v') :
    v' = v ∨
    (∃ parent name, parent < v.count ∧ (v.node parent).type = .dir ∧ v' = v.addDir parent name) ∨
    ∃ i fs, (v.node i).data = .list [] ∧ v' = v.mountAt i fs := by
  cases op with
  | mkdir path =>
    obtain ⟨⟨r, _⟩, hm, rfl⟩ := Option.map_eq_some_iff.mp hs
    rcases vfsMkdir_cases v path with hm' | ⟨parent, r, hf, _, ht, _, hm'⟩
    · cases hm.symm.trans hm'
      exact .inl rfl
    · rw [hm'] at hm
      split at hm
      · cases hm
        exact .inr (.inl ⟨parent, _, h.found_lt hf, ht, rfl⟩)
      · cases hm
  | mount path fs =>
    cases hs
    rcases mountFileSystem_cases v path fs with hm | ⟨i, _, _, hd, hm⟩
    · exact .inl (by rw [hm])
    · exact .inr (.inr ⟨i, fs, hd, by rw [hm]⟩)

theorem Typed.step (h : v.Typed) (hs : v.step op = some v') : v'.Typed := by
  obtain rfl | ⟨parent, name, hp, ht, rfl⟩ | ⟨i, fs, hd, rfl⟩ := h.step_cases hs
  · exact h
  · exact h.addDir hp ht name
  · exact h.mountAt hd fs

/-- A mount is for ever. -/
theorem Typed.step_fileSystem (h : v.Typed) (hs : v.step op = some v') (hi : i < v.count)
    (ht : (v.node i).type = .fileSystem) : i < v'.count ∧ (v'.node i).type = .fileSystem := by
  obtain rfl | ⟨parent, name, hp, _, rfl⟩ | ⟨j, fs, _, rfl⟩ := h.step_cases hs
  · exact ⟨hi, ht⟩
  · refine ⟨Nat.lt_succ_of_lt hi, ?_⟩
    rw [addDir_type hp, if_neg (Nat.ne_of_lt hi)]
    exact ht
  · refine ⟨hi, ?_⟩
    rw [mountAt_node]
    split
    · rfl
    · exact ht

end Vfs

end BiosKernel
