import BiosKernel.Libc.Text
import BiosKernel.Vfs.Tree

namespace BiosKernel
set_option autoImplicit true

/-- The name of a node other than the root. -/
structure ValidName (name : CString) : Prop where
  ne_nil : name ≠ []
  pathByte : ∀ c ∈ name, PathByte c
  no_seperator : pathSeperator ∉ name
  fits : name.length < vfsNodeNameNumOfChars

namespace Vfs

/-- The type of each node tells what its data is, and lists hold nodes. -/
structure Typed (v : Vfs) : Prop where
  root : vfsRoot < v.count
  data : ∀ i < v.count, ((v.node i).type = .dir ∧ ∃ l, (v.node i).data = .list l) ∨
    ((v.node i).type = .fileSystem ∧ ∃ fs, (v.node i).data = .mount fs)
  children : ∀ i < v.count, ∀ c ∈ v.children i, vfsRoot < c ∧ c < v.count

structure Invariant (v : Vfs) : Prop extends v.Typed where
  names : ∀ i, vfsRoot < i → i < v.count → ValidName (v.node i).name
  distinct : ∀ i < v.count, ((v.children i).map fun c => (v.node c).name).Nodup

variable {v v' : Vfs}

theorem Typed.type (h : v.Typed) (hi : i < v.count) :
    (v.node i).type = .dir ∨ (v.node i).type = .fileSystem := (h.data i hi).imp And.left And.left

theorem invariant_initVfs : initVfs.Invariant where
  root := by decide
  data i _ := .inl ⟨rfl, [], rfl⟩
  children i _ c hc := absurd hc List.not_mem_nil
  names i hi hlt := absurd hlt (Nat.not_lt_of_le hi)
  distinct i _ := List.nodup_nil

theorem findChildNode_mem (h : v.findChildNode i s n = some c) : c ∈ v.children i := by
  rw [findChildNode] at h
  split at h
  · cases h
  · exact List.mem_of_find?_eq_some h

theorem nextSeparatorPosition_suffix (s : CString) : nextSeparatorPosition s <:+ s := by
  rw [nextSeparatorPosition]
  split
  · next h => exact strchr_suffix h
  · cases h : strchr s 0 with
    | none => exact List.nil_suffix
    | some r => exact strchr_suffix h

/-- The rounds of `vfs_get_node` from a node, a separator and a position behind it on. -/
inductive Walk (v : Vfs) (path : CString) : Nat → CString → CString → VfsGetNodeReturn → Prop
  | done (h0 : cur.at0 = 0) : Walk v path i sep cur ⟨some i, none, .ok⟩
  | missing (h0 : cur.at0 ≠ 0) (ht : (v.node i).type = .dir)
      (hc : v.findChildNode i cur (cur.length - (nextSeparatorPosition cur).length) = none) :
      Walk v path i sep cur ⟨some i, some sep, .ok⟩
  | child (h0 : cur.at0 ≠ 0) (ht : (v.node i).type = .dir)
      (hc : v.findChildNode i cur (cur.length - (nextSeparatorPosition cur).length) = some c)
      (hw : Walk v path c (nextSeparatorPosition cur) (nextSeparatorPosition cur).tail r) :
      Walk v path i sep cur r
  | mounted (h0 : cur.at0 ≠ 0) (ht : (v.node i).type = .fileSystem) :
      Walk v path i sep cur ⟨some i, some sep, .continuesInFileSystem⟩
  | noDir (h0 : cur.at0 ≠ 0) (hd : (v.node i).type ≠ .dir) (hf : (v.node i).type ≠ .fileSystem) :
      Walk v path i sep cur ⟨none, some path, .noDir⟩

theorem getNodeLoop_walk (path sep : CString) (hr : cur.length ≤ rounds) :
    Walk v path i sep cur (v.getNodeLoop path rounds i sep cur) := by
  induction rounds generalizing i sep cur with
  | zero =>
    cases List.eq_nil_of_length_eq_zero (Nat.le_zero.mp hr)
    exact .done rfl
  | succ rounds ih =>
    rw [getNodeLoop]
    by_cases h0 : CString.at0 cur = 0
    · rw [if_pos h0]
      exact .done h0
    · rw [if_neg h0]
      dsimp only
      split
      · next ht =>
        cases hc : v.findChildNode i cur (cur.length - (nextSeparatorPosition cur).length) with
        | none => exact .missing h0 ht hc
        | some c =>
          have hlen := (nextSeparatorPosition_suffix cur).length_le
          refine .child h0 ht hc (ih _ ?_)
          rw [List.length_tail]
          omega
      · next ht => exact .mounted h0 ht
      · next hd hf => exact .noDir h0 hd hf

theorem vfsGetNode_walk (hf : (v.vfsGetNode path).foundNode = some i) :
    ∃ t cur, preprocessPath path = some t ∧ t ≠ [] ∧ cur <:+ t ∧
      (t.at0 = pathSeperator → cur = t.tail) ∧ Walk v t vfsRoot t cur (v.vfsGetNode path) := by
  rw [vfsGetNode] at hf ⊢
  cases hpre : preprocessPath path with
  | none =>
    rw [hpre] at hf
    cases hf
  | some t =>
    rw [hpre] at hf
    dsimp only at hf ⊢
    by_cases h0 : t.at0 = 0
    · rw [if_pos h0] at hf
      cases hf
    · rw [if_neg h0]
      have hcur : (if t.at0 = pathSeperator then t.tail else t) <:+ t := by
        split
        · exact List.tail_suffix t
        · exact List.suffix_refl t
      exact ⟨t, _, rfl, fun he => h0 (by rw [he]; rfl), hcur, fun hs => if_pos hs,
        getNodeLoop_walk t t hcur.length_le⟩

theorem Walk.found (h : v.Typed) (hw : Walk v path i sep cur r) (hi : i < v.count) :
    ∃ j < v.count, r.foundNode = some j ∧
      (r.status = .ok ∨ r.status = .continuesInFileSystem ∧ (v.node j).type = .fileSystem) := by
  induction hw with
  | done => exact ⟨_, hi, rfl, .inl rfl⟩
  | missing => exact ⟨_, hi, rfl, .inl rfl⟩
  | child _ _ hc _ ih => exact ih (h.children _ hi _ (findChildNode_mem hc)).2
  | mounted _ ht => exact ⟨_, hi, rfl, .inr ⟨rfl, ht⟩⟩
  | noDir _ hd hf => exact absurd (h.type hi) (not_or.mpr ⟨hd, hf⟩)

theorem Typed.vfsGetNode_cases (h : v.Typed) (path : CString) :
    ((v.vfsGetNode path).foundNode = none ∧ (v.vfsGetNode path).status ≠ .noDir) ∨
    ∃ i < v.count, (v.vfsGetNode path).foundNode = some i ∧
      ((v.vfsGetNode path).status = .ok ∨
        (v.vfsGetNode path).status = .continuesInFileSystem ∧ (v.node i).type = .fileSystem) := by
  rw [vfsGetNode]
  cases hpre : preprocessPath path with
  | none => exact .inl ⟨rfl, VfsStatus.noConfusion⟩
  | some t =>
    dsimp only
    by_cases h0 : t.at0 = 0
    · rw [if_pos h0]
      exact .inl ⟨rfl, VfsStatus.noConfusion⟩
    · rw [if_neg h0]
      right
      refine (getNodeLoop_walk t t ?_).found h h.root
      split
      · exact (List.tail_suffix t).length_le
      · exact Nat.le_refl _

theorem Typed.found_lt (h : v.Typed) (hf : (v.vfsGetNode path).foundNode = some i) :
    i < v.count := by
  obtain ⟨hnone, _⟩ | ⟨j, hj, hfound, _⟩ := h.vfsGetNode_cases path
  · rw [hnone] at hf
    cases hf
  · cases hf.symm.trans hfound
    exact hj

theorem Typed.status_ne_noDir (h : v.Typed) (path : CString) :
    (v.vfsGetNode path).status ≠ .noDir := by
  obtain ⟨_, hs⟩ | ⟨_, _, _, hs | ⟨hs, _⟩⟩ := h.vfsGetNode_cases path
  · exact hs
  · rw [hs]
    exact VfsStatus.noConfusion
  · rw [hs]
    exact VfsStatus.noConfusion

theorem ne_nil_of_at0 {s : CString} (h : s.at0 ≠ 0) : s ≠ [] := by
  rintro rfl
  exact h rfl

theorem Walk.suffix (hw : Walk v path i sep cur r) (hsep : cur ≠ [] → sep ≠ [])
    (hsuffix : sep <:+ path) (hcur : cur <:+ path) (hf : r.foundNode = some j)
    (hr : r.remainingPath = some rest) : rest ≠ [] ∧ rest <:+ path := by
  induction hw with
  | done => cases hr
  | missing h0 =>
    cases hr
    exact ⟨hsep (ne_nil_of_at0 h0), hsuffix⟩
  | child h0 _ _ _ ih =>
    have hnext := (nextSeparatorPosition_suffix _).trans hcur
    refine ih ?_ hnext ((List.tail_suffix _).trans hnext) hf hr
    intro htail he
    rw [he] at htail
    exact htail rfl
  | mounted h0 =>
    cases hr
    exact ⟨hsep (ne_nil_of_at0 h0), hsuffix⟩
  | noDir => cases hf

theorem remainingPath_cons (hf : (v.vfsGetNode path).foundNode = some i)
    (hr : (v.vfsGetNode path).remainingPath = some rest) : ∃ c s, rest = c :: s ∧ PathByte c := by
  obtain ⟨t, cur, hpre, hne, hcur, _, hw⟩ := vfsGetNode_walk hf
  obtain ⟨hrest, hsuffix⟩ := hw.suffix (fun _ => hne) (List.suffix_refl t) hcur hf hr
  cases rest with
  | nil => exact absurd rfl hrest
  | cons c s =>
    exact ⟨c, s, rfl, preprocessPath_pathByte hpre (hsuffix.subset List.mem_cons_self)⟩

theorem findChildNode_none (hnames : ∀ c ∈ v.children i, 0 ∉ (v.node c).name)
    (ht : (v.node i).type = .dir) (hs : 0 ∉ s) (h : v.findChildNode i s s.length = none)
    (hc : c ∈ v.children i) : (v.node c).name ≠ s := by
  rw [findChildNode, if_neg (not_not_intro ht), List.find?_eq_none] at h
  intro hname
  refine h c hc (decide_eq_true ?_)
  rw [memcmp_text_iff (by rwa [List.take_length]) (Nat.le_refl _),
    CString.text_eq_self (hnames c hc), List.take_length]
  exact hname

theorem nextSeparatorPosition_cases (hs : 0 ∉ s) :
    (pathSeperator ∉ s ∧ nextSeparatorPosition s = []) ∨
    ∃ seg rest, s = seg ++ pathSeperator :: rest ∧ pathSeperator ∉ seg ∧
      nextSeparatorPosition s = pathSeperator :: rest := by
  rw [nextSeparatorPosition]
  by_cases hm : pathSeperator ∈ s
  · obtain ⟨seg, rest, hsplit, hseg, hchr⟩ := strchr_of_mem hs hm
    exact .inr ⟨seg, rest, hsplit, hseg, by rw [hchr]⟩
  · refine .inl ⟨hm, ?_⟩
    rw [strchr_of_not_mem hm (by decide), strchr_zero hs]
    rfl

/-- What `remaining_path` says about the node that was found. -/
structure Remains (v : Vfs) (i : Nat) (s rest : CString) : Prop where
  ne_nil : rest ≠ []
  suffix : rest <:+ s
  no_child : pathSeperator ∉ rest → ∀ c ∈ v.children i, (v.node c).name ≠ rest

theorem Invariant.name_no_nul (h : v.Invariant) (hi : i < v.count) :
    ∀ c ∈ v.children i, 0 ∉ (v.node c).name := by
  intro c hc hmem
  obtain ⟨hpos, hlt⟩ := h.children i hi c hc
  exact ((h.names c hpos hlt).pathByte 0 hmem).1 rfl

theorem Walk.remains (h : v.Invariant) (hw : Walk v path i sep cur r) (hi : i < v.count)
    (hs : 0 ∉ cur) (hsep : cur ≠ [] → sep = pathSeperator :: cur) (hf : r.foundNode = some j)
    (hr : r.remainingPath = some p) : ∃ rest, p = pathSeperator :: rest ∧ v.Remains j cur rest := by
  induction hw with
  | done => cases hr
  | missing h0 ht hc =>
    cases hf
    cases hr
    refine ⟨_, hsep (ne_nil_of_at0 h0), ne_nil_of_at0 h0, List.suffix_refl _, ?_⟩
    intro hno c hchild
    obtain ⟨_, hnext⟩ | ⟨seg, rest, rfl, _⟩ := nextSeparatorPosition_cases hs
    · rw [hnext] at hc
      exact findChildNode_none (h.name_no_nul hi) ht hs hc hchild
    · simp at hno
  | child h0 _ hc _ ih =>
    have hlt := (h.children _ hi _ (findChildNode_mem hc)).2
    obtain ⟨_, hnext⟩ | ⟨seg, rest, rfl, _, hnext⟩ := nextSeparatorPosition_cases hs
    · rw [hnext] at ih
      obtain ⟨rest, _, hrem⟩ := ih hlt List.not_mem_nil (fun hn => absurd rfl hn) hf hr
      exact absurd (List.suffix_nil.mp hrem.suffix) hrem.ne_nil
    · have hsuffix : rest <:+ seg ++ pathSeperator :: rest :=
        (List.suffix_cons _ _).trans (List.suffix_append _ _)
      rw [hnext] at ih
      obtain ⟨rest', hp, hrem⟩ := ih hlt (fun hm => hs (hsuffix.subset hm)) (fun _ => rfl) hf hr
      exact ⟨rest', hp, hrem.ne_nil, hrem.suffix.trans hsuffix, hrem.no_child⟩
  | mounted h0 ht =>
    cases hf
    cases hr
    refine ⟨_, hsep (ne_nil_of_at0 h0), ne_nil_of_at0 h0, List.suffix_refl _, ?_⟩
    intro _ c hc
    obtain ⟨hd, _⟩ | ⟨_, fs, hd⟩ := h.data _ hi
    · rw [hd] at ht
      cases ht
    · rw [children, hd] at hc
      cases hc
  | noDir => cases hf

theorem vfsGetNode_remains (h : v.Invariant)
    (hf : (v.vfsGetNode (pathSeperator :: s)).foundNode = some j)
    (hr : (v.vfsGetNode (pathSeperator :: s)).remainingPath = some p) :
    ∃ t rest, preprocessPath (pathSeperator :: s) = some t ∧ p = pathSeperator :: rest ∧
      v.Remains j t rest := by
  obtain ⟨t, cur, hpre, _, hcur, habs, hw⟩ := vfsGetNode_walk hf
  obtain ⟨rest, rfl⟩ := preprocessPath_absolute hpre
  cases habs rfl
  have hrest : 0 ∉ rest :=
    fun hm => (preprocessPath_pathByte hpre (List.mem_cons_of_mem _ hm)).1 rfl
  obtain ⟨rest', hp, hrem⟩ := hw.remains h h.root hrest (fun _ => rfl) hf hr
  exact ⟨_, rest', hpre, hp, hrem.ne_nil, hrem.suffix.trans hcur, hrem.no_child⟩

end Vfs

end BiosKernel
