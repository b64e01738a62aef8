import BiosKernel.Vfs.Invariant
import BiosKernel.Vfs.Resolve

namespace BiosKernel
open Segments
set_option autoImplicit true

namespace Vfs

/-- Lists hold nodes that `malloc` has given. -/
structure Allocated (v : Vfs) : Prop where
  root : vfsRoot < v.count
  children : ∀ i < v.count, ∀ c ∈ v.children i, c < v.count

/-- The one node more is an empty directory that the path leads to, and every path that has led to
a node or into a file system still does. -/
structure AddsDir (v v' : Vfs) (path : CString) (new : Nat) : Prop where
  count : new = v.count ∧ v'.count = v.count + 1
  empty : (v'.node new).type = .dir ∧ (v'.node new).data = .list []
  fits : (v'.node new).name.length < vfsNodeNameNumOfChars
  others : ∃ parent < v.count, v'.children parent = new :: v.children parent ∧
    (v'.node parent).type = (v.node parent).type ∧ (v'.node parent).name = (v.node parent).name ∧
    ∀ i < v.count, i ≠ parent → v'.node i = v.node i
  found : v'.vfsGetNode path = ⟨some new, none, .ok⟩
  kept : ∀ q, (v.vfsGetNode q).foundNode ≠ none → ((v.vfsGetNode q).remainingPath = none ∨
    (v.vfsGetNode q).status = .continuesInFileSystem) → v'.vfsGetNode q = v.vfsGetNode q

/-- `vfs_mkdir` returns `NULL` and changes nothing, or adds the directory of the path. -/
def MkdirAdds (v : Vfs) (path : CString) : Prop :=
  ∃ r v', v.vfsMkdir path = some (r, v') ∧
    match r with
    | none => v' = v
    | some new => AddsDir v v' path new

/-- Where only the last component is missing from a directory, there is a separator before it and
it is no longer than 255 bytes. -/
def LastFits (v : Vfs) (t : CString) : Prop :=
  ∀ parent name, v.descend vfsRoot (components t) = (parent, [name]) →
    (v.node parent).type = .dir →
    (t.at0 = pathSeperator ∨ components t ≠ [name]) ∧ name.length ≤ 255

/-- What `vfs_mkdir` takes for the name of the last component. -/
def dirName (t name : CString) : CString :=
  if components t = [name] ∧ t.at0 ≠ pathSeperator then name.tail else name

variable {v v' : Vfs}

theorem Typed.allocated (h : v.Typed) : v.Allocated :=
  ⟨h.root, fun i hi c hc => (h.children i hi c hc).2⟩

theorem left_tail (h : preprocessPath path = some t) (hne : t ≠ []) (name : CString)
    (more : List CString) :
    (if name :: more = components t then t else joined pathSeperator (name :: more)).tail =
      (if components t = name :: more ∧ t.at0 ≠ pathSeperator then name.tail else name) ++
        joined pathSeperator more := by
  by_cases hall : components t = name :: more
  · have hposition := (preprocessPath_components h hne).2
    have hproper := ((preprocessPath_components h hne).1 name (by simp [hall])).ne_nil
    rw [hall, joined_cons, List.tail_cons] at hposition
    rw [if_pos hall.symm]
    by_cases h0 : t.at0 = pathSeperator
    · rw [if_pos h0] at hposition
      rw [if_neg fun hn => hn.2 h0, hposition]
    · rw [if_neg h0] at hposition
      rw [if_pos ⟨hall, h0⟩, hposition, List.tail_append_of_ne_nil hproper]
  · rw [if_neg (Ne.symm hall), if_neg fun hn => hall hn.1]
    rfl

theorem vfsMkdir_refused (h : ∀ i, (v.vfsGetNode path).foundNode = some i →
    (v.node i).type ≠ .dir) : v.vfsMkdir path = some (none, v) := by
  rcases vfsMkdir_cases v path with hm | ⟨i, _, hf, _, ht, _⟩
  · exact hm
  · exact absurd ht (h i hf)

theorem vfsMkdir_eq (v : Vfs) (h : preprocessPath path = some t) (hne : t ≠ []) :
    v.vfsMkdir path = match v.descend vfsRoot (components t) with
      | (parent, [name]) =>
        if (v.node parent).type = .dir then
          if (dirName t name).length < vfsNodeNameNumOfChars then
            some (some v.count, v.addDir parent (dirName t name))
          else none
        else some (none, v)
      | _ => some (none, v) := by
  have hget := vfsGetNode_eq v h hne
  have hcomponent := (preprocessPath_components h hne).1
  have hsuffix := v.descend_suffix vfsRoot (components t)
  generalize v.descend vfsRoot (components t) = stop at *
  obtain ⟨i, left⟩ := stop
  cases left with
  | nil =>
    rw [vfsMkdir, hget]
    rfl
  | cons name more =>
    by_cases ht : (v.node i).type = .dir
    · have hname := hcomponent name (hsuffix.subset List.mem_cons_self)
      have hsub : (if components t = name :: more ∧ t.at0 ≠ pathSeperator
          then name.tail else name) ⊆ name := by
        split
        · exact List.tail_subset name
        · exact List.Subset.refl name
      rw [vfsMkdir, hget, stopped, ht]
      dsimp only
      rw [if_neg (not_not_intro ht), left_tail h hne,
        strchr_append (fun hm => hname.no_sep (hsub hm)) fun hm => hname.no_nul (hsub hm)]
      cases more with
      | nil =>
        rw [joined_nil, List.append_nil]
        exact (if_pos ht).symm
      | cons d more => rfl
    · have hrefused : v.vfsMkdir path = some (none, v) := by
        refine vfsMkdir_refused fun j hj => ?_
        rw [hget, stopped] at hj
        split at hj
        · next hd => exact absurd hd ht
        · cases hj
          exact ht
        · cases hj
      rw [hrefused]
      cases more with
      | nil => exact (if_neg ht).symm
      | cons d more => rfl

theorem Allocated.descend_lt (hv : v.Allocated) (cs : List CString) :
    (v.descend vfsRoot cs).1 < v.count :=
  NamedTree.descend_inside (· < v.count) hv.children hv.root cs

theorem stopped_congr (h : (v'.node i).type = (v.node i).type) (path left : CString)
    (names : List CString) : v'.stopped path left i names = v.stopped path left i names := by
  cases names with
  | nil => rfl
  | cons c names => rw [stopped, stopped, h]

theorem stopped_end (hfound : (v.stopped path left i names).foundNode ≠ none)
    (hend : (v.stopped path left i names).remainingPath = none ∨
      (v.stopped path left i names).status = .continuesInFileSystem) :
    names = [] ∨ v.isDir i = false := by
  cases names with
  | nil => exact .inl rfl
  | cons c names =>
    rw [stopped] at hfound hend
    split at hend
    · rcases hend with hend | hend
      · cases hend
      · cases hend
    · next ht => exact .inr (decide_eq_false fun hd => absurd (hd.symm.trans ht) (by decide))
    · next hd _ => exact .inr (decide_eq_false hd)

section Created

variable (hv : v.Allocated) (hp : parent < v.count) (ht : (v.node parent).type = .dir)
  (hname : 0 ∉ name) (hnew : ∀ c ∈ v.children parent, v.nameText c ≠ name)
include hv hp ht hname hnew

theorem grows_addDir : NamedTree.Grows v.children (v.addDir parent name).children v.nameText
    (v.addDir parent name).nameText v.isDir (v.addDir parent name).isDir (· < v.count) parent
    v.count where
  closed := hv.children
  same_name i hi := by rw [nameText, addDir_name hp, if_neg (Nat.ne_of_lt hi)]; rfl
  same_enters i hi := by rw [isDir, addDir_type hp, if_neg (Nat.ne_of_lt hi)]; rfl
  other i hi hn := by rw [addDir_children, if_neg hn, if_neg (Nat.ne_of_lt hi)]
  first := by rw [addDir_children, if_pos rfl]
  entered := isDir_iff.mpr ht
  fresh := by
    rw [nameText, addDir_name hp, if_pos rfl, CString.text_eq_self hname]
    exact NamedTree.child_eq_none_iff.mpr hnew

theorem addDir_kept (hfound : (v.vfsGetNode q).foundNode ≠ none)
    (hend : (v.vfsGetNode q).remainingPath = none ∨
      (v.vfsGetNode q).status = .continuesInFileSystem) :
    (v.addDir parent name).vfsGetNode q = v.vfsGetNode q := by
  obtain ⟨i, hi⟩ := Option.ne_none_iff_exists'.mp hfound
  obtain ⟨t, _, hpre, hne, _⟩ := vfsGetNode_walk hi
  rw [vfsGetNode_eq v hpre hne] at hfound hend
  have hdescend : (v.addDir parent name).descend vfsRoot (components t) =
      v.descend vfsRoot (components t) :=
    (grows_addDir hv hp ht hname hnew).descend_eq hv.root (stopped_end hfound hend)
  have htype := addDir_type hp name (v.descend vfsRoot (components t)).1
  rw [if_neg (Nat.ne_of_lt (hv.descend_lt _))] at htype
  rw [vfsGetNode_eq _ hpre hne, vfsGetNode_eq _ hpre hne, hdescend, stopped_congr htype]

theorem addsDir_addDir (hpre : preprocessPath path = some t) (hne : t ≠ [])
    (hd : v.descend vfsRoot (components t) = (parent, [name]))
    (hfits : name.length < vfsNodeNameNumOfChars) :
    AddsDir v (v.addDir parent name) path v.count := by
  have hnode : (v.addDir parent name).node v.count = ⟨.dir, name, .list []⟩ := by
    rw [addDir_node, if_neg (Nat.ne_of_gt hp), if_pos rfl]
  have htext : (v.addDir parent name).nameText v.count = name := by
    rw [nameText, hnode, CString.text_eq_self hname]
  have hdescend : (v.addDir parent name).descend vfsRoot (components t) = (v.count, []) := by
    refine (grows_addDir hv hp ht hname hnew).descend_new hv.root ?_
    rw [htext]
    exact hd
  refine ⟨⟨rfl, rfl⟩, ?_, ?_, ⟨parent, hp, ?_, ?_, ?_, ?_⟩, ?_, ?_⟩
  · rw [hnode]
    exact ⟨rfl, rfl⟩
  · rw [hnode]
    exact hfits
  · rw [addDir_children, if_pos rfl]
  · rw [addDir_type hp, if_neg (Nat.ne_of_lt hp)]
  · rw [addDir_name hp, if_neg (Nat.ne_of_lt hp)]
  · intro i hi hn
    rw [addDir_node, if_neg hn, if_neg (Nat.ne_of_lt hi)]
  · rw [vfsGetNode_eq _ hpre hne, hdescend]
    rfl
  · exact fun q hfound hend => addDir_kept hv hp ht hname hnew hfound hend

end Created

theorem nameText_of_found (h : preprocessPath path = some t) (hne : t ≠ [])
    (ht : components t = [name]) (hf : v.vfsGetNode path = ⟨some i, none, .ok⟩) :
    v.nameText i = name := by
  obtain ⟨names, hparts, hleads⟩ := v.descend_leads (components t)
  rw [vfsGetNode_eq v h hne] at hf
  generalize v.descend vfsRoot (components t) = stop at *
  obtain ⟨j, left⟩ := stop
  cases left with
  | nil =>
    cases hf
    rw [ht, List.append_nil] at hparts
    subst hparts
    cases hleads with
    | child _ _ => rfl
  | cons c left =>
    rw [stopped] at hf
    split at hf
    · cases hf
    · cases hf
    · cases hf

theorem not_cut_of_adds (h : preprocessPath path = some t) (hne : t ≠ []) (hp : parent < v.count)
    (hr : AddsDir v (v.addDir parent (dirName t name)) path v.count) :
    ¬ (components t = [name] ∧ t.at0 ≠ pathSeperator) := by
  intro hcut
  have hname := nameText_of_found h hne hcut.1 hr.found
  have hcomponent := (preprocessPath_components h hne).1 name (by simp [hcut.1])
  have hpos := List.length_pos_iff.mpr hcomponent.ne_nil
  rw [nameText, addDir_name hp, if_pos rfl, dirName, if_pos hcut] at hname
  have hle : name.length ≤ name.tail.length := by
    nth_rewrite 1 [← hname]
    exact (List.takeWhile_prefix _).length_le
  rw [List.length_tail] at hle
  omega

theorem dirName_eq (hsep : t.at0 = pathSeperator ∨ components t ≠ [name]) :
    dirName t name = name :=
  if_neg fun hcut => hsep.elim hcut.2 fun hn => hn hcut.1

/-- `vfs_mkdir` fails exactly on a relative path of one new component and on a new component of more
than 255 bytes. -/
theorem mkdirAdds_iff (hv : v.Allocated) (h : preprocessPath path = some t) (hne : t ≠ []) :
    v.MkdirAdds path ↔ v.LastFits t := by
  have hparent := hv.descend_lt (components t)
  have hnew := v.descend_stopped vfsRoot (components t)
  have hsuffix := v.descend_suffix vfsRoot (components t)
  constructor
  · rintro ⟨r, v', hm, hr⟩ parent name hd ht
    rw [hd] at hparent
    rw [vfsMkdir_eq v h hne, hd] at hm
    dsimp only at hm
    rw [if_pos ht] at hm
    split at hm
    · next hlen =>
      cases hm
      have hcut := not_cut_of_adds h hne hparent hr
      have hsep : t.at0 = pathSeperator ∨ components t ≠ [name] := by
        by_cases hsep : t.at0 = pathSeperator
        · exact .inl hsep
        · exact .inr fun he => hcut ⟨he, hsep⟩
      rw [dirName_eq hsep] at hlen
      exact ⟨hsep, Nat.le_of_lt_succ hlen⟩
    · cases hm
  · intro hfit
    rw [MkdirAdds, vfsMkdir_eq v h hne]
    cases hd : v.descend vfsRoot (components t) with
    | mk parent left =>
      rw [hd] at hparent hnew hsuffix
      cases left with
      | nil => exact ⟨none, v, rfl, rfl⟩
      | cons name more =>
        cases more with
        | cons c more => exact ⟨none, v, rfl, rfl⟩
        | nil =>
          dsimp only
          by_cases ht : (v.node parent).type = .dir
          · obtain ⟨hsep, hlen⟩ := hfit parent name hd ht
            have hfits : name.length < vfsNodeNameNumOfChars := Nat.lt_succ_of_le hlen
            have hcomponent := (preprocessPath_components h hne).1 name
              (hsuffix.subset List.mem_cons_self)
            rw [if_pos ht, dirName_eq hsep, if_pos hfits]
            exact ⟨some v.count, _, rfl, addsDir_addDir hv hparent ht hcomponent.no_nul
              (hnew ht name rfl) h hne hd hfits⟩
          · rw [if_neg ht]
            exact ⟨none, v, rfl, rfl⟩

/-- `/abc`. -/
theorem mkdirAdds_absolute : initVfs.MkdirAdds [47, 97, 98, 99] := by
  refine (mkdirAdds_iff invariant_initVfs.toTyped.allocated (t := [47, 97, 98, 99]) (by decide)
    (by decide)).mpr ?_
  intro parent name hd _
  have hstop : initVfs.descend vfsRoot (components [47, 97, 98, 99]) = (0, [[97, 98, 99]]) := by
    decide
  cases hstop.symm.trans hd
  exact ⟨.inl rfl, by decide⟩

/-- `abc` becomes the directory `bc`, and does not lead to it. -/
theorem relative_name_cut :
    initVfs.vfsMkdir [97, 98, 99] = some (some 1, initVfs.addDir 0 [98, 99]) ∧
      (initVfs.addDir 0 [98, 99]).vfsGetNode [97, 98, 99] = ⟨some 0, some [97, 98, 99], .ok⟩ ∧
      ¬ initVfs.MkdirAdds [97, 98, 99] := by
  have hmkdir : initVfs.vfsMkdir [97, 98, 99] = some (some 1, initVfs.addDir 0 [98, 99]) := rfl
  have hget : (initVfs.addDir 0 [98, 99]).vfsGetNode [97, 98, 99] =
      ⟨some 0, some [97, 98, 99], .ok⟩ := by decide
  refine ⟨hmkdir, hget, ?_⟩
  rintro ⟨r, v', hm, hr⟩
  cases hmkdir.symm.trans hm
  exact absurd (hget.symm.trans hr.found) (by decide)

end Vfs

end BiosKernel
