import BiosKernel.Vfs.Components

namespace BiosKernel
open Segments
set_option autoImplicit true

namespace Vfs

/-- The name of a node up to its terminator. -/
def nameText (v : Vfs) (i : Nat) : CString := (v.node i).name.text

def isDir (v : Vfs) (i : Nat) : Bool := (v.node i).type = .dir

/-- As deep as the names lead through directories, with the names that are left. -/
def descend (v : Vfs) : Nat → List CString → Nat × List CString :=
  NamedTree.descend v.children v.nameText v.isDir

/-- The names lead from the root to a node. -/
def Leads (v : Vfs) (names : List CString) (i : Nat) : Prop :=
  NamedTree.At v.children v.nameText vfsRoot names.reverse i

/-- What `vfs_get_node` returns from a node with some names left. -/
def stopped (v : Vfs) (path remainingPath : CString) (i : Nat) :
    List CString → VfsGetNodeReturn
  | [] => ⟨some i, none, .ok⟩
  | _ :: _ =>
    match (v.node i).type with
    | .dir => ⟨some i, some remainingPath, .ok⟩
    | .fileSystem => ⟨some i, some remainingPath, .continuesInFileSystem⟩
    | _ => ⟨none, some path, .noDir⟩

variable {v : Vfs}

theorem isDir_iff : v.isDir i = true ↔ (v.node i).type = .dir := decide_eq_true_iff

theorem findChildNode_component (hc : Component c) (ht : (v.node i).type = .dir) (s : CString) :
    v.findChildNode i (c ++ s) c.length = NamedTree.child v.children v.nameText i c := by
  have htake : (c ++ s).take c.length = c := List.take_left
  rw [findChildNode, if_neg (not_not_intro ht), NamedTree.child]
  apply List.find?_congr
  intro d _
  rw [decide_eq_decide, memcmp_text_iff (by rw [htake]; exact hc.no_nul) (by simp), htake]
  rfl

theorem descend_suffix (i : Nat) (cs : List CString) : (v.descend i cs).2 <:+ cs := by
  have hroot : NamedTree.At v.children v.nameText i [] i := .root
  obtain ⟨names, hnames, _⟩ := NamedTree.descend_at v.isDir hroot cs
  exact ⟨names, hnames.symm⟩

theorem descend_stop (h : (v.node i).type = .dir → NamedTree.child v.children v.nameText i c = none)
    (cs : List CString) : v.descend i (c :: cs) = (i, c :: cs) :=
  NamedTree.descend_stop (fun hd => h (isDir_iff.mp hd)) cs

theorem descend_enter (ht : (v.node i).type = .dir)
    (h : NamedTree.child v.children v.nameText i c = some d) (cs : List CString) :
    v.descend i (c :: cs) = v.descend d cs :=
  NamedTree.descend_enter (isDir_iff.mpr ht) h cs

theorem descend_leads (v : Vfs) (cs : List CString) : ∃ names,
    cs = names ++ (v.descend vfsRoot cs).2 ∧ v.Leads names (v.descend vfsRoot cs).1 := by
  have hroot : v.Leads [] vfsRoot := .root
  obtain ⟨names, hparts, hleads⟩ := NamedTree.descend_at v.isDir hroot cs
  rw [List.reverse_nil, List.append_nil] at hleads
  exact ⟨names, hparts, hleads⟩

theorem descend_stopped (v : Vfs) (i : Nat) (cs : List CString)
    (ht : (v.node (v.descend i cs).1).type = .dir) :
    ∀ c ∈ (v.descend i cs).2.head?, ∀ d ∈ v.children (v.descend i cs).1, v.nameText d ≠ c := by
  intro c hc
  cases hleft : (v.descend i cs).2 with
  | nil =>
    rw [hleft] at hc
    cases hc
  | cons l rest =>
    rw [hleft] at hc
    cases hc
    exact NamedTree.child_eq_none_iff.mp (NamedTree.descend_stopped hleft (isDir_iff.mpr ht))

theorem getNodeLoop_descend (hcs : ∀ c ∈ cs, Component c) (hr : cs.length ≤ rounds) (i : Nat)
    (path sep : CString) : v.getNodeLoop path rounds i sep (joined pathSeperator cs).tail =
      v.stopped path (if (v.descend i cs).2 = cs then sep
        else joined pathSeperator (v.descend i cs).2) (v.descend i cs).1 (v.descend i cs).2 := by
  induction cs generalizing rounds i sep with
  | nil =>
    cases rounds with
    | zero => rfl
    | succ rounds => rfl
  | cons c cs ih =>
    have hc := hcs c List.mem_cons_self
    obtain ⟨rounds, rfl⟩ := Nat.exists_eq_add_one_of_ne_zero (Nat.ne_zero_of_lt hr)
    rw [joined_cons, List.tail_cons, getNodeLoop, if_neg (position_component hc cs).1]
    dsimp only
    rw [nextSeparatorPosition_component hc, List.length_append, Nat.add_sub_cancel]
    split
    · next ht =>
      rw [findChildNode_component hc ht]
      cases hchild : NamedTree.child v.children v.nameText i c with
      | none =>
        rw [descend_stop fun _ => hchild, if_pos rfl, stopped, ht]
      | some d =>
        have hlen := (v.descend_suffix d cs).length_le
        have hne : (v.descend d cs).2 ≠ c :: cs := by
          intro he
          rw [he, List.length_cons] at hlen
          omega
        dsimp only
        rw [descend_enter ht hchild, if_neg hne,
          ih (fun d hd => hcs d (List.mem_cons_of_mem c hd)) (Nat.le_of_succ_le_succ hr)]
        congr 1
        split
        · next he => rw [he]
        · rfl
    · next ht =>
      rw [descend_stop fun hd => absurd (hd.symm.trans ht) (by decide), if_pos rfl, stopped, ht]
    · next hd hf =>
      rw [descend_stop fun ht => absurd ht hd, if_pos rfl, stopped]
      split
      · next ht => exact absurd ht hd
      · next ht => exact absurd ht hf
      · rfl

theorem vfsGetNode_eq (v : Vfs) (h : preprocessPath path = some t) (hne : t ≠ []) :
    v.vfsGetNode path = v.stopped t
      (if (v.descend vfsRoot (components t)).2 = components t then t
        else joined pathSeperator (v.descend vfsRoot (components t)).2)
      (v.descend vfsRoot (components t)).1 (v.descend vfsRoot (components t)).2 := by
  obtain ⟨hcomponent, hposition⟩ := preprocessPath_components h hne
  have h0 : t.at0 ≠ 0 := mt (CString.at0_eq_zero_iff
    fun hm => (preprocessPath_pathByte h hm).1 rfl).mp hne
  rw [vfsGetNode, h]
  dsimp only
  rw [if_neg h0, hposition]
  exact getNodeLoop_descend hcomponent (length_components_le h hne) _ _ _

theorem components_left (h : preprocessPath path = some t) (hne : t ≠ [])
    (hsuffix : names <:+ components t) :
    components (if names = components t then t else joined pathSeperator names) = names := by
  split
  · next he => exact he.symm
  · exact segments_joined fun c hc =>
      ((preprocessPath_components h hne).1 c (hsuffix.subset hc)).toProper

/-- The names to the node that was found and those that are left are the components of a path. -/
structure Splits (v : Vfs) (t : CString) (ret : VfsGetNodeReturn) (names : List CString)
    (i : Nat) : Prop where
  found : ret.foundNode = some i
  leads : v.Leads names i
  parts : names ++ ret.remainingPath.elim [] components = components t
  consumed : ret.remainingPath = none ↔ names = components t
  missing : ∀ rest, ret.remainingPath = some rest → ∃ c ∈ (components rest).head?,
    ((v.node i).type = .dir ∧ ∀ d ∈ v.children i, v.nameText d ≠ c) ∨
      ((v.node i).type = .fileSystem ∧ ret.status = .continuesInFileSystem)

theorem Splits.of_left (hleads : v.Leads names i) (hparts : components t = names ++ c :: more)
    (hleft : components left = c :: more)
    (hkind : ((v.node i).type = .dir ∧ ∀ d ∈ v.children i, v.nameText d ≠ c) ∨
      ((v.node i).type = .fileSystem ∧ status = .continuesInFileSystem)) :
    v.Splits t ⟨some i, some left, status⟩ names i where
  found := rfl
  leads := hleads
  parts := by rw [hparts, ← hleft]; rfl
  consumed := by
    rw [hparts]
    exact ⟨fun h => absurd h (Option.some_ne_none _), fun h => absurd h (by simp)⟩
  missing := by
    rintro rest ⟨⟩
    exact ⟨c, by rw [hleft]; rfl, hkind⟩

/-- A walk meets a node that is neither a directory nor a file system with names left, or it splits
the path at the deepest node. -/
theorem vfsGetNode_splits (v : Vfs) (h : preprocessPath path = some t) (hne : t ≠ []) :
    (∃ names c rest i, components t = names ++ c :: rest ∧ v.Leads names i ∧
      (v.node i).type ≠ .dir ∧ (v.node i).type ≠ .fileSystem ∧
      (v.vfsGetNode path).status = .noDir) ∨
    ∃ names i, v.Splits t (v.vfsGetNode path) names i := by
  obtain ⟨names, hparts, hleads⟩ := v.descend_leads (components t)
  have hleft := components_left h hne (v.descend_suffix vfsRoot (components t))
  have hstop := v.descend_stopped vfsRoot (components t)
  rw [vfsGetNode_eq v h hne]
  generalize v.descend vfsRoot (components t) = stop at *
  obtain ⟨i, left⟩ := stop
  cases left with
  | nil =>
    rw [List.append_nil] at hparts
    refine .inr ⟨names, i, rfl, hleads, ?_, ?_, ?_⟩
    · rw [hparts]
      exact List.append_nil names
    · exact ⟨fun _ => hparts.symm, fun _ => rfl⟩
    · rintro rest ⟨⟩
  | cons c more =>
    rw [stopped]
    split
    · next ht => exact .inr ⟨names, i, .of_left hleads hparts hleft (.inl ⟨ht, hstop ht c rfl⟩)⟩
    · next ht => exact .inr ⟨names, i, .of_left hleads hparts hleft (.inr ⟨ht, rfl⟩)⟩
    · next hd hf => exact .inl ⟨names, c, more, i, hparts, hleads, hd, hf, rfl⟩

/-- `//a/b/` where the root has a child `a` without children. -/
theorem vfsGetNode_splits_below : ∃ names i, Splits (initVfs.addDir vfsRoot [97]) [47, 97, 47, 98]
    ((initVfs.addDir vfsRoot [97]).vfsGetNode [47, 47, 97, 47, 98, 47]) names i := by
  refine (vfsGetNode_splits _ (by decide) (by decide)).resolve_left ?_
  rintro ⟨_, _, _, _, _, _, _, _, hstatus⟩
  exact absurd hstatus (by decide)

end Vfs

end BiosKernel
