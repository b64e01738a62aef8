import BiosKernel.Vfs.NormalForm
import BiosKernel.Vfs.Queries
import BiosKernel.Vfs.Resolve

namespace BiosKernel
open Runs Segments
set_option autoImplicit true

/-- A byte that a walk reads: of the copy of the path, counted from its begin, or of the name of a
node. -/
inductive WalkRead where
  | path (offset : Nat)
  | name (index : Nat)
  deriving DecidableEq

/-- The bytes of a name lie in its field, those of the path in what `preprocess_path` has asked
`malloc` for. -/
def WalkRead.Inside (path : CString) : WalkRead → Prop
  | .path offset => offset < strlen path + 1
  | .name index => index < vfsNodeNameNumOfChars

instance (path : CString) (r : WalkRead) : Decidable (r.Inside path) :=
  match r with
  | .path offset => inferInstanceAs (Decidable (offset < strlen path + 1))
  | .name index => inferInstanceAs (Decidable (index < vfsNodeNameNumOfChars))

/-- How many bytes `strchr` looks at. -/
def strchrReads : CString → UInt8 → Nat
  | [], _ => 1
  | x :: s, c => if x = 0 ∨ x = c then 1 else strchrReads s c + 1

/-- How many bytes `memcmp` looks at in each of its strings. -/
def memcmpReads (a b : CString) : Nat → Nat
  | 0 => 0
  | size + 1 => if a.at0 = b.at0 then memcmpReads a.tail b.tail size + 1 else 1

def pathReads (offset count : Nat) : List WalkRead := (List.range count).map (.path <| offset + ·)

/-- The two calls of `strchr` for the end of a segment. -/
def separatorReads (currentPathPosition : CString) (offset : Nat) : List WalkRead :=
  pathReads offset (strchrReads currentPathPosition pathSeperator) ++
    match strchr currentPathPosition pathSeperator with
    | some _ => []
    | none => pathReads offset (strchrReads currentPathPosition 0)

/-- The comparison with one child. Its terminator is asked for where `memcmp` finds no
difference. -/
def childReads (name segment : CString) (offset segmentLength : Nat) : List WalkRead :=
  (List.range (memcmpReads name segment segmentLength)).map .name ++
    pathReads offset (memcmpReads name segment segmentLength) ++
    if memcmp name segment segmentLength = 0 then [.name segmentLength] else []

namespace Vfs

/-- The loop of `find_child_node`, up to the first child that fits. -/
def childrenReads (v : Vfs) (segment : CString) (offset segmentLength : Nat) :
    List Nat → List WalkRead
  | [] => []
  | c :: cs =>
    childReads (v.node c).name segment offset segmentLength ++
      if memcmp (v.node c).name segment segmentLength = 0 ∧
          CString.at0 ((v.node c).name.drop segmentLength) = 0 then []
      else childrenReads v segment offset segmentLength cs

/-- What the loop of `vfs_get_node` reads, with the offset of `current_path_position`. -/
def getNodeLoopReads (v : Vfs) : Nat → Nat → CString → Nat → List WalkRead
  | 0, _, _, offset => [.path offset]
  | rounds + 1, currentNode, currentPathPosition, offset =>
    .path offset ::
      if currentPathPosition.at0 = 0 then []
      else
        let next := nextSeparatorPosition currentPathPosition
        let segmentLength := currentPathPosition.length - next.length
        separatorReads currentPathPosition offset ++
          match (v.node currentNode).type with
          | .dir =>
            v.childrenReads currentPathPosition offset segmentLength (v.children currentNode) ++
              match v.findChildNode currentNode currentPathPosition segmentLength with
              | none => []
              | some child =>
                v.getNodeLoopReads rounds child next.tail (offset + segmentLength + 1)
          | _ => []

def vfsGetNodeReads (v : Vfs) (path : CString) : List WalkRead :=
  match preprocessPath path with
  | none => []
  | some path =>
    .path 0 ::
      if path.at0 = 0 then []
      else if path.at0 = pathSeperator then
        .path 0 :: v.getNodeLoopReads path.length vfsRoot path.tail 1
      else .path 0 :: v.getNodeLoopReads path.length vfsRoot path 0

end Vfs

theorem mem_pathReads : r ∈ pathReads offset count ↔ ∃ i < count, r = .path (offset + i) := by
  simp [pathReads, eq_comm]

theorem strchrReads_le (s : CString) (c : UInt8) : strchrReads s c ≤ s.length + 1 := by
  induction s with
  | nil => exact Nat.le_refl 1
  | cons x s ih =>
    rw [strchrReads, List.length_cons]
    split
    · omega
    · omega

theorem separatorReads_le (h : r ∈ separatorReads s offset) :
    ∃ i ≤ s.length, r = .path (offset + i) := by
  have hle (c : UInt8) (h : r ∈ pathReads offset (strchrReads s c)) :
      ∃ i ≤ s.length, r = .path (offset + i) := by
    obtain ⟨i, hi, hr⟩ := mem_pathReads.mp h
    exact ⟨i, Nat.le_of_lt_succ (Nat.lt_of_lt_of_le hi (strchrReads_le s c)), hr⟩
  rcases List.mem_append.mp h with h | h
  · exact hle _ h
  · split at h
    · cases h
    · exact hle _ h

theorem memcmpReads_le {name s : CString} (hs : 0 ∉ s.take n) (hn : n ≤ s.length) :
    memcmpReads name s n ≤ n ∧ memcmpReads name s n ≤ strlen name + 1 ∧
      (memcmp name s n = 0 → n ≤ strlen name) := by
  induction n generalizing name s with
  | zero => exact ⟨Nat.le_refl 0, Nat.zero_le _, fun _ => Nat.zero_le _⟩
  | succ n ih =>
    cases s with
    | nil => cases hn
    | cons b s =>
      rw [List.take_succ_cons] at hs
      have hb : b ≠ 0 := fun h => hs (h ▸ List.mem_cons_self)
      have htail := @ih name.tail s (fun h => hs (List.mem_cons_of_mem b h))
        (Nat.le_of_succ_le_succ hn)
      have hcmp : memcmp name (b :: s) (n + 1) = 0 ↔ name.at0 = b ∧ memcmp name.tail s n = 0 :=
        byteOrder_eq_zero_iff
      have hreads : memcmpReads name (b :: s) (n + 1) =
          if name.at0 = b then memcmpReads name.tail s n + 1 else 1 := rfl
      rw [hreads, hcmp]
      by_cases hab : name.at0 = b
      · have hname := CString.eq_cons_of_at0 hab hb
        have hlen : strlen name = strlen name.tail + 1 := by
          conv_lhs => rw [hname]
          rw [strlen, CString.text_cons hb]
          rfl
        rw [if_pos hab, hlen]
        exact ⟨Nat.succ_le_succ htail.1, Nat.succ_le_succ htail.2.1,
          fun h => Nat.succ_le_succ (htail.2.2 h.2)⟩
      · rw [if_neg hab]
        exact ⟨by omega, by omega, fun h => absurd h.1 hab⟩

/-- What is read for a segment at some offset with the whole rest of `size` bytes before it. -/
def ReadsUpTo (offset size : Nat) (reads : List WalkRead) : Prop :=
  ∀ r ∈ reads, (∃ i ≤ size, r = .path (offset + i)) ∨ ∃ i < vfsNodeNameNumOfChars, r = .name i

theorem ReadsUpTo.append (h : ReadsUpTo offset size reads) (h' : ReadsUpTo offset size reads') :
    ReadsUpTo offset size (reads ++ reads') := by
  intro r hr
  rcases List.mem_append.mp hr with hr | hr
  · exact h r hr
  · exact h' r hr

theorem ReadsUpTo.nil : ReadsUpTo offset size [] := fun _ hr => absurd hr List.not_mem_nil

theorem ReadsUpTo.cons (h : ReadsUpTo offset size reads) :
    ReadsUpTo offset size (.path offset :: reads) := by
  intro r hr
  rcases List.mem_cons.mp hr with rfl | hr
  · exact .inl ⟨0, Nat.zero_le _, rfl⟩
  · exact h r hr

theorem ReadsUpTo.further (h : ReadsUpTo (offset + n) size reads) (hle : n + size ≤ size') :
    ReadsUpTo offset size' reads := by
  intro r hr
  rcases h r hr with ⟨i, hi, rfl⟩ | hname
  · exact .inl ⟨n + i, by omega, by rw [Nat.add_assoc]⟩
  · exact .inr hname

theorem childReads_upTo (hc : Component c) (hname : strlen name < vfsNodeNameNumOfChars)
    (s : CString) (offset : Nat) :
    ReadsUpTo offset (c ++ s).length (childReads name (c ++ s) offset c.length) := by
  have htake : (c ++ s).take c.length = c := List.take_left
  obtain ⟨hsize, hend, hequal⟩ := @memcmpReads_le c.length name (c ++ s)
    (by rw [htake]; exact hc.no_nul) (by simp)
  refine .append (.append ?_ ?_) ?_
  · intro r hr
    obtain ⟨i, hi, rfl⟩ := List.mem_map.mp hr
    exact .inr ⟨i, by have := List.mem_range.mp hi; omega, rfl⟩
  · intro r hr
    obtain ⟨i, hi, rfl⟩ := mem_pathReads.mp hr
    exact .inl ⟨i, by rw [List.length_append]; omega, rfl⟩
  · split
    · next h0 =>
      intro r hr
      cases List.mem_singleton.mp hr
      exact .inr ⟨c.length, Nat.lt_of_le_of_lt (hequal h0) hname, rfl⟩
    · exact .nil

namespace Vfs

variable {v : Vfs}

/-- The terminator of every name lies in its field. -/
def NamesFit (v : Vfs) : Prop := ∀ i, strlen (v.node i).name < vfsNodeNameNumOfChars

theorem childrenReads_upTo (hc : Component c) (hv : v.NamesFit) (s : CString) (offset : Nat)
    (nodes : List Nat) :
    ReadsUpTo offset (c ++ s).length (v.childrenReads (c ++ s) offset c.length nodes) := by
  induction nodes with
  | nil => exact .nil
  | cons d nodes ih =>
    rw [childrenReads]
    refine .append (childReads_upTo hc (hv d) s offset) ?_
    split
    · exact .nil
    · exact ih

theorem getNodeLoopReads_component (hc : Component c) (rounds i offset : Nat)
    (cs : List CString) : v.getNodeLoopReads (rounds + 1) i (c ++ joined pathSeperator cs) offset =
      .path offset :: (separatorReads (c ++ joined pathSeperator cs) offset ++
        if (v.node i).type = .dir then
          v.childrenReads (c ++ joined pathSeperator cs) offset c.length (v.children i) ++
            match NamedTree.child v.children v.nameText i c with
            | none => []
            | some d =>
              v.getNodeLoopReads rounds d (joined pathSeperator cs).tail (offset + c.length + 1)
        else []) := by
  rw [getNodeLoopReads, if_neg (position_component hc cs).1]
  dsimp only
  rw [nextSeparatorPosition_component hc, List.length_append, Nat.add_sub_cancel]
  congr 2
  split
  · next ht =>
    rw [if_pos ht, findChildNode_component hc ht]
  · next ht => rw [if_neg ht]

/-- How far behind its position a walk reads: up to the terminator, or one byte more where all names
are found. -/
def reach (v : Vfs) (i : Nat) (cs : List CString) : Nat :=
  if (v.descend i cs).2 = [] then (joined pathSeperator cs).length
  else (joined pathSeperator cs).tail.length

theorem length_le_reach (i : Nat) (c : CString) (cs : List CString) :
    (c ++ joined pathSeperator cs).length ≤ v.reach i (c :: cs) := by
  rw [reach]
  split
  · exact Nat.le_succ _
  · exact Nat.le_refl _

theorem reach_enter (ht : (v.node i).type = .dir)
    (hd : NamedTree.child v.children v.nameText i c = some d) (cs : List CString) :
    c.length + 1 + v.reach d cs ≤ v.reach i (c :: cs) := by
  rw [reach, reach, descend_enter ht hd]
  cases cs with
  | nil => simp [descend, NamedTree.descend]
  | cons e cs =>
    split
    · simp
      omega
    · simp
      omega

theorem getNodeLoopReads_upTo (hv : v.NamesFit) (hcs : ∀ c ∈ cs, Component c)
    (hr : cs.length ≤ rounds) (i offset : Nat) : ReadsUpTo offset (v.reach i cs)
      (v.getNodeLoopReads rounds i (joined pathSeperator cs).tail offset) := by
  induction cs generalizing rounds i offset with
  | nil =>
    have hreads : v.getNodeLoopReads rounds i (joined pathSeperator []).tail offset =
        [.path offset] := by
      cases rounds with
      | zero => rfl
      | succ rounds => rfl
    rw [hreads]
    exact .cons .nil
  | cons c cs ih =>
    have hc := hcs c List.mem_cons_self
    obtain ⟨rounds, rfl⟩ := Nat.exists_eq_add_one_of_ne_zero (Nat.ne_zero_of_lt hr)
    have hwithin {reads : List WalkRead}
        (h : ReadsUpTo offset (c ++ joined pathSeperator cs).length reads) :=
      ReadsUpTo.further (n := 0) h (Nat.le_trans (Nat.zero_add _).le (v.length_le_reach i c cs))
    show ReadsUpTo _ _ (v.getNodeLoopReads (rounds + 1) i (c ++ joined pathSeperator cs) offset)
    rw [getNodeLoopReads_component hc]
    refine .cons (.append ?_ ?_)
    · exact hwithin fun r hr => .inl (separatorReads_le hr)
    · split
      · next ht =>
        refine .append (hwithin (childrenReads_upTo hc hv _ _ _)) ?_
        cases hchild : NamedTree.child v.children v.nameText i c with
        | none => exact .nil
        | some d =>
          have hrest := ih (fun d hd => hcs d (List.mem_cons_of_mem c hd))
            (Nat.le_of_succ_le_succ hr) d (offset + c.length + 1)
          rw [Nat.add_assoc] at hrest
          exact hrest.further (reach_enter ht hchild cs)
      · exact .nil

/-- Where all names are found, the byte behind the terminator is read. -/
theorem getNodeLoopReads_behind (hcs : ∀ c ∈ cs, Component c) (hr : cs.length ≤ rounds)
    (i offset : Nat) (hfound : (v.descend i cs).2 = []) :
    .path (offset + (joined pathSeperator cs).length) ∈
      v.getNodeLoopReads rounds i (joined pathSeperator cs).tail offset := by
  induction cs generalizing rounds i offset with
  | nil =>
    cases rounds with
    | zero => exact List.mem_cons_self
    | succ rounds => exact List.mem_cons_self
  | cons c cs ih =>
    have hc := hcs c List.mem_cons_self
    obtain ⟨rounds, rfl⟩ := Nat.exists_eq_add_one_of_ne_zero (Nat.ne_zero_of_lt hr)
    have hchild : (v.node i).type = .dir ∧
        NamedTree.child v.children v.nameText i c ≠ none := by
      by_contra hstop
      rw [descend_stop fun ht => of_not_not fun hne => hstop ⟨ht, hne⟩] at hfound
      cases hfound
    obtain ⟨ht, hne⟩ := hchild
    obtain ⟨d, hd⟩ := Option.ne_none_iff_exists'.mp hne
    rw [descend_enter ht hd] at hfound
    have hrest := ih (fun d hd => hcs d (List.mem_cons_of_mem c hd))
      (Nat.le_of_succ_le_succ hr) d (offset + c.length + 1) hfound
    have hoffset : offset + (joined pathSeperator (c :: cs)).length =
        offset + c.length + 1 + (joined pathSeperator cs).length := by
      rw [joined_cons, List.length_cons, List.length_append]
      omega
    show _ ∈ v.getNodeLoopReads (rounds + 1) i (c ++ joined pathSeperator cs) offset
    rw [getNodeLoopReads_component hc, if_pos ht, hd, hoffset]
    exact List.mem_cons_of_mem _ (List.mem_append_right _ (List.mem_append_right _ hrest))

theorem NamesFit.step (h : v.NamesFit) (hs : v.step op = some v') : v'.NamesFit := by
  cases op with
  | mkdir path =>
    obtain ⟨⟨r, _⟩, hm, rfl⟩ := Option.map_eq_some_iff.mp hs
    rcases vfsMkdir_cases v path with hm' | ⟨parent, r, _, _, _, _, hm'⟩
    · cases hm.symm.trans hm'
      exact h
    · rw [hm'] at hm
      split at hm
      · next hlt =>
        cases hm
        have hname : strlen r.tail < vfsNodeNameNumOfChars :=
          Nat.lt_of_le_of_lt (List.takeWhile_sublist _).length_le hlt
        intro i
        rw [addDir_node]
        split
        · exact h parent
        · split
          · exact hname
          · exact h i
      · cases hm
  | mount path fs =>
    cases hs
    rcases mountFileSystem_cases v path fs with hm | ⟨i, _, _, _, hm⟩
    · rw [hm]
      exact h
    · rw [hm]
      intro j
      rw [mountAt_name]
      exact h j

theorem Built.namesFit (h : v.Built) : v.NamesFit := by
  obtain ⟨ops, hrun⟩ := h
  have hmeets : Meets Vfs.step (fun _ _ => True) initVfs ops := .of_forall fun _ _ => trivial
  have hinit : initVfs.NamesFit := fun _ =>
    (by decide : strlen [pathSeperator] < vfsNodeNameNumOfChars)
  exact run_invariant (fun _ _ _ h _ hs => h.step hs) hinit hmeets hrun

/-- All bytes that a walk reads are those it may read. -/
def StaysInside (v : Vfs) (path : CString) : Prop := ∀ r ∈ v.vfsGetNodeReads path, r.Inside path

instance (v : Vfs) (path : CString) : Decidable (v.StaysInside path) :=
  inferInstanceAs (Decidable (∀ r ∈ v.vfsGetNodeReads path, r.Inside path))

/-- A normal path whose names all are in the tree. -/
def FindsAll (v : Vfs) (path : CString) : Prop :=
  normalForm path = path.text ∧ components path.text ≠ [] ∧
    (v.descend vfsRoot (components path.text)).2 = []

instance (v : Vfs) (path : CString) : Decidable (v.FindsAll path) :=
  inferInstanceAs (Decidable (_ ∧ _ ∧ _))

theorem vfsGetNodeReads_eq (v : Vfs) (h : preprocessPath path = some t) (hne : t ≠ []) :
    ∃ offset, offset + (joined pathSeperator (components t)).tail.length = t.length ∧
      v.vfsGetNodeReads path = .path 0 :: .path 0 ::
        v.getNodeLoopReads t.length vfsRoot (joined pathSeperator (components t)).tail offset := by
  obtain ⟨-, hposition⟩ := preprocessPath_components h hne
  have h0 : t.at0 ≠ 0 := mt (CString.at0_eq_zero_iff
    fun hm => (preprocessPath_pathByte h hm).1 rfl).mp hne
  rw [vfsGetNodeReads, h]
  dsimp only
  rw [if_neg h0, ← hposition]
  by_cases hsep : t.at0 = pathSeperator
  · have ht := CString.eq_cons_of_at0 hsep (by decide)
    simp only [if_pos hsep]
    refine ⟨1, ?_, rfl⟩
    conv_rhs => rw [ht]
    rw [List.length_cons]
    omega
  · simp only [if_neg hsep]
    exact ⟨0, Nat.zero_add _, rfl⟩

theorem length_joined (hne : cs ≠ []) :
    (joined pathSeperator cs).length = (joined pathSeperator cs).tail.length + 1 := by
  cases cs with
  | nil => exact absurd rfl hne
  | cons c cs => rfl

/-- The byte behind the terminator is read exactly where all names of a normal path are found, and
then it lies outside. -/
theorem staysInside_iff (hv : v.Built) (path : CString) :
    v.StaysInside path ↔ ¬ v.FindsAll path := by
  by_cases hpath : path.at0 = 0
  · have hreads : v.vfsGetNodeReads path = [] := by
      rw [vfsGetNodeReads, preprocessPath, if_pos hpath]
    have htext : path.text = [] := CString.text_eq_nil_iff.mpr hpath
    rw [StaysInside, FindsAll, hreads, htext]
    exact ⟨fun _ hall => hall.2.1 rfl, fun _ r hr => absurd hr List.not_mem_nil⟩
  have h := preprocessPath_normalForm hpath
  have hsub := normalForm_sublist path
  have hle : (normalForm path).length ≤ strlen path := hsub.length_le
  by_cases hne : normalForm path = []
  · have hreads : v.vfsGetNodeReads path = [.path 0] := by
      rw [vfsGetNodeReads, h, hne]
      rfl
    rw [StaysInside, FindsAll, hreads, hne]
    refine ⟨fun _ hall => hall.2.1 (by rw [← hall.1]; rfl), fun _ r hr => ?_⟩
    cases List.mem_singleton.mp hr
    exact Nat.succ_pos _
  obtain ⟨offset, hoffset, hreads⟩ := v.vfsGetNodeReads_eq h hne
  have hcomponent := (preprocessPath_components h hne).1
  have hrounds := length_components_le h hne
  refine ⟨fun hstays hall => ?_, fun hnot r hr => ?_⟩
  · -- the last test of the loop is one byte behind the terminator
    obtain ⟨hnormal, hnames, hfound⟩ := hall
    rw [← hnormal] at hnames hfound
    have hlast := getNodeLoopReads_behind hcomponent hrounds vfsRoot offset hfound
    have hinside := hstays _ (by
      rw [hreads]
      exact List.mem_cons_of_mem _ (List.mem_cons_of_mem _ hlast))
    have hend : offset + (joined pathSeperator (components (normalForm path))).length <
        strlen path + 1 := hinside
    rw [length_joined hnames, strlen, ← hnormal] at hend
    omega
  · have hreach : offset + v.reach vfsRoot (components (normalForm path)) ≤ strlen path := by
      rw [reach]
      split
      · next hfound =>
        by_cases hnames : components (normalForm path) = []
        · rw [hnames] at hoffset ⊢
          exact Nat.le_trans (Nat.le_of_eq hoffset) hle
        · have hlt : (normalForm path).length ≠ strlen path := by
            intro heq
            have hnormal := hsub.eq_of_length heq
            rw [hnormal] at hnames hfound
            exact hnot ⟨hnormal, hnames, hfound⟩
          rw [length_joined hnames]
          omega
      · omega
    have hupTo := getNodeLoopReads_upTo hv.namesFit hcomponent hrounds vfsRoot offset
    rw [hreads] at hr
    rcases List.mem_cons.mp hr with rfl | hr
    · exact Nat.succ_pos _
    rcases List.mem_cons.mp hr with rfl | hr
    · exact Nat.succ_pos _
    rcases hupTo r hr with ⟨i, hi, rfl⟩ | ⟨i, hi, rfl⟩
    · show offset + i < strlen path + 1
      omega
    · exact hi

/-- `//a` is read inside the four bytes that were asked for, since its copy is shorter. -/
theorem staysInside_shortened : (initVfs.addDir vfsRoot [97]).StaysInside [47, 47, 97] :=
  (staysInside_iff ⟨[.mkdir [47, 97]], rfl⟩ _).mpr (by decide)

/-- `/a` in a tree that has it: the byte at offset 3 is read, of three that were asked for. -/
theorem reads_behind_terminator : (initVfs.addDir vfsRoot [97]).Built ∧
    .path 3 ∈ (initVfs.addDir vfsRoot [97]).vfsGetNodeReads [47, 97] ∧
    strlen [47, 97] + 1 = 3 ∧ ¬ (initVfs.addDir vfsRoot [97]).StaysInside [47, 97] :=
  ⟨⟨[.mkdir [47, 97]], rfl⟩, by decide, by decide, by decide⟩

end Vfs

end BiosKernel
