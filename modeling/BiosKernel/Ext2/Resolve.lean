import BiosKernel.Ext2.Directory
import BiosKernel.Lib.Traced
import BiosKernel.Vfs.Components

namespace BiosKernel
open Allocator ByteMem Checked Segments Traced
set_option autoImplicit true

/-- One name further, none once a name has led to something else than a directory. -/
def enterDir (fs : MountedFs) (sb : Ext2SuperBlock) : Option Nat → CString → Result (Option Nat)
  | none, _ => .ok none
  | some dirInodeNum, name => do
    let entry ← entryNamed fs sb dirInodeNum name
    return if entry.typeIndicator = ext2FtDir then some entry.inode else none

/-- The inode of the last name in the directory that the others lead to, 0 where they do not lead
to one. -/
def inodeBelow (fs : MountedFs) (sb : Ext2SuperBlock) (dirInodeNum : Nat)
    (names : List CString) (last : CString) : Result Nat := do
  match ← names.foldlM (enterDir fs sb) (some dirInodeNum) with
  | none => return 0
  | some parent => return (← entryNamed fs sb parent last).inode

/-- A lookup that notes the name and the length that it is given. -/
def notedFind (fs : MountedFs) (sb : Ext2SuperBlock) (dirInodeNum : Nat) (inodeName : CString)
    (nameSize : Nat) : Traced (CString × Nat) Fault Ext2DirEntry := do
  emit (inodeName, nameSize)
  silent (ext2FindInodeInDirByName fs sb dirInodeNum inodeName nameSize)

/-- The names and lengths that `ext2_get_inode_number_at_path` gives to
`ext2_find_inode_in_dir_by_name`. -/
def pathLookupCalls (fs : MountedFs) (sb : Ext2SuperBlock) (path : CString) :
    List (CString × Nat) :=
  (inodeNumberAtPath (notedFind fs sb) path).events

/-- The inode that the names of a path lead to from the root, 0 for a path without any. -/
def inodeAtPath (fs : MountedFs) (sb : Ext2SuperBlock) (path : CString) : Result Nat :=
  match preprocessPath path with
  | none => .ok 0
  | some path =>
    if path = [pathSeperator] then .ok ext2RootInode
    else match (components path).getLast? with
      | none => .ok 0
      | some last => inodeBelow fs sb ext2RootInode (components path).dropLast last

variable {fs : MountedFs} {sb : Ext2SuperBlock}

theorem findEntryLoop_congr (h : name.take nameSize = name'.take nameSize) (data : Mem)
    (sizeRead fuel curr : Nat) : findEntryLoop data name nameSize sizeRead fuel curr =
      findEntryLoop data name' nameSize sizeRead fuel curr := by
  have hcmp (entry : CString) (n : Nat) (hn : n ≤ nameSize) :
      strncmp name entry n = 0 ↔ strncmp name' entry n = 0 := by
    refine strncmp_congr ?_ rfl
    have htake := congrArg (List.take n) h
    rwa [List.take_take, List.take_take, Nat.min_eq_left hn] at htake
  induction fuel generalizing curr with
  | zero => rfl
  | succ fuel ih =>
    rw [findEntryLoop, findEntryLoop]
    simp only [hcmp _ _ (Nat.min_le_right _ _), ih]

theorem ext2FindInodeInDirByName_component (c s : CString) (dirInodeNum : Nat) :
    ext2FindInodeInDirByName fs sb dirInodeNum (c ++ s) c.length =
      entryNamed fs sb dirInodeNum c := by
  have htake : (c ++ s).take c.length = c.take c.length := by
    rw [List.take_left, List.take_length]
  rw [entryNamed, ext2FindInodeInDirByName, ext2FindInodeInDirByName]
  simp only [findEntryLoop_congr htake]

theorem inodeNumberLoop_component {m : Type → Type} [Monad m] [Allocator m]
    (find : Nat → CString → Nat → m Ext2DirEntry) (hc : Component c) (cs : List CString)
    (pathPreproccesed rounds i : Nat) :
    inodeNumberLoop find pathPreproccesed (rounds + 1) i (joined pathSeperator (c :: cs)).tail =
      (do
        let entry ← find i (c ++ joined pathSeperator cs) c.length
        if cs = [] then
          release pathPreproccesed
          return entry.inode
        else if entry.typeIndicator ≠ ext2FtDir then
          release pathPreproccesed
          return 0
        else
          inodeNumberLoop find pathPreproccesed rounds entry.inode
            (joined pathSeperator cs).tail) := by
  obtain ⟨h0, hnext⟩ := position_component hc cs
  rw [joined_cons, List.tail_cons, inodeNumberLoop, if_neg h0]
  simp only [nextSeparatorPosition_component hc, List.length_append, Nat.add_sub_cancel, hnext]

/-- The calls are noted on the way to the same result. -/
theorem inodeNumberLoop_notedFind (p rounds i : Nat) (path : CString) :
    (inodeNumberLoop (notedFind fs sb) p rounds i path).result =
      inodeNumberLoop (ext2FindInodeInDirByName fs sb) p rounds i path := by
  induction rounds generalizing i path with
  | zero => rfl
  | succ rounds ih =>
    rw [inodeNumberLoop, inodeNumberLoop]
    split
    · rfl
    · rw [bind_result]
      refine bind_congr fun entry => ?_
      split
      · rfl
      · split
        · rfl
        · exact ih _ _

theorem inodeNumberAtPath_notedFind (fs : MountedFs) (sb : Ext2SuperBlock) (path : CString) :
    (inodeNumberAtPath (notedFind fs sb) path).result = ext2GetInodeNumberAtPath fs sb path := by
  rw [ext2GetInodeNumberAtPath, inodeNumberAtPath, inodeNumberAtPath]
  split
  · rfl
  · rw [bind_result]
    refine bind_congr fun p => ?_
    split
    · rfl
    · split
      · rfl
      · exact inodeNumberLoop_notedFind _ _ _ _

theorem foldlM_enterDir_none (names : List CString) :
    names.foldlM (enterDir fs sb) none = .ok none := by
  induction names with
  | nil => rfl
  | cons c names ih => exact ih

/-- The loop is the fold of the lookups. -/
theorem inodeNumberLoop_eq (hnames : ∀ c ∈ names ++ [last], Component c)
    (hr : names.length < rounds) (p i : Nat) :
    inodeNumberLoop (ext2FindInodeInDirByName fs sb) p rounds i
      (joined pathSeperator (names ++ [last])).tail = inodeBelow fs sb i names last := by
  obtain ⟨rounds, rfl⟩ := Nat.exists_eq_add_one_of_ne_zero (Nat.ne_zero_of_lt hr)
  induction names generalizing i rounds with
  | nil =>
    rw [List.nil_append, inodeNumberLoop_component _ (hnames last (by simp)),
      ext2FindInodeInDirByName_component, inodeBelow]
    rfl
  | cons c names ih =>
    rw [List.cons_append, inodeNumberLoop_component _ (hnames c (by simp)),
      ext2FindInodeInDirByName_component, inodeBelow, List.foldlM_cons, enterDir]
    cases hentry : entryNamed fs sb i c with
    | error e => rfl
    | ok entry =>
      rw [ok_bind, if_neg (by simp)]
      by_cases hdir : entry.typeIndicator = ext2FtDir
      · rw [if_neg (not_not_intro hdir)]
        obtain ⟨rounds, rfl⟩ := Nat.exists_eq_add_one_of_ne_zero
          (Nat.ne_zero_of_lt (Nat.lt_of_succ_lt_succ hr))
        rw [ih (fun d hd => hnames d (List.mem_cons_of_mem c hd)) _ rounds
          (Nat.lt_of_succ_lt_succ hr), inodeBelow, ok_bind, if_pos hdir]
        rfl
      · rw [if_pos hdir, ok_bind, if_neg hdir]
        simp only [pure_bind, foldlM_enterDir_none]
        rfl

theorem inodeNumberLoop_components (hcs : ∀ c ∈ cs, Component c) (hr : cs.length ≤ rounds)
    (p i : Nat) :
    inodeNumberLoop (ext2FindInodeInDirByName fs sb) p rounds i (joined pathSeperator cs).tail =
      match cs.getLast? with
      | none => .ok 0
      | some last => inodeBelow fs sb i cs.dropLast last := by
  rcases List.eq_nil_or_concat cs with rfl | ⟨names, last, rfl⟩
  · cases rounds with
    | zero => rfl
    | succ rounds => rfl
  · rw [List.concat_eq_append] at hcs hr ⊢
    rw [List.getLast?_concat, List.dropLast_concat]
    rw [List.length_append, List.length_singleton] at hr
    exact inodeNumberLoop_eq hcs hr p i

theorem inodeNumberLoop_calls (hcs : ∀ c ∈ cs, Component c) (p rounds i : Nat) :
    (inodeNumberLoop (notedFind fs sb) p rounds i (joined pathSeperator cs).tail).events.map
      (fun call => (call.1.take call.2, call.2)) <+: cs.map fun c => (c, c.length) := by
  induction cs generalizing rounds i with
  | nil =>
    cases rounds with
    | zero => exact List.nil_prefix
    | succ rounds => exact List.nil_prefix
  | cons c cs ih =>
    cases rounds with
    | zero => exact List.nil_prefix
    | succ rounds =>
      rw [inodeNumberLoop_component _ (hcs c List.mem_cons_self), notedFind, emit_silent_events,
        List.map_cons, List.map_cons, List.take_left, List.prefix_cons_inj]
      split
      · split
        · exact List.nil_prefix
        · split
          · exact List.nil_prefix
          · exact ih (fun d hd => hcs d (List.mem_cons_of_mem c hd)) _ _
      · exact List.nil_prefix

theorem ext2GetInodeNumberAtPath_eq (fs : MountedFs) (sb : Ext2SuperBlock) (path : CString) :
    ext2GetInodeNumberAtPath fs sb path = inodeAtPath fs sb path ∧
      (pathLookupCalls fs sb path).map (fun call => (call.1.take call.2, call.2)) <+:
        ((preprocessPath path).elim [] components).map fun c => (c, c.length) := by
  rw [ext2GetInodeNumberAtPath, inodeAtPath, pathLookupCalls, inodeNumberAtPath, inodeNumberAtPath]
  cases hpre : preprocessPath path with
  | none => exact ⟨rfl, List.nil_prefix⟩
  | some t =>
    simp only [alloc_bind, alloc_events]
    have hnul : 0 ∉ t := fun h => (preprocessPath_pathByte hpre h).1 rfl
    by_cases hne : t = []
    · subst hne
      exact ⟨rfl, List.nil_prefix⟩
    · obtain ⟨hcomponent, hposition⟩ := preprocessPath_components hpre hne
      have h0 := mt (CString.at0_eq_zero_iff hnul).mp hne
      have hroot := strcmp_eq_zero_iff hnul (b := [pathSeperator]) (by decide)
      rw [if_neg h0, if_neg h0, hposition]
      simp only [hroot]
      split
      · exact ⟨rfl, List.nil_prefix⟩
      · refine ⟨?_, inodeNumberLoop_calls hcomponent _ _ _⟩
        exact inodeNumberLoop_components hcomponent (length_components_le hpre hne) _ ext2RootInode

end BiosKernel
