import BiosKernel.Ext2.Faults
import BiosKernel.Lib.Copy
import BiosKernel.Vfs.Tree

namespace BiosKernel
open Allocator ByteMem Checked MachineInt
set_option autoImplicit true

/-- A file system with what the heap holds behind the buffers that the driver gets from `malloc`. -/
structure MountedFs extends FilesystemData where
  behind : Mem

/-- `EXT2_ROOT_INODE`. -/
def ext2RootInode : Nat := 2

/-- `EXT2_FT_DIR`. -/
def ext2FtDir : Nat := 2

structure Ext2DirEntry where
  inode : Nat
  sizeOfEntry : Nat
  nameLength : Nat
  typeIndicator : Nat
  deriving DecidableEq

def Ext2DirEntry.read (data : Mem) (curr : Nat) : Ext2DirEntry where
  inode := load data curr 4
  sizeOfEntry := load data (curr + 4) 2
  nameLength := load data (curr + 6) 1
  typeIndicator := load data (curr + 7) 1

/-- The bytes that `malloc` clears for `size` bytes. -/
def mallocSize (size : Nat) : Nat :=
  max (heapChunkMinSizeBytes - sizeofMallocChunk) (aalign size 0x10)

def mallocBuffer (behind : Mem) (size : Nat) : Mem :=
  fun i => if i < mallocSize size then 0 else behind i

/-- The loop over the entries of a directory, none where it ends without a match. -/
def findEntryLoop (data : Mem) (inodeName : CString) (nameSize sizeRead : Nat) :
    Nat → Nat → Result (Option Ext2DirEntry)
  | 0, _ => .error .endless
  | fuel + 1, curr =>
    if curr + 1 < sizeRead then
      let entry := Ext2DirEntry.read data curr
      let compared := min entry.nameLength nameSize
      if strncmp inodeName (bytes data (curr + 8) compared) compared = 0 then .ok (some entry)
      else findEntryLoop data inodeName nameSize sizeRead fuel (curr + entry.sizeOfEntry)
    else .ok none

section Driver

variable {m : Type → Type} [Monad m] [Allocator m]

/-- The loop over the components of a path, each of which `find` looks up. Every way out frees the
copy of the path. -/
def inodeNumberLoop (find : Nat → CString → Nat → m Ext2DirEntry) (pathPreproccesed : Nat) :
    Nat → Nat → CString → m Nat
  | 0, _, _ => do
    release pathPreproccesed
    return 0
  | rounds + 1, currentInode, currentPathPosition =>
    if currentPathPosition.at0 = 0 then do
      release pathPreproccesed
      return 0
    else do
      let next := nextSeparatorPosition currentPathPosition
      let foundInode ← find currentInode currentPathPosition
        (currentPathPosition.length - next.length)
      if next.at0 = 0 then
        release pathPreproccesed
        return foundInode.inode
      else if foundInode.typeIndicator ≠ ext2FtDir then
        release pathPreproccesed
        return 0
      else inodeNumberLoop find pathPreproccesed rounds foundInode.inode next.tail

/-- `ext2_get_inode_number_at_path`, with the lookup of a name as a parameter. -/
def inodeNumberAtPath (find : Nat → CString → Nat → m Ext2DirEntry) (path : CString) : m Nat :=
  match preprocessPath path with
  | none => return 0
  | some path => do
    let pathPreproccesed ← alloc
    if path.at0 = 0 then
      release pathPreproccesed
      return 0
    else if strcmp path [pathSeperator] = 0 then
      release pathPreproccesed
      return ext2RootInode
    else
      let currentPathPosition := if path.at0 = pathSeperator then path.tail else path
      inodeNumberLoop find pathPreproccesed path.length ext2RootInode currentPathPosition

variable [MonadLiftT Result m]

/-- The number of the directory is an `int`. An entry that matches is returned before the buffer is
freed. -/
def ext2FindInodeInDirByName (fs : MountedFs) (sb : Ext2SuperBlock) (dirInodeNum : Nat)
    (inodeName : CString) (nameSize : Nat) : m Ext2DirEntry := do
  let dirInodeNum := signExtend32 (u32 dirInodeNum)
  let size ← ext2GetInodeSize fs.toFilesystemData sb dirInodeNum
  let buffer ← alloc
  let (sizeRead, data) ← ext2ReadInode fs.toFilesystemData sb dirInodeNum 0 size
    (mallocBuffer fs.behind size)
  match ← findEntryLoop data inodeName nameSize sizeRead loopBound 0 with
  | some entry => return entry
  | none =>
    release buffer
    return ⟨0, 0, 0, 0⟩

def ext2GetInodeNumberAtPath (fs : MountedFs) (sb : Ext2SuperBlock) (path : CString) : m Nat :=
  inodeNumberAtPath (ext2FindInodeInDirByName fs sb) path

end Driver

/-- The lookup of a name with its length. -/
def entryNamed (fs : MountedFs) (sb : Ext2SuperBlock) (dirInodeNum : Nat) (name : CString) :
    Result Ext2DirEntry :=
  ext2FindInodeInDirByName fs sb dirInodeNum name name.length

def listEntriesLoop (data : Mem) (sizeRead : Nat) :
    Nat → Nat → List CString → Result (List CString)
  | 0, _, _ => .error .endless
  | fuel + 1, curr, ret =>
    if curr + 1 < sizeRead then
      let entry := Ext2DirEntry.read data curr
      let str := bytes data (curr + 8) entry.nameLength
      listEntriesLoop data sizeRead fuel (curr + entry.sizeOfEntry) (str :: ret)
    else .ok ret

def ext2ListDir (fs : MountedFs) (path : CString) : Result (List CString) := do
  let sb ← ext2ReadSuperBlock fs.toFilesystemData
  let dirInodeNum ← ext2GetInodeNumberAtPath fs sb path
  if dirInodeNum = 0 then return []
  let size ← ext2GetInodeSize fs.toFilesystemData sb dirInodeNum
  let (sizeRead, data) ← ext2ReadInode fs.toFilesystemData sb dirInodeNum 0 size
    (mallocBuffer fs.behind size)
  listEntriesLoop data sizeRead loopBound 0 []

variable {fs : MountedFs} {sb : Ext2SuperBlock}

theorem safe_findEntryLoop (data : Mem) (inodeName : CString) (nameSize sizeRead fuel curr : Nat) :
    Safe (findEntryLoop data inodeName nameSize sizeRead fuel curr) := by
  induction fuel generalizing curr with
  | zero => exact safe_endless
  | succ fuel ih =>
    rw [findEntryLoop]
    split
    · dsimp only
      split
      · exact safe_ok _
      · exact ih _
    · exact safe_ok _

theorem safe_listEntriesLoop (data : Mem) (sizeRead fuel curr : Nat) (ret : List CString) :
    Safe (listEntriesLoop data sizeRead fuel curr ret) := by
  induction fuel generalizing curr ret with
  | zero => exact safe_endless
  | succ fuel ih =>
    rw [listEntriesLoop]
    split
    · exact ih _ _
    · exact safe_ok _

theorem safe_ext2GetInodeSize (h : sb.numberOfInodesPerGroup ≠ 0) (fs : FilesystemData)
    (inodeNum : Nat) : Safe (ext2GetInodeSize fs sb inodeNum) := by
  obtain ⟨inode, _, hsize⟩ := ext2GetInodeSize_ok fs h inodeNum
  rw [hsize]
  exact safe_ok _

theorem ext2FindInodeInDirByName_run (fs : MountedFs) (sb : Ext2SuperBlock) (dirInodeNum : Nat)
    (inodeName : CString) (nameSize : Nat) :
    ext2FindInodeInDirByName fs sb dirInodeNum inodeName nameSize = (do
      let size ← ext2GetInodeSize fs.toFilesystemData sb (signExtend32 (u32 dirInodeNum))
      let read ← ext2ReadInode fs.toFilesystemData sb (signExtend32 (u32 dirInodeNum)) 0 size
        (mallocBuffer fs.behind size)
      let found ← findEntryLoop read.2 inodeName nameSize read.1 loopBound 0
      return found.getD ⟨0, 0, 0, 0⟩ : Result Ext2DirEntry) := by
  refine bind_congr fun size => ?_
  rw [alloc_bind]
  refine bind_congr fun read => bind_congr fun found => ?_
  cases found with
  | none => rfl
  | some entry => rfl

theorem safe_ext2FindInodeInDirByName (h : Usable sb) (dirInodeNum : Nat) (inodeName : CString)
    (nameSize : Nat) : Safe (ext2FindInodeInDirByName fs sb dirInodeNum inodeName nameSize) := by
  rw [ext2FindInodeInDirByName_run]
  refine (safe_ext2GetInodeSize h.inodes _ _).bind fun size _ => ?_
  refine (safe_ext2ReadInode h _ _ _ _).bind fun read _ => ?_
  exact (safe_findEntryLoop _ _ _ _ _ _).bind fun found _ => safe_ok _

theorem safe_inodeNumberLoop {find : Nat → CString → Nat → Result Ext2DirEntry}
    (h : ∀ i name n, Safe (find i name n)) (pathPreproccesed rounds currentInode : Nat)
    (path : CString) : Safe (inodeNumberLoop find pathPreproccesed rounds currentInode path) := by
  induction rounds generalizing currentInode path with
  | zero => exact safe_ok _
  | succ rounds ih =>
    rw [inodeNumberLoop]
    split
    · exact safe_ok _
    · refine (h _ _ _).bind fun found _ => ?_
      split
      · exact safe_ok _
      · split
        · exact safe_ok _
        · exact ih _ _

theorem safe_ext2GetInodeNumberAtPath (h : Usable sb) (path : CString) :
    Safe (ext2GetInodeNumberAtPath fs sb path) := by
  rw [ext2GetInodeNumberAtPath, inodeNumberAtPath]
  split
  · exact safe_ok _
  · rw [alloc_bind]
    split
    · exact safe_ok _
    · split
      · exact safe_ok _
      · exact safe_inodeNumberLoop (safe_ext2FindInodeInDirByName h) _ _ _ _

theorem safe_ext2ListDir (h : Usable fs.superBlock) (path : CString) :
    Safe (ext2ListDir fs path) := by
  refine (safe_ext2GetInodeNumberAtPath h path).bind fun n _ => ?_
  split
  · exact safe_ok _
  · refine (safe_ext2GetInodeSize h.inodes _ _).bind fun size _ => ?_
    refine (safe_ext2ReadInode h _ _ _ _).bind fun read _ => ?_
    exact safe_listEntriesLoop _ _ _ _ _

/-- Every lookup in a directory reads it from its beginning. -/
theorem ext2FindInodeInDirByName_trap (h : ¬ Usable sb) (dirInodeNum : Nat)
    (inodeName : CString) (nameSize : Nat) :
    ext2FindInodeInDirByName fs sb dirInodeNum inodeName nameSize = Except.error .divideError := by
  rw [ext2FindInodeInDirByName_run]
  by_cases hi : sb.numberOfInodesPerGroup = 0
  · rw [ext2GetInodeSize, ext2ReadInodeMetadata_trap hi]
    rfl
  · obtain ⟨inode, _, hsize⟩ := ext2GetInodeSize_ok fs.toFilesystemData hi
      (signExtend32 (u32 dirInodeNum))
    rw [hsize, ok_bind, ext2ReadInode_trap h]
    rfl

theorem preprocessPath_position (s : CString) (hc : PathByte c) :
    ∃ x t, preprocessPath (c :: s) = some (x :: t) ∧ CString.at0 (x :: t) ≠ 0 ∧
      (strcmp (x :: t) [pathSeperator] = 0 ∨ strcmp (x :: t) [pathSeperator] ≠ 0 ∧
        CString.at0 (if CString.at0 (x :: t) = pathSeperator then t else x :: t) ≠ 0) := by
  obtain ⟨x, t, hpre⟩ := preprocessPath_cons (s := s) hc
  have hbyte (y : UInt8) (hy : y ∈ x :: t) : y ≠ 0 := (preprocessPath_pathByte hpre hy).1
  have h0 : CString.at0 (x :: t) ≠ 0 := hbyte x List.mem_cons_self
  refine ⟨x, t, hpre, h0, ?_⟩
  by_cases hroot : strcmp (x :: t) [pathSeperator] = 0
  · exact .inl hroot
  · refine .inr ⟨hroot, ?_⟩
    by_cases hx : CString.at0 (x :: t) = pathSeperator
    · rw [if_pos hx]
      cases t with
      | nil =>
        cases (show x = pathSeperator from hx)
        exact absurd rfl hroot
      | cons y u => exact hbyte y (List.mem_cons_of_mem _ List.mem_cons_self)
    · rwa [if_neg hx]

theorem ext2GetInodeNumberAtPath_trap (fs : MountedFs) (h : ¬ Usable sb) (hc : PathByte c) :
    ext2GetInodeNumberAtPath fs sb (c :: s) = Except.ok ext2RootInode ∨
      ext2GetInodeNumberAtPath fs sb (c :: s) = .error .divideError := by
  obtain ⟨x, t, hpre, h0, hcases⟩ := preprocessPath_position s hc
  rw [ext2GetInodeNumberAtPath, inodeNumberAtPath, hpre]
  simp only [alloc_bind]
  rw [if_neg h0]
  obtain hroot | ⟨hroot, hposition⟩ := hcases
  · rw [if_pos hroot]
    exact .inl rfl
  · rw [if_neg hroot, List.length_cons, inodeNumberLoop, List.tail_cons, if_neg hposition]
    dsimp only
    rw [ext2FindInodeInDirByName_trap h]
    exact .inr rfl

end BiosKernel
