import BiosKernel.Ext2.Directory
import BiosKernel.Lib.Ledger

/-! What the read path leaves in the heap: its functions with a ledger, which return what they
return without one. -/

namespace BiosKernel
open Accounted Allocator ByteMem Checked MachineInt
set_option autoImplicit true

section Erasure

theorem erases_readDisk (fs : FilesystemData) (offset : Nat) :
    Erases (fs.readDisk offset) (fs.readDisk offset) :=
  .alloc_bind fun p q => (Erases.release p q).bind fun _ => .pure _

theorem erases_ext2ReadSuperBlock (fs : FilesystemData) :
    Erases (ext2ReadSuperBlock fs) (ext2ReadSuperBlock fs) :=
  (erases_readDisk fs _).bind fun _ => .pure _

theorem erases_ext2ReadInodeMetadata (fs : FilesystemData) (sb : Ext2SuperBlock) (inodeNum : Nat) :
    Erases (ext2ReadInodeMetadata fs sb inodeNum) (ext2ReadInodeMetadata fs sb inodeNum) := by
  refine (Erases.lift _).bind fun blockGroupNum => ?_
  refine ((erases_readDisk fs _).bind fun _ => .pure _).bind fun startBlock => ?_
  refine (Erases.lift _).bind fun inodeTableIndex => .alloc_bind fun _ _ => ?_
  exact (erases_readDisk fs _).bind fun _ => .pure _

theorem erases_ext2GetInodeSize (fs : FilesystemData) (sb : Ext2SuperBlock) (inodeNum : Nat) :
    Erases (ext2GetInodeSize fs sb inodeNum) (ext2GetInodeSize fs sb inodeNum) :=
  (erases_ext2ReadInodeMetadata fs sb inodeNum).bind fun _ => .pure _

theorem erases_getIndirectBlockEntry (fs : FilesystemData)
    (indirectBlockNum blockSize index : Nat) :
    Erases (getIndirectBlockEntry fs indirectBlockNum blockSize index)
      (getIndirectBlockEntry fs indirectBlockNum blockSize index) := by
  refine .ite (fun _ => .pure 0) fun _ => .alloc_bind fun p q => ?_
  exact (erases_readDisk fs _).bind fun _ => (Erases.release p q).bind fun _ => .pure _

theorem erases_nthBlockOffset (fs : FilesystemData) (blockSize : Nat) (inode : Mem)
    (blockIndex : Nat) : Erases (nthBlockOffset fs blockSize inode blockIndex)
      (nthBlockOffset fs blockSize inode blockIndex) := by
  have hentry := erases_getIndirectBlockEntry fs
  refine .ite (fun _ => .pure _) fun _ => ?_
  refine .ite (fun _ => (hentry _ _ _).bind fun _ => .pure _) fun _ => ?_
  refine .ite (fun _ => ?_) fun _ => ?_
  · refine (Erases.lift _).bind fun outerIndex => (Erases.lift _).bind fun innerIndex => ?_
    exact (hentry _ _ _).bind fun _ => (hentry _ _ _).bind fun _ => .pure _
  refine .ite (fun _ => ?_) fun _ => .pure _
  refine (Erases.lift _).bind fun outerIndex => (Erases.lift _).bind fun remainder => ?_
  refine (hentry _ _ _).bind fun doubleBlockNum => ?_
  refine (Erases.lift _).bind fun outerIndex2 => (Erases.lift _).bind fun innerIndex2 => ?_
  exact (hentry _ _ _).bind fun _ => (hentry _ _ _).bind fun _ => .pure _

theorem erases_readInodeLoop (fs : FilesystemData) (sb : Ext2SuperBlock)
    (inodeNum offsetBytes endOffset fuel curr : Nat) (out : Mem) :
    Erases (readInodeLoop fs sb inodeNum offsetBytes endOffset fuel curr out)
      (readInodeLoop fs sb inodeNum offsetBytes endOffset fuel curr out) := by
  induction fuel generalizing curr out with
  | zero => exact .lift _
  | succ fuel ih =>
    rw [readInodeLoop, readInodeLoop]
    refine .ite (fun _ => ?_) fun _ => .pure _
    refine (Erases.lift _).bind fun blockIndex => ?_
    refine Erases.bind ?_ fun blockStart => ?_
    · refine (erases_ext2ReadInodeMetadata fs sb inodeNum).bind fun inode => ?_
      exact erases_nthBlockOffset fs _ inode blockIndex
    · refine (Erases.lift _).bind fun inBlock => ?_
      exact (erases_readDisk fs _).bind fun _ => ih _ _

theorem erases_ext2ReadInode (fs : FilesystemData) (sb : Ext2SuperBlock)
    (inodeNum offsetBytes countBytes : Nat) (out : Mem) :
    Erases (ext2ReadInode fs sb inodeNum offsetBytes countBytes out)
      (ext2ReadInode fs sb inodeNum offsetBytes countBytes out) :=
  (erases_ext2GetInodeSize fs sb inodeNum).bind fun _ => erases_readInodeLoop _ _ _ _ _ _ _ _

theorem erases_ext2FindInodeInDirByName (fs : MountedFs) (sb : Ext2SuperBlock) (dirInodeNum : Nat)
    (inodeName : CString) (nameSize : Nat) :
    Erases (ext2FindInodeInDirByName fs sb dirInodeNum inodeName nameSize)
      (ext2FindInodeInDirByName fs sb dirInodeNum inodeName nameSize) := by
  refine (erases_ext2GetInodeSize _ sb _).bind fun size => .alloc_bind fun p q => ?_
  refine (erases_ext2ReadInode _ sb _ _ _ _).bind fun read => ?_
  refine (Erases.lift _).bind fun found => ?_
  cases found with
  | some entry => exact .pure _
  | none => exact (Erases.release p q).bind fun _ => .pure _

theorem erases_leave (p q a : Nat) :
    Erases (do release p; return a : Accounted Nat) (do release q; return a) :=
  (Erases.release p q).bind fun _ => .pure _

theorem erases_inodeNumberLoop (fs : MountedFs) (sb : Ext2SuperBlock)
    (p q rounds currentInode : Nat) (currentPathPosition : CString) :
    Erases (inodeNumberLoop (ext2FindInodeInDirByName fs sb) p rounds currentInode
        currentPathPosition)
      (inodeNumberLoop (ext2FindInodeInDirByName fs sb) q rounds currentInode
        currentPathPosition) := by
  induction rounds generalizing currentInode currentPathPosition with
  | zero => exact erases_leave p q _
  | succ rounds ih =>
    refine .ite (fun _ => erases_leave p q _) fun _ => ?_
    refine (erases_ext2FindInodeInDirByName fs sb _ _ _).bind fun foundInode => ?_
    refine .ite (fun _ => erases_leave p q _) fun _ => ?_
    exact .ite (fun _ => erases_leave p q _) fun _ => ih _ _

theorem erases_ext2GetInodeNumberAtPath (fs : MountedFs) (sb : Ext2SuperBlock) (path : CString) :
    Erases (ext2GetInodeNumberAtPath fs sb path) (ext2GetInodeNumberAtPath fs sb path) := by
  rw [ext2GetInodeNumberAtPath, ext2GetInodeNumberAtPath, inodeNumberAtPath, inodeNumberAtPath]
  cases preprocessPath path with
  | none => exact .pure _
  | some path =>
    refine .alloc_bind fun p q => ?_
    refine .ite (fun _ => erases_leave p q _) fun _ => ?_
    refine .ite (fun _ => erases_leave p q _) fun _ => ?_
    exact erases_inodeNumberLoop fs sb p q _ _ _

end Erasure

section Gains

theorem gains_readDisk (fs : FilesystemData) (offset : Nat) : Gains 0 (fs.readDisk offset) :=
  Gains.alloc.bind fun p => (Gains.release p).andThen fun _ => .pure _

theorem gains_ext2ReadSuperBlock (fs : FilesystemData) : Gains 0 (ext2ReadSuperBlock fs) :=
  (gains_readDisk fs _).before fun _ => .pure _

/-- The inode stays. -/
theorem gains_ext2ReadInodeMetadata (fs : FilesystemData) (sb : Ext2SuperBlock) (inodeNum : Nat) :
    Gains 1 (ext2ReadInodeMetadata fs sb inodeNum) := by
  refine (Gains.lift _).before fun blockGroupNum => ?_
  refine Gains.before ((gains_readDisk fs _).before fun _ => .pure _) fun startBlock => ?_
  refine (Gains.lift _).before fun inodeTableIndex => ?_
  exact Gains.alloc.andThen fun _ => (gains_readDisk fs _).before fun _ => .pure _

theorem gains_ext2GetInodeSize (fs : FilesystemData) (sb : Ext2SuperBlock) (inodeNum : Nat) :
    Gains 1 (ext2GetInodeSize fs sb inodeNum) :=
  (gains_ext2ReadInodeMetadata fs sb inodeNum).andThen fun _ => .pure _

theorem gains_getIndirectBlockEntry (fs : FilesystemData) (indirectBlockNum blockSize index : Nat) :
    Gains 0 (getIndirectBlockEntry fs indirectBlockNum blockSize index) := by
  refine .ite (fun _ => .pure _) fun _ => ?_
  refine Gains.alloc.bind (k := -1) fun blockTable => ?_
  refine (gains_readDisk fs _).before fun _ => ?_
  exact (Gains.release blockTable).andThen fun _ => .pure _

theorem gains_nthBlockOffset (fs : FilesystemData) (blockSize : Nat) (inode : Mem)
    (blockIndex : Nat) : Gains 0 (nthBlockOffset fs blockSize inode blockIndex) := by
  have hentry {f : Nat → Accounted Nat} (hf : ∀ n, Gains 0 (f n)) (blockNum index : Nat) :
      Gains 0 (getIndirectBlockEntry fs blockNum blockSize index >>= f) :=
    (gains_getIndirectBlockEntry fs blockNum blockSize index).before hf
  refine .ite (fun _ => .pure _) fun _ => ?_
  refine .ite (fun _ => hentry (fun _ => .pure _) _ _) fun _ => ?_
  refine .ite (fun _ => ?_) fun _ => ?_
  · refine (Gains.lift _).before fun outerIndex => (Gains.lift _).before fun innerIndex => ?_
    exact hentry (fun _ => hentry (fun _ => .pure _) _ _) _ _
  refine .ite (fun _ => ?_) fun _ => .pure _
  refine (Gains.lift _).before fun outerIndex => (Gains.lift _).before fun remainder => ?_
  refine hentry (fun doubleBlockNum => ?_) _ _
  refine (Gains.lift _).before fun outerIndex2 => (Gains.lift _).before fun innerIndex2 => ?_
  exact hentry (fun _ => hentry (fun _ => .pure _) _ _) _ _

/-- Another inode stays in every round. -/
theorem gains_readInodeLoop (fs : FilesystemData) (sb : Ext2SuperBlock)
    (inodeNum offsetBytes endOffset fuel curr : Nat) (out : Mem) :
    Gains 0 (readInodeLoop fs sb inodeNum offsetBytes endOffset fuel curr out) := by
  induction fuel generalizing curr out with
  | zero => exact .error _
  | succ fuel ih =>
    rw [readInodeLoop]
    refine .ite (fun _ => ?_) fun _ => .pure _
    refine (Gains.lift _).before fun blockIndex => ?_
    refine Gains.before ?_ fun blockStart => ?_
    · refine Gains.mono (k := 1) ?_ (by decide)
      refine (gains_ext2ReadInodeMetadata fs sb inodeNum).andThen fun inode => ?_
      exact gains_nthBlockOffset fs _ inode blockIndex
    · exact (Gains.lift _).before fun inBlock => (gains_readDisk fs _).before fun _ => ih _ _

theorem gains_ext2ReadInode (fs : FilesystemData) (sb : Ext2SuperBlock)
    (inodeNum offsetBytes countBytes : Nat) (out : Mem) :
    Gains 1 (ext2ReadInode fs sb inodeNum offsetBytes countBytes out) :=
  (gains_ext2GetInodeSize fs sb inodeNum).andThen fun _ => gains_readInodeLoop _ _ _ _ _ _ _ _

theorem gains_leave (p : Nat) (a : α) : Gains (-1) (do release p; return a : Accounted α) :=
  (Gains.release p).andThen fun _ => .pure a

/-- Two inodes stay even where the buffer is freed. -/
theorem gains_ext2FindInodeInDirByName (fs : MountedFs) (sb : Ext2SuperBlock) (dirInodeNum : Nat)
    (inodeName : CString) (nameSize : Nat) :
    Gains 2 (ext2FindInodeInDirByName fs sb dirInodeNum inodeName nameSize) := by
  refine (gains_ext2GetInodeSize _ sb _).bind (k := 1) fun size => ?_
  refine Gains.alloc.andThen fun buffer => ?_
  refine (gains_ext2ReadInode _ sb _ _ _ _).bind (k := -1) fun read => ?_
  refine (Gains.lift _).before fun found => ?_
  cases found with
  | some entry => exact (Gains.pure _).mono (by decide)
  | none => exact gains_leave buffer _

variable (fs : MountedFs) (sb : Ext2SuperBlock) (pathPreproccesed : Nat)

theorem gains_inodeNumberLoop (rounds currentInode : Nat) (currentPathPosition : CString) :
    Gains (-1) (inodeNumberLoop (ext2FindInodeInDirByName fs sb) pathPreproccesed rounds
      currentInode currentPathPosition) := by
  induction rounds generalizing currentInode currentPathPosition with
  | zero => exact gains_leave _ _
  | succ rounds ih =>
    refine .ite (fun _ => gains_leave _ _) fun _ => ?_
    refine (Gains.mono (gains_ext2FindInodeInDirByName fs sb _ _ _) (by decide)).before
      fun foundInode => ?_
    refine .ite (fun _ => gains_leave _ _) fun _ => ?_
    exact .ite (fun _ => gains_leave _ _) fun _ => ih _ _

theorem gains_inodeNumberLoop_succ {currentPathPosition : CString}
    (h0 : currentPathPosition.at0 ≠ 0) (rounds currentInode : Nat) :
    Gains 1 (inodeNumberLoop (ext2FindInodeInDirByName fs sb) pathPreproccesed (rounds + 1)
      currentInode currentPathPosition) := by
  refine .ite (fun h => absurd h h0) fun _ => ?_
  refine (gains_ext2FindInodeInDirByName fs sb _ _ _).bind (k := -1) fun foundInode => ?_
  refine .ite (fun _ => gains_leave _ _) fun _ => ?_
  exact .ite (fun _ => gains_leave _ _) fun _ => gains_inodeNumberLoop fs sb _ _ _ _

omit pathPreproccesed in
/-- A path that is not found has been looked for. -/
theorem always_ext2GetInodeNumberAtPath (hc : PathByte c) :
    Always (ext2GetInodeNumberAtPath fs sb (c :: s)) fun inodeNum n =>
      0 ≤ n ∧ (inodeNum = 0 → 1 ≤ n) := by
  obtain ⟨x, t, hpre, h0, hcases⟩ := preprocessPath_position s hc
  rw [ext2GetInodeNumberAtPath, inodeNumberAtPath, hpre]
  simp only [if_neg h0]
  obtain hroot | ⟨hroot, hposition⟩ := hcases
  · simp only [if_pos hroot]
    rintro l _ _ ⟨⟩
    rw [Ledger.net_eq, Ledger.alloc_release_live, Int.sub_self]
    exact ⟨Int.le_refl 0, fun h => absurd h (by decide)⟩
  · simp only [if_neg hroot]
    have hgains := Gains.alloc.bind fun pathPreproccesed =>
      gains_inodeNumberLoop_succ fs sb pathPreproccesed hposition t.length ext2RootInode
    exact Always.mono hgains fun _ n hn => ⟨by omega, fun _ => by omega⟩

end Gains

end BiosKernel
