import BiosKernel.Vfs.Queries

namespace BiosKernel
open ByteMem Checked Runs
set_option autoImplicit true

variable {fs : MountedFs}

theorem safe_ext2PathExists (h : Usable fs.superBlock) (path : CString) :
    Safe (ext2PathExists fs path) := by
  rw [ext2PathExists, ext2ReadSuperBlock_eq, ok_bind]
  refine (safe_ext2GetInodeNumberAtPath h path).bind fun n _ => ?_
  split
  · exact safe_ok _
  · obtain ⟨inode, hok⟩ := ext2ReadInodeMetadata_ok fs.toFilesystemData h.inodes n
    rw [hok]
    exact safe_ok _

theorem safe_ext2FileSize (h : Usable fs.superBlock) (path : CString) :
    Safe (ext2FileSize fs path) := by
  refine (safe_ext2GetInodeNumberAtPath h path).bind fun n _ => ?_
  split
  · exact safe_ok _
  · exact safe_ext2GetInodeSize h.inodes _ _

theorem safe_ext2FileRead (h : Usable fs.superBlock)
    (offset count : Nat) (out : Mem) (path : CString) :
    Safe (ext2FileRead offset count out fs path) := by
  refine (safe_ext2GetInodeNumberAtPath h path).bind fun n _ => ?_
  split
  · exact safe_ok _
  · exact safe_ext2ReadInode h _ _ _ _

theorem ext2FileRead_trap (h : ¬ Usable fs.superBlock) (hc : PathByte c)
    (count : Nat) (out : Mem) : ext2FileRead 0 count out fs (c :: s) = .error .divideError := by
  rw [ext2FileRead, ext2ReadSuperBlock_eq, ok_bind]
  obtain hroot | htrap := ext2GetInodeNumberAtPath_trap (s := s) fs h hc
  · rw [hroot, ok_bind, if_neg (by decide)]
    exact ext2ReadInode_trap h _ _ _
  · rw [htrap]
    rfl

namespace Vfs

/-- None of the four queries divides by zero, wherever a read starts and however long it is. -/
def NeverDivides (v : Vfs) (st : Storage) (path : CString) : Prop :=
  Safe (v.vfsPathExists st path) ∧ Safe (v.vfsGetFileSize st path) ∧
    (∀ offset count out, Safe (v.vfsRead st path offset count out)) ∧ Safe (v.vfsListDir st path)

theorem remainingPath_getD_cons {v : Vfs} (hf : (v.vfsGetNode path).foundNode = some i) :
    ∃ c s, (v.vfsGetNode path).remainingPath.getD [pathSeperator] = c :: s ∧ PathByte c := by
  cases hr : (v.vfsGetNode path).remainingPath with
  | none => exact ⟨pathSeperator, [], rfl, by decide, by decide⟩
  | some rest => exact remainingPath_cons hf hr

/-- On a mounted file system no query divides by zero exactly when the superblock has inodes in a
group and its block size is not shifted out. -/
theorem neverDivides_iff (v : Vfs) (st : Storage) (path : CString) (hv : v.Built)
    (hf : (v.vfsGetNode path).foundNode = some i) (hd : (v.node i).data = .mount m)
    (ht : m.type = .ext2) :
    v.NeverDivides st path ↔
      (st.mounted m).superBlock.numberOfInodesPerGroup ≠ 0 ∧
      (st.mounted m).superBlock.logBlockSize % 32 < 22 := by
  have hquery {α : Type} (notFound : α) (onDir : Nat → α) (other : α)
      (onExt2 : MountedFs → CString → Result α) := by
    have h := hv.typed.vfsQuery_mount st hf hd notFound onDir other onExt2
    rwa [ht] at h
  have hexists := hv.typed.vfsPathExists_mount st hf hd
  rw [ht] at hexists
  rw [NeverDivides, vfsGetFileSize, vfsListDir, hexists, hquery, hquery]
  simp only [vfsRead, hquery]
  constructor
  · rintro ⟨_, _, hread, _⟩
    have husable : Usable (st.mounted m).superBlock := by
      by_contra husable
      obtain ⟨c, s, hrest, hc⟩ := remainingPath_getD_cons hf
      have htrap := hread 0 1 fun _ => 0
      rw [hrest, ext2FileRead_trap husable hc] at htrap
      exact htrap rfl
    refine ⟨husable.inodes, ?_⟩
    have hblocks := husable.blocks
    rw [Ne, sBlockGetBlockSize_eq_zero_iff] at hblocks
    omega
  · rintro ⟨hinodes, hblocks⟩
    have husable : Usable (st.mounted m).superBlock := by
      refine ⟨hinodes, ?_⟩
      rw [Ne, sBlockGetBlockSize_eq_zero_iff]
      omega
    exact ⟨safe_ext2PathExists husable _, safe_ext2FileSize husable _,
      fun offset count out => safe_ext2FileRead husable offset count out _,
      safe_ext2ListDir husable _⟩

/-- A disk with a superblock that has the magic number and eight inodes in a group. -/
def goodStorage : Storage where
  disk _ x := if x = 1064 then 8 else if x = 1080 then 0x53 else if x = 1081 then 0xEF else 0
  behind _ := 0

theorem neverDivides_goodStorage : rootMounted.NeverDivides goodStorage [pathSeperator] := by
  refine (neverDivides_iff (i := vfsRoot) rootMounted goodStorage [pathSeperator] rootMounted_built
    (by decide +kernel) (m := rootMount) rfl rfl).mpr ?_
  decide +kernel

/-- An empty disk has no valid superblock, and the very question whether the mount point exists
traps. -/
theorem emptyDisk_traps : rootMounted.Built ∧
    rootMounted.vfsPathExists ⟨fun _ _ => 0, fun _ => 0⟩ [pathSeperator] =
      .error .divideError := by
  exact ⟨rootMounted_built, by decide +kernel⟩

end Vfs

end BiosKernel
