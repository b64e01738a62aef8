import BiosKernel.Ext2.Directory
import BiosKernel.Vfs.Invariant

namespace BiosKernel
open Allocator ByteMem Checked Runs
set_option autoImplicit true

/-- The disks by their numbers, and what the heap holds behind the buffers of the driver. -/
structure Storage where
  disk : Nat → Nat → UInt8
  behind : Mem

def Storage.mounted (st : Storage) (fs : MountData) : MountedFs where
  startOffset := fs.startOffset
  disk := st.disk fs.diskNumber
  behind := st.behind

/-- `EXT2_S_IFMT`. -/
def ext2SIfmt : Nat := 0xF000

/-- `EXT2_S_IFDIR`. -/
def ext2SIfdir : Nat := 0x4000

/-- `EXT2_S_IFREG`. -/
def ext2SIfreg : Nat := 0x8000

def iMode (inode : Mem) : Nat := load inode 0 2

/-- The `size_t` that is -1 as an `int64_t`. -/
def minusOne : Nat := 2 ^ 64 - 1

/-- What `vfs_path_exists` says about an inode. -/
def existsValue (inode : Mem) : Int :=
  if iMode inode &&& ext2SIfmt = ext2SIfdir then 1
  else if iMode inode &&& ext2SIfmt = ext2SIfreg then 2
  else -1

section Driver

variable {m : Type → Type} [Monad m] [Allocator m] [MonadLiftT Result m]

/-- What the ext2 case of `vfs_path_exists` returns for the rest of a path. The inode is not freed
here either. -/
def ext2PathExists (fs : MountedFs) (remainingPath : CString) : m Int := do
  let sb ← ext2ReadSuperBlock fs.toFilesystemData
  let inodeNum ← ext2GetInodeNumberAtPath fs sb remainingPath
  if inodeNum = 0 then return 0
  let inode ← ext2ReadInodeMetadata fs.toFilesystemData sb inodeNum
  return existsValue inode

def ext2FileRead (offsetBytes countBytes : Nat) (out : Mem) (fs : MountedFs)
    (remainingPath : CString) : m (Nat × Mem) := do
  let sb ← ext2ReadSuperBlock fs.toFilesystemData
  let inodeNum ← ext2GetInodeNumberAtPath fs sb remainingPath
  if inodeNum = 0 then return (minusOne, out)
  ext2ReadInode fs.toFilesystemData sb inodeNum offsetBytes countBytes out

def ext2FileSize (fs : MountedFs) (remainingPath : CString) : m Nat := do
  let sb ← ext2ReadSuperBlock fs.toFilesystemData
  let inodeNum ← ext2GetInodeNumberAtPath fs sb remainingPath
  if inodeNum = 0 then return minusOne
  ext2GetInodeSize fs.toFilesystemData sb inodeNum

/-- What `vfs_list_dir`, `vfs_read` and `vfs_get_file_size` have in common: what they do with the
answer of `vfs_get_node`. -/
def Vfs.queryNode (v : Vfs) (st : Storage) (notFound : α) (onDir : Nat → α) (other : α)
    (onExt2 : MountedFs → CString → m α) (ret : VfsGetNodeReturn) : m α :=
  match ret.foundNode with
  | none => return notFound
  | some found =>
    match (v.node found).type, (v.node found).data with
    | .dir, _ => return onDir found
    | .fileSystem, .mount fs =>
      if ret.status ≠ .continuesInFileSystem ∧ ret.status ≠ .ok then return other
      else
        match fs.type with
        | .ext2 => onExt2 (st.mounted fs) (ret.remainingPath.getD [pathSeperator])
        | .unknown => return other
    | _, _ => return other

/-- What `vfs_path_exists` does with it. -/
def Vfs.existsNode (v : Vfs) (st : Storage) (ret : VfsGetNodeReturn) : m Int :=
  match ret.foundNode with
  | none => return 0
  | some found =>
    match (v.node found).type, (v.node found).data with
    | .dir, _ => return if ret.status = .ok ∧ ret.remainingPath = none then 1 else 0
    | .fileSystem, .mount fs =>
      match fs.type with
      | .ext2 => ext2PathExists (st.mounted fs) (ret.remainingPath.getD [pathSeperator])
      | .unknown => return 0
    | _, _ => return if ret.status = .ok then 2 else 0

end Driver

variable {fs : MountedFs} {path : CString}

section Lookup

variable (hn : ext2GetInodeNumberAtPath fs fs.superBlock path = Except.ok n)
  (h0 : n ≠ 0)
include hn h0

theorem ext2FileSize_of_lookup : ext2FileSize fs path =
    ext2GetInodeSize fs.toFilesystemData fs.superBlock n := by
  rw [ext2FileSize, ext2ReadSuperBlock_eq, ok_bind, hn, ok_bind, if_neg h0]

theorem ext2FileRead_of_lookup (offset count : Nat) (out : Mem) :
    ext2FileRead offset count out fs path = ext2ReadInode fs.toFilesystemData
      fs.superBlock n offset count out := by
  rw [ext2FileRead, ext2ReadSuperBlock_eq, ok_bind, hn, ok_bind, if_neg h0]

theorem ext2PathExists_of_lookup : ext2PathExists fs path =
    (ext2ReadInodeMetadata fs.toFilesystemData fs.superBlock n : Result Mem).map existsValue := by
  rw [ext2PathExists, ext2ReadSuperBlock_eq, ok_bind, hn, ok_bind, if_neg h0]
  cases ext2ReadInodeMetadata fs.toFilesystemData fs.superBlock n with
  | error e => rfl
  | ok inode => rfl

end Lookup

namespace Vfs

def vfsQuery (v : Vfs) (st : Storage) (path : CString) (notFound : α) (onDir : Nat → α) (other : α)
    (onExt2 : MountedFs → CString → Result α) : Result α :=
  v.queryNode st notFound onDir other onExt2 (v.vfsGetNode path)

/-- The names of the children, each put before those that came earlier. -/
def vfsListDir (v : Vfs) (st : Storage) (path : CString) : Result (List CString) :=
  v.vfsQuery st path [] (fun found => ((v.children found).map fun c => (v.node c).name).reverse) []
    ext2ListDir

def vfsRead (v : Vfs) (st : Storage) (path : CString) (offsetBytes countBytes : Nat) (out : Mem) :
    Result (Nat × Mem) :=
  v.vfsQuery st path (minusOne, out) (fun _ => (0, out)) (0, out)
    (ext2FileRead offsetBytes countBytes out)

def vfsGetFileSize (v : Vfs) (st : Storage) (path : CString) : Result Nat :=
  v.vfsQuery st path minusOne (fun _ => 0) 0 ext2FileSize

def vfsPathExists (v : Vfs) (st : Storage) (path : CString) : Result Int :=
  v.existsNode st (v.vfsGetNode path)

/-- The tree has been made by calls of `vfs_mkdir` and `mount_file_system`. -/
def Built (v : Vfs) : Prop := ∃ ops, run Vfs.step initVfs ops = some v

variable {v : Vfs} {st : Storage}

theorem Built.typed (h : v.Built) : v.Typed := by
  obtain ⟨ops, hrun⟩ := h
  have hmeets : Meets Vfs.step (fun _ _ => True) initVfs ops := .of_forall fun _ _ => trivial
  exact run_invariant (fun _ _ _ h _ hs => h.step hs) invariant_initVfs.toTyped hmeets hrun

/-- A file system on the root. -/
def rootMount : MountData := ⟨0, 1024, .ext2⟩

def rootMounted : Vfs := initVfs.mountAt vfsRoot rootMount

theorem rootMounted_built : rootMounted.Built := ⟨[.mount [pathSeperator] rootMount], rfl⟩

section Mounted

variable (hv : v.Typed) (st : Storage) (hf : (v.vfsGetNode path).foundNode = some i)
  (hd : (v.node i).data = .mount m)
include hv hf hd

theorem Typed.mount_type : (v.node i).type = .fileSystem := by
  obtain ⟨_, l, hl⟩ | ⟨ht, _⟩ := hv.data i (hv.found_lt hf)
  · rw [hl] at hd
    cases hd
  · exact ht

theorem Typed.vfsQuery_mount (notFound : α) (onDir : Nat → α) (other : α)
    (onExt2 : MountedFs → CString → Result α) :
    v.vfsQuery st path notFound onDir other onExt2 =
      match m.type with
      | .ext2 => onExt2 (st.mounted m) ((v.vfsGetNode path).remainingPath.getD [pathSeperator])
      | .unknown => .ok other := by
  have hstatus : ¬ ((v.vfsGetNode path).status ≠ .continuesInFileSystem ∧
      (v.vfsGetNode path).status ≠ .ok) := by
    obtain ⟨hnone, _⟩ | ⟨_, _, _, hs | ⟨hs, _⟩⟩ := hv.vfsGetNode_cases path
    · rw [hnone] at hf
      cases hf
    · exact fun h => h.2 hs
    · exact fun h => h.1 hs
  rw [vfsQuery, queryNode, hf]
  dsimp only
  rw [hv.mount_type hf hd, hd]
  exact if_neg hstatus

theorem Typed.vfsPathExists_mount : v.vfsPathExists st path =
    match m.type with
    | .ext2 =>
      ext2PathExists (st.mounted m) ((v.vfsGetNode path).remainingPath.getD [pathSeperator])
    | .unknown => .ok 0 := by
  rw [vfsPathExists, existsNode, hf]
  dsimp only
  rw [hv.mount_type hf hd, hd]
  rfl

end Mounted

theorem Typed.regular_file (hv : v.Typed) (h : v.vfsPathExists st path = .ok 2) :
    ∃ (fs : MountedFs) (sb : Ext2SuperBlock) (inodeNum : Nat),
      v.vfsGetFileSize st path = ext2GetInodeSize fs.toFilesystemData sb inodeNum ∧
      ∀ offset count out, v.vfsRead st path offset count out =
        ext2ReadInode fs.toFilesystemData sb inodeNum offset count out := by
  cases hf : (v.vfsGetNode path).foundNode with
  | none =>
    rw [vfsPathExists, existsNode, hf] at h
    exact absurd (Except.ok.inj h) (by decide)
  | some i =>
    obtain ⟨ht, l, hd⟩ | ⟨ht, fs, hd⟩ := hv.data i (hv.found_lt hf)
    · rw [vfsPathExists, existsNode, hf] at h
      dsimp only at h
      rw [ht] at h
      have hvalue := Except.ok.inj h
      split at hvalue
      · exact absurd hvalue (by decide)
      · exact absurd hvalue (by decide)
    · rw [hv.vfsPathExists_mount st hf hd] at h
      rw [vfsGetFileSize, hv.vfsQuery_mount st hf hd]
      simp only [vfsRead, hv.vfsQuery_mount st hf hd]
      cases htype : fs.type with
      | unknown =>
        rw [htype] at h
        exact absurd (Except.ok.inj h) (by decide)
      | ext2 =>
        rw [htype] at h
        obtain ⟨_, ⟨⟩, hlookup⟩ := of_bind_eq_ok h
        obtain ⟨n, hn, hrest⟩ := of_bind_eq_ok hlookup
        have h0 : n ≠ 0 := by
          rintro rfl
          exact absurd (Except.ok.inj hrest) (by decide)
        exact ⟨_, _, n, ext2FileSize_of_lookup hn h0, ext2FileRead_of_lookup hn h0⟩

end Vfs

end BiosKernel
