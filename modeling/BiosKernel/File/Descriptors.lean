import BiosKernel.Syscall.Handler
import BiosKernel.Vfs.Queries

namespace BiosKernel
open ByteMem Checked MachineInt
set_option autoImplicit true

/-- Why a file operation has no result: it touches memory outside `fdp_arr`, or the virtual file
system gives none. -/
inductive FileFault where
  | outside
  | vfs (fault : Fault)
  deriving DecidableEq

abbrev FileResult := Except FileFault

/-- What the file operations ask the virtual file system for. -/
structure VfsCalls where
  pathExists : CString → Result Int
  getFileSize : CString → Result Nat
  read : CString → Nat → Nat → Mem → Result (Nat × Mem)

def Vfs.calls (v : Vfs) (st : Storage) : VfsCalls where
  pathExists := v.vfsPathExists st
  getFileSize := v.vfsGetFileSize st
  read := v.vfsRead st

/-- `vfs_write` is not written yet. -/
def vfsWrite : Nat := 0

/-- `MAX_NUM_OF_FILE_DESCRIPTORS`. -/
def maxNumOfFileDescriptors : Nat := 256

-- `O_RDONLY`, `O_WRONLY` and `O_RDWR`.

def oRdonly : Int := 0

def oWronly : Int := 1

def oRdwr : Int := 2

/-- The parameter `whence` may have a value that the enumeration has not. -/
inductive LseekOp where
  | seekSet
  | seekCur
  | seekEnd
  | other
  deriving DecidableEq

/-- The `size_t` that is -3 as an `int64_t`. -/
def minusThree : Nat := 2 ^ 64 - 3

structure Fdp where
  filePath : Option CString
  currentOffset : Nat
  flags : Int

/-- The entries of `fdp_arr` by their index. -/
abbrev FdpArr := Nat → Fdp

def initFdpArr : FdpArr := fun _ => ⟨none, 0, 0⟩

namespace FdpArr

def entry (t : FdpArr) (fd : Int) : FileResult Fdp :=
  if 0 ≤ fd ∧ fd < maxNumOfFileDescriptors then .ok (t fd.toNat) else .error .outside

def set (t : FdpArr) (fd : Int) (e : Fdp) : FdpArr := Function.update t fd.toNat e

def setOffset (t : FdpArr) (fd : Int) (offset : Nat) : FdpArr :=
  t.set fd { t fd.toNat with currentOffset := offset }

/-- `open`. The string that the copy of the path is later read as is an argument of its own. -/
def openStoring (t : FdpArr) (vfs : VfsCalls) (path stored : CString) (flags : Int) :
    FileResult (Int × FdpArr) := do
  let found ← (vfs.pathExists path).mapError .vfs
  if found = 0 then return (-1, t)
  match (List.range maxNumOfFileDescriptors).find? fun i => (t i).filePath.isNone with
  | some i => return (i, t.set i ⟨some stored, 0, flags⟩)
  | none => return (-1, t)

/-- `open`, where the copy is read as the path itself. -/
def openFd (t : FdpArr) (vfs : VfsCalls) (path : CString) (flags : Int) :
    FileResult (Int × FdpArr) :=
  t.openStoring vfs path path flags

/-- `close`, which returns nothing after it has closed a file. -/
def closeFd (t : FdpArr) (fd : Int) : FileResult (Option Int × FdpArr) := do
  let e ← t.entry fd
  match e.filePath with
  | none => return (some (-1), t)
  | some _ => return (none, t.set fd { e with filePath := none })

/-- `read`. The number returned is an `int64_t`. -/
def readFd (t : FdpArr) (vfs : VfsCalls) (fd : Int) (buf : Mem) (cnt : Nat) :
    FileResult (Nat × Mem × FdpArr) := do
  let e ← t.entry fd
  if ¬ (e.flags = oRdonly ∨ e.flags = oRdwr) then return (minusThree, buf, t)
  match e.filePath with
  | none => return (minusOne, buf, t)
  | some filePath =>
    let (cntRead, buf) ← (vfs.read filePath e.currentOffset cnt buf).mapError .vfs
    return (cntRead, buf, t.setOffset fd (u64 (e.currentOffset + u64 (cntRead + 2 ^ 64 - 1))))

/-- `write`. -/
def writeFd (t : FdpArr) (fd : Int) : FileResult (Nat × FdpArr) := do
  let e ← t.entry fd
  if ¬ (e.flags = oWronly ∨ e.flags = oRdwr) then return (minusThree, t)
  match e.filePath with
  | none => return (minusOne, t)
  | some _ =>
    let cntWrote := vfsWrite
    return (cntWrote, t.setOffset fd (u64 (e.currentOffset + u64 (cntWrote + 2 ^ 64 - 1))))

/-- The test of `SEEK_END` is one of unsigned numbers. -/
def lseek (t : FdpArr) (vfs : VfsCalls) (fd : Int) (offset : Nat) (whence : LseekOp) :
    FileResult (Nat × FdpArr) := do
  let e ← t.entry fd
  match e.filePath with
  | none => return (minusOne, t)
  | some filePath =>
    let fileSize ← (vfs.getFileSize filePath).mapError .vfs
    match whence with
    | .seekSet =>
      if offset < fileSize then return (offset, t.setOffset fd offset)
      else return (minusThree, t)
    | .seekCur =>
      let position := u64 (offset + e.currentOffset)
      if position < fileSize then return (position, t.setOffset fd position)
      else return (minusThree, t)
    | .seekEnd =>
      let position := u64 (fileSize + 2 ^ 64 - offset + 2 ^ 64 - 1)
      if position ≥ 0 then return (position, t.setOffset fd position)
      else return (minusThree, t)
    | .other => return (e.currentOffset, t)

/-- The position that `lseek` computes, none where it returns -3. -/
def seekPosition (size current offset : Nat) : LseekOp → Option Nat
  | .seekSet => if offset < size then some offset else none
  | .seekCur => if u64 (offset + current) < size then some (u64 (offset + current)) else none
  | .seekEnd => some (u64 (size + 2 ^ 64 - offset + 2 ^ 64 - 1))
  | .other => some current

/-- What `lseek` does with a position, and without one. -/
def seekTo (t : FdpArr) (fd : Int) : Option Nat → Nat × FdpArr
  | some position => (position, t.setOffset fd position)
  | none => (minusThree, t)

variable {t : FdpArr} {vfs : VfsCalls} {fd : Int} {path : CString}

theorem setOffset_current (t : FdpArr) (fd : Int) :
    t.setOffset fd (t fd.toNat).currentOffset = t :=
  Function.update_eq_self fd.toNat t

theorem lseek_eq_seekTo (t : FdpArr) (vfs : VfsCalls) (fd : Int) (offset : Nat)
    (whence : LseekOp) : t.lseek vfs fd offset whence = (t.entry fd >>= fun e =>
      match e.filePath with
      | none => .ok (minusOne, t)
      | some filePath => (vfs.getFileSize filePath).mapError .vfs >>= fun size =>
        .ok (t.seekTo fd (seekPosition size e.currentOffset offset whence))) := by
  rw [lseek]
  by_cases hfd : 0 ≤ fd ∧ fd < maxNumOfFileDescriptors
  · rw [entry, if_pos hfd, ok_bind, ok_bind]
    cases (t fd.toNat).filePath with
    | none => rfl
    | some filePath =>
      dsimp only
      congr 1
      funext size
      cases whence with
      | seekSet =>
        dsimp only [seekPosition]
        split
        · rfl
        · rfl
      | seekCur =>
        dsimp only [seekPosition]
        split
        · rfl
        · rfl
      | seekEnd => exact if_pos (Nat.zero_le _)
      | other =>
        dsimp only [seekPosition]
        rw [seekTo, setOffset_current]
        rfl
  · rw [entry, if_neg hfd]
    rfl

theorem setOffset_self (t : FdpArr) (fd : Int) (offset : Nat) :
    (t.setOffset fd offset) fd.toNat = { t fd.toNat with currentOffset := offset } :=
  Function.update_self ..

theorem openFd_cases (t : FdpArr) (hexists : vfs.pathExists path = .ok 2) (flags : Int) :
    t.openFd vfs path flags = .ok (-1, t) ∨
    ∃ i < maxNumOfFileDescriptors,
      t.openFd vfs path flags = .ok ((i : Int), t.set i ⟨some path, 0, flags⟩) := by
  rw [openFd, openStoring, hexists]
  simp only [bind, Except.bind, Except.mapError]
  rw [if_neg (by decide)]
  split
  · next i hi =>
    exact .inr ⟨i, List.mem_range.mp (List.mem_of_find?_eq_some hi), rfl⟩
  · exact .inl rfl

section Opened

variable (hfd : 0 ≤ fd ∧ fd < maxNumOfFileDescriptors) (hpath : (t fd.toNat).filePath = some path)
include hfd hpath

/-- A read moves the offset by one less than the count. -/
theorem readFd_opened (hflags : (t fd.toNat).flags = oRdonly ∨ (t fd.toNat).flags = oRdwr)
    (buf : Mem) (cnt : Nat) : t.readFd vfs fd buf cnt =
      ((vfs.read path (t fd.toNat).currentOffset cnt buf).mapError .vfs >>= fun r =>
        .ok (r.1, r.2, t.setOffset fd (u64 ((t fd.toNat).currentOffset +
          u64 (r.1 + 2 ^ 64 - 1))))) := by
  have hentry : t.entry fd = .ok (t fd.toNat) := if_pos hfd
  rw [readFd, hentry]
  simp only [bind, Except.bind]
  rw [if_neg (not_not_intro hflags), hpath]
  rfl

theorem lseek_eq (hsize : vfs.getFileSize path = .ok size) (offset : Nat) (whence : LseekOp) :
    t.lseek vfs fd offset whence =
      .ok (t.seekTo fd (seekPosition size (t fd.toNat).currentOffset offset whence)) := by
  have hentry : t.entry fd = .ok (t fd.toNat) := if_pos hfd
  rw [lseek_eq_seekTo, hentry, ok_bind, hpath]
  dsimp only
  rw [hsize]
  rfl

theorem lseek_begin (hsize : vfs.getFileSize path = .ok n) : t.lseek vfs fd 0 .seekSet =
    if 0 < n then .ok (0, t.setOffset fd 0) else .ok (minusThree, t) := by
  rw [lseek_eq hfd hpath hsize, seekPosition]
  split
  · rfl
  · rfl

/-- The end is taken to be the last byte. -/
theorem lseek_end (hsize : vfs.getFileSize path = .ok n) : t.lseek vfs fd 0 .seekEnd =
    .ok (u64 (n + 2 ^ 64 - 1), t.setOffset fd (u64 (n + 2 ^ 64 - 1))) := by
  have hposition : u64 (n + 2 ^ 64 - 0 + 2 ^ 64 - 1) = u64 (n + 2 ^ 64 - 1) := by
    rw [u64, u64]
    omega
  rw [lseek_eq hfd hpath hsize, seekPosition, hposition]
  rfl

/-- To the end for the size and back. In an empty file there is no way back. -/
theorem lseek_end_begin (hsize : vfs.getFileSize path = .ok n) : ∃ t₁ t₂ position,
    t.lseek vfs fd 0 .seekEnd = .ok (u64 (n + 2 ^ 64 - 1), t₁) ∧
    t₁.lseek vfs fd 0 .seekSet = .ok (position, t₂) ∧ t₂ fd.toNat =
      { t fd.toNat with currentOffset := if 0 < n then 0 else u64 (n + 2 ^ 64 - 1) } := by
  have hself := setOffset_self t fd (u64 (n + 2 ^ 64 - 1))
  have hpath₁ : ((t.setOffset fd (u64 (n + 2 ^ 64 - 1))) fd.toNat).filePath = some path := by
    rw [hself]
    exact hpath
  have hbegin := lseek_begin hfd hpath₁ hsize
  by_cases hn : 0 < n
  · rw [if_pos hn] at hbegin ⊢
    exact ⟨_, _, _, lseek_end hfd hpath hsize, hbegin, by rw [setOffset_self, hself]⟩
  · rw [if_neg hn] at hbegin ⊢
    exact ⟨_, _, _, lseek_end hfd hpath hsize, hbegin, hself⟩

end Opened

end FdpArr

end BiosKernel
