import BiosKernel.File.Descriptors
import Mathlib.Algebra.GroupWithZero.Nat

namespace BiosKernel
open ByteMem Checked MachineInt
set_option autoImplicit true

/-- `vfs_read` gives the bytes of the file at the offset, as many as there are. -/
def VfsCalls.Serves (vfs : VfsCalls) (path : CString) (content : List UInt8) : Prop :=
  ∀ offset cnt buf, ∃ buf', vfs.read path offset cnt buf =
      .ok (min cnt (content.length - offset), buf') ∧
    bytes buf' 0 (min cnt (content.length - offset)) = (content.drop offset).take cnt

/-- One call of `read`: the offset before it, what it returned, the data, the offset after it. -/
structure ReadCall where
  before : Nat
  returned : Nat
  data : List UInt8
  after : Nat
  deriving DecidableEq

/-- Call `read` once for each chunk. -/
def readChunks (vfs : VfsCalls) (fd : Int) (buf : Mem) :
    FdpArr → List Nat → FileResult (List ReadCall)
  | _, [] => .ok []
  | t, n :: chunks => do
    let (returned, buf', t') ← t.readFd vfs fd buf n
    let data := if 0 < signed64 returned then bytes buf' 0 returned else []
    let calls ← readChunks vfs fd buf t' chunks
    return ⟨(t fd.toNat).currentOffset, returned, data, (t' fd.toNat).currentOffset⟩ :: calls

/-- The offset moves by what the call returned, and not at all where that is no count. -/
def ReadCall.Advances (c : ReadCall) : Prop :=
  if 0 < signed64 c.returned then c.after = c.before + c.returned else c.after = c.before

/-- The data of the calls is the beginning of the file, and each call advances by its count. -/
def Reassembles (content : List UInt8) (chunks : List Nat) (calls : List ReadCall) : Prop :=
  calls.flatMap (·.data) = content.take (min chunks.sum content.length) ∧ ∀ c ∈ calls, c.Advances

/-- A descriptor that `path` has been opened on for reading. -/
structure OpenForReading (t : FdpArr) (fd : Int) (path : CString) : Prop where
  valid : 0 ≤ fd ∧ fd < maxNumOfFileDescriptors
  filePath : (t fd.toNat).filePath = some path
  flags : (t fd.toNat).flags = oRdonly ∨ (t fd.toNat).flags = oRdwr

variable {vfs : VfsCalls} {path : CString} {content : List UInt8} {t : FdpArr} {fd : Int}

theorem readFd_eq (hserves : vfs.Serves path content) (h : OpenForReading t fd path) (buf : Mem)
    (cnt : Nat) : ∃ buf', t.readFd vfs fd buf cnt =
      .ok (min cnt (content.length - (t fd.toNat).currentOffset), buf',
        t.setOffset fd (u64 ((t fd.toNat).currentOffset +
          u64 (min cnt (content.length - (t fd.toNat).currentOffset) + 2 ^ 64 - 1)))) := by
  obtain ⟨buf', hread, _⟩ := hserves (t fd.toNat).currentOffset cnt buf
  refine ⟨buf', ?_⟩
  rw [FdpArr.readFd_opened h.valid h.filePath h.flags, hread]
  rfl

theorem OpenForReading.setOffset (h : OpenForReading t fd path) (offset : Nat) :
    OpenForReading (t.setOffset fd offset) fd path := by
  refine ⟨h.valid, ?_, ?_⟩
  · rw [FdpArr.setOffset_self]
    exact h.filePath
  · rw [FdpArr.setOffset_self]
    exact h.flags

theorem readChunks_cons (hread : t.readFd vfs fd buf n = .ok (returned, buf', t'))
    (hcalls : readChunks vfs fd buf t' chunks = .ok calls) :
    readChunks vfs fd buf t (n :: chunks) =
      .ok (⟨(t fd.toNat).currentOffset, returned,
        if 0 < signed64 returned then bytes buf' 0 returned else [],
        (t' fd.toNat).currentOffset⟩ :: calls) := by
  rw [readChunks, hread]
  show (readChunks vfs fd buf t' chunks >>= _) = _
  rw [hcalls]
  rfl

theorem readChunks_ok (hserves : vfs.Serves path content) (h : OpenForReading t fd path) (buf : Mem)
    (chunks : List Nat) : ∃ calls, readChunks vfs fd buf t chunks = .ok calls := by
  induction chunks generalizing t with
  | nil => exact ⟨[], rfl⟩
  | cons n chunks ih =>
    obtain ⟨buf', hread⟩ := readFd_eq hserves h buf n
    obtain ⟨calls, hcalls⟩ := ih (h.setOffset _)
    exact ⟨_, readChunks_cons hread hcalls⟩

/-- One less than a count is not the count, and one less than 0 is not 0. -/
theorem not_advances (c : ReadCall) (hr : c.returned < 2 ^ 64) (hbefore : c.before = 0)
    (hafter : c.after = u64 (c.returned + 2 ^ 64 - 1)) : ¬ c.Advances := by
  rw [ReadCall.Advances, hbefore, hafter, signed64, u64]
  by_cases hlt : c.returned < 2 ^ 63
  · rw [if_pos hlt]
    split
    · omega
    · omega
  · rw [if_neg hlt, if_neg (by omega)]
    omega

/-- Sequential reads from the beginning of a file never obey the law, but for no read at all. -/
theorem reassembles_iff (vfs : VfsCalls) (path : CString) (content : List UInt8)
    (hserves : vfs.Serves path content) (t : FdpArr) (fd : Int) (h : OpenForReading t fd path)
    (hoffset : (t fd.toNat).currentOffset = 0) (buf : Mem) (chunks : List Nat)
    (hchunks : ∀ n ∈ chunks, 0 < n ∧ n < 2 ^ 64) :
    ∃ calls, readChunks vfs fd buf t chunks = .ok calls ∧
      (Reassembles content chunks calls ↔ chunks = []) := by
  cases chunks with
  | nil => exact ⟨[], rfl, fun _ => rfl, fun _ => ⟨rfl, fun c hc => absurd hc List.not_mem_nil⟩⟩
  | cons n chunks =>
    obtain ⟨buf', hread⟩ := readFd_eq hserves h buf n
    obtain ⟨calls, hcalls⟩ := readChunks_ok hserves (h.setOffset _) buf chunks
    refine ⟨_, readChunks_cons hread hcalls, fun hre => ?_, fun he => nomatch he⟩
    refine absurd (hre.2 _ List.mem_cons_self) (not_advances _ ?_ hoffset ?_)
    · have hn := hchunks n List.mem_cons_self
      dsimp only
      omega
    · dsimp only
      rw [hoffset, FdpArr.setOffset_self, Nat.zero_add, u64, u64, Nat.mod_mod]

/-- A file system with one file. -/
def serving (content : List UInt8) : VfsCalls where
  pathExists _ := .ok 2
  getFileSize _ := .ok content.length
  read _ offset cnt buf := .ok (min cnt (content.length - offset),
    put buf 0 ((content.drop offset).take cnt))

theorem serving_serves (path : CString) (content : List UInt8) :
    (serving content).Serves path content := by
  intro offset cnt buf
  refine ⟨_, rfl, ?_⟩
  have hlen : min cnt (content.length - offset) = ((content.drop offset).take cnt).length := by
    rw [List.length_take, List.length_drop]
  rw [hlen]
  exact bytes_put_self _ _ _

/-- Descriptor 0 on the file `/a`. -/
def openedFile : FdpArr := initFdpArr.set 0 ⟨some [pathSeperator, 97], 0, oRdonly⟩

theorem reassembles_iff_ab : ∃ calls,
    readChunks (serving [97, 98]) 0 (fun _ => 0) openedFile [1, 1] = .ok calls ∧
      (Reassembles [97, 98] [1, 1] calls ↔ [1, 1] = []) :=
  reassembles_iff _ [pathSeperator, 97] _ (serving_serves _ _) openedFile 0
    ⟨by decide, rfl, .inl rfl⟩ rfl _ [1, 1] (by decide)

/-- Two reads of one byte each from a file `ab` both return `a`. -/
theorem reads_repeat_first_byte : ∃ calls,
    readChunks (serving [97, 98]) 0 (fun _ => 0) openedFile [1, 1] = .ok calls ∧
      calls.map (·.data) = [[97], [97]] ∧ ¬ Reassembles [97, 98] [1, 1] calls := by
  have hcalls : readChunks (serving [97, 98]) 0 (fun _ => 0) openedFile [1, 1] =
      .ok [⟨0, 1, [97], 0⟩, ⟨0, 1, [97], 0⟩] := by decide +kernel
  refine ⟨_, hcalls, rfl, ?_⟩
  intro h
  exact absurd h.1 (by decide)

end BiosKernel
