import BiosKernel.File.Seek
import BiosKernel.Process.Elf

namespace BiosKernel.Elf
open ByteMem Checked MachineInt
set_option autoImplicit true

/-- How `lseek` and `read` of this system do it. -/
def Files.ofCode (content : CString → Option (List UInt8)) : Files where
  content := content
  seeks offset size := offset < size
  advance offset n := u64 (offset + u64 (n + 2 ^ 64 - 1))

section Code

variable {files : CString → Option (List UInt8)} {content : List UInt8} {path : CString}
  {t : FdpArr} {fd : Int} (hfd : 0 ≤ fd ∧ fd < maxNumOfFileDescriptors)
  (hpath : (t fd.toNat).filePath = some path) (hfile : files path = some content)
include hfd hpath hfile

theorem lseekSet_ofCode (offset : Nat) :
    ∃ r, t.lseek (Files.ofCode files).calls fd offset .seekSet =
      .ok (r, (Files.ofCode files).lseekSet t fd offset) := by
  have hopened : (Files.ofCode files).opened t fd = some content :=
    (Files.opened_eq hfd hpath).trans hfile
  have hsize : (Files.ofCode files).calls.getFileSize path = .ok content.length := by
    show Except.ok ((files path).getD []).length = _
    rw [hfile]
    rfl
  have hseeks : (Files.ofCode files).seeks offset content.length =
      decide (offset < content.length) := rfl
  rw [FdpArr.lseek_eq hfd hpath hsize, FdpArr.seekPosition, Files.lseekSet, hopened]
  dsimp only
  rw [hseeks]
  by_cases hlt : offset < content.length
  · rw [if_pos hlt, if_pos (decide_eq_true hlt)]
    exact ⟨_, rfl⟩
  · rw [if_neg hlt, if_neg (by rw [decide_eq_false hlt]; exact Bool.false_ne_true)]
    exact ⟨_, rfl⟩

theorem read_ofCode (hflags : (t fd.toNat).flags = oRdonly) (buf : Mem) (cnt : Nat) :
    ∃ n, t.readFd (Files.ofCode files).calls fd buf cnt =
      .ok (n, (Files.ofCode files).read t fd buf 0 cnt) := by
  have hopened : (Files.ofCode files).opened t fd = some content :=
    (Files.opened_eq hfd hpath).trans hfile
  have hread : (Files.ofCode files).calls.read path (t fd.toNat).currentOffset cnt buf =
      .ok (((content.drop (t fd.toNat).currentOffset).take cnt).length,
        put buf 0 ((content.drop (t fd.toNat).currentOffset).take cnt)) := by
    have hget : (files path).getD [] = content := by
      rw [hfile]
      rfl
    rw [← hget]
    rfl
  rw [FdpArr.readFd_opened hfd hpath (.inl hflags), hread, Files.read, hopened]
  exact ⟨_, rfl⟩

end Code

end BiosKernel.Elf
