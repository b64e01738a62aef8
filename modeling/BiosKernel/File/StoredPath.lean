import BiosKernel.File.Isolation
import BiosKernel.File.Reassembly
import Mathlib.Data.List.TakeWhile

namespace BiosKernel
open ByteMem Checked MachineInt
set_option autoImplicit true

/-- What `file_path` points to behind an `open`: the bytes of the path without its terminator, in
what `malloc` gives for as many. -/
def pathCopy (behind : Mem) (path : CString) : Mem :=
  put (mallocBuffer behind (strlen path)) 0 path.text

/-- The string at the begin of a memory is `s`. -/
structure HoldsString (m : Mem) (s : CString) : Prop where
  text : bytes m 0 s.length = s
  no_nul : 0 ∉ s
  terminator : m s.length = 0

/-- `open` with the copy that it makes, which is read up to the first 0 in the memory. -/
def FdpArr.openCopying (t : FdpArr) (vfs : VfsCalls) (behind : Mem) (path : CString) (flags : Int) :
    FileResult (Int × FdpArr) :=
  t.openStoring vfs path (CString.text (bytes (pathCopy behind path) 0 (2 ^ 64))) flags

/-- Whatever lies behind the copy, it is the path for every later call, and it ends in its own
allocation. -/
structure StoresPath (t : FdpArr) (vfs : VfsCalls) (path : CString) (flags fd : Int) : Prop where
  inside : strlen path < mallocSize (strlen path)
  seen : ∀ behind, HoldsString (pathCopy behind path) path.text ∧
    ∃ t', t.openCopying vfs behind path flags = .ok (fd, t') ∧
      (t' fd.toNat).filePath = some path.text

theorem text_no_nul (s : CString) : 0 ∉ s.text := by
  intro h
  have hne := List.mem_takeWhile_imp h
  simp at hne

theorem pathCopy_text (behind : Mem) (path : CString) :
    bytes (pathCopy behind path) 0 path.text.length = path.text := bytes_put_self ..

theorem pathCopy_terminator (behind : Mem) (path : CString) :
    pathCopy behind path path.text.length =
      if strlen path < mallocSize (strlen path) then 0 else behind (strlen path) :=
  put_apart _ (.inr (Nat.zero_add _).le)

/-- Behind the bytes of a string that is not rounded up there is none left for its terminator. -/
theorem lt_mallocSize_iff (n : Nat) :
    n < mallocSize n ↔ n < 32 ∨ n % 16 ≠ 0 ∧ n < 2 ^ 64 - 16 := by
  rw [mallocSize, aalign, u64, heapChunkMinSizeBytes, sizeofMallocChunk]
  split
  · omega
  · omega

theorem pathCopy_holds (h : strlen path < mallocSize (strlen path)) (behind : Mem) :
    HoldsString (pathCopy behind path) path.text := by
  refine ⟨pathCopy_text behind path, text_no_nul path, ?_⟩
  rw [pathCopy_terminator, if_pos h]

theorem HoldsString.text_bytes (h : HoldsString m s) (hs : s.length < n) :
    CString.text (bytes m 0 n) = s := by
  obtain ⟨k, rfl⟩ := Nat.exists_eq_add_of_lt hs
  have hzero : bytes m s.length (k + 1) = 0 :: bytes m (s.length + 1) k := by
    rw [Nat.add_comm k, bytes_append, ← h.terminator]
    rfl
  rw [Nat.add_assoc, bytes_append, h.text, Nat.zero_add, hzero, CString.text_append h.no_nul]
  exact List.append_nil s

theorem openCopying_eq (t : FdpArr) (vfs : VfsCalls)
    (h : strlen path < mallocSize (strlen path)) (behind : Mem) (flags : Int) :
    t.openCopying vfs behind path flags = t.openStoring vfs path path.text flags := by
  have hlt : path.text.length < 2 ^ 64 := by
    have hroom := (lt_mallocSize_iff (strlen path)).mp h
    rw [strlen] at hroom
    omega
  rw [FdpArr.openCopying, (pathCopy_holds h behind).text_bytes hlt]

theorem openStoring_of_openFd (h : FdpArr.openFd t vfs path flags = .ok (fd, t')) (hfd : 0 ≤ fd)
    (stored : CString) :
    t.openStoring vfs path stored flags = .ok (fd, t.set fd ⟨some stored, 0, flags⟩) := by
  rw [FdpArr.openFd, FdpArr.openStoring] at h
  rw [FdpArr.openStoring]
  obtain ⟨found, hfound, h⟩ := of_bind_eq_ok h
  rw [hfound, ok_bind]
  split at h
  · cases h
    cases hfd
  · next h0 =>
    rw [if_neg h0]
    split at h
    · cases h
      rfl
    · cases h
      cases hfd

/-- After an `open` that has found a descriptor, the stored path is the given one exactly where its
length leaves room in the last 16 bytes. -/
theorem storesPath_iff (h : FdpArr.openFd t vfs path flags = .ok (fd, t')) (hfd : 0 ≤ fd) :
    StoresPath t vfs path flags fd ↔
      strlen path < 32 ∨ strlen path % 16 ≠ 0 ∧ strlen path < 2 ^ 64 - 16 := by
  rw [← lt_mallocSize_iff]
  refine ⟨fun hs => hs.inside, fun hlt => ⟨hlt, fun behind => ⟨pathCopy_holds hlt behind, ?_⟩⟩⟩
  rw [openCopying_eq t vfs hlt, openStoring_of_openFd h hfd]
  exact ⟨_, rfl, congrArg Fdp.filePath (FdpArr.set_self t _ _)⟩

/-- `/a` on the first descriptor. -/
theorem storesPath_short :
    StoresPath initFdpArr (serving []) [pathSeperator, 97] oRdonly 0 := by
  have hopen : FdpArr.openFd initFdpArr (serving []) [pathSeperator, 97] oRdonly =
      .ok (0, openedFile) := rfl
  exact (storesPath_iff hopen (Int.le_refl 0)).mpr (.inl (by decide))

/-- An absolute path of 32 bytes. -/
def fullPath : CString := pathSeperator :: List.replicate 31 97

/-- The copy of a path of 32 bytes goes on with what lies behind its allocation. -/
theorem full_path_runs_on : ∃ fd t',
    FdpArr.openFd initFdpArr (serving []) fullPath oRdonly = .ok (fd, t') ∧ 0 ≤ fd ∧
      bytes (pathCopy (fun _ => 98) fullPath) 0 33 = fullPath ++ [98] ∧
      ¬ StoresPath initFdpArr (serving []) fullPath oRdonly fd := by
  refine ⟨0, _, rfl, Int.le_refl 0, by decide +kernel, fun h => ?_⟩
  exact absurd h.inside (by decide +kernel)

end BiosKernel
