import BiosKernel.File.Reassembly

namespace BiosKernel
open ByteMem Checked MachineInt
set_option autoImplicit true

/-- The position that is asked for: none for an offset from the end larger than the file, or where
`whence` is none of the three. -/
def requested (size current offset : Nat) : LseekOp → Option Nat
  | .seekSet => some offset
  | .seekCur => some (current + offset)
  | .seekEnd => if offset ≤ size then some (size - offset) else none
  | .other => none

namespace FdpArr

/-- `lseek` fails with a negative value and changes nothing, or goes where it is asked to, which is
in the file. -/
def SeeksInside (t : FdpArr) (vfs : VfsCalls) (fd : Int) (size offset : Nat)
    (whence : LseekOp) : Prop :=
  ∃ r t', t.lseek vfs fd offset whence = .ok (r, t') ∧
    ((signed64 r < 0 ∧ t' = t) ∨
      ∃ position ∈ requested size (t fd.toNat).currentOffset offset whence,
        r = position ∧ t' = t.setOffset fd position ∧ position ≤ size) ∧
    (whence = .seekEnd → offset = 0 → r = size)

variable {t : FdpArr} {vfs : VfsCalls} {fd : Int} {path : CString}

theorem setOffset_eq_iff (t : FdpArr) (fd : Int) (offset : Nat) :
    t.setOffset fd offset = t ↔ offset = (t fd.toNat).currentOffset := by
  rw [setOffset, set, Function.update_eq_self_iff]
  constructor
  · intro h
    rw [← h]
  · rintro rfl
    rfl

theorem seeksInside_set (h : t.lseek vfs fd offset whence = .ok (p, t.setOffset fd p)) :
    t.SeeksInside vfs fd size offset whence ↔
      (signed64 p < 0 ∧ p = (t fd.toNat).currentOffset ∨
        p ∈ requested size (t fd.toNat).currentOffset offset whence ∧ p ≤ size) ∧
      (whence = .seekEnd → offset = 0 → p = size) := by
  constructor
  · rintro ⟨r, t', hr, hresult, hend⟩
    cases h.symm.trans hr
    refine ⟨?_, hend⟩
    rcases hresult with ⟨hneg, ht⟩ | ⟨position, hposition, rfl, -, hle⟩
    · exact .inl ⟨hneg, (setOffset_eq_iff t fd p).mp ht⟩
    · exact .inr ⟨hposition, hle⟩
  · rintro ⟨hresult, hend⟩
    refine ⟨_, _, h, ?_, hend⟩
    rcases hresult with ⟨hneg, hp⟩ | ⟨hp, hle⟩
    · exact .inl ⟨hneg, (setOffset_eq_iff t fd p).mpr hp⟩
    · exact .inr ⟨p, hp, rfl, rfl, hle⟩

theorem seeksInside_refused (h : t.lseek vfs fd offset whence = .ok (minusThree, t))
    (hw : whence ≠ .seekEnd) : t.SeeksInside vfs fd size offset whence :=
  ⟨_, _, h, .inl ⟨by decide, rfl⟩, fun he => absurd he hw⟩

/-- From the current position the sum must not leave 64 bits, or must lead nowhere. From the end
nothing goes right: only where the negative position is the current one can nothing be seen. With
any other value of `whence` the current position is returned, which is no failure if it is not
negative. -/
def Seekable (size current offset : Nat) : LseekOp → Prop
  | .seekSet => True
  | .seekCur => current + offset < 2 ^ 64 ∨ size ≤ u64 (current + offset)
  | .seekEnd => offset ≠ 0 ∧ 2 ^ 63 ≤ current ∧ u64 (current + offset + 1) = size
  | .other => 2 ^ 63 ≤ current

section Whence

variable (hfd : 0 ≤ fd ∧ fd < maxNumOfFileDescriptors) (hpath : (t fd.toNat).filePath = some path)
  (hsize : vfs.getFileSize path = .ok size)
include hfd hpath hsize

theorem seeksInside_seekSet (offset : Nat) : t.SeeksInside vfs fd size offset .seekSet := by
  have h := lseek_eq hfd hpath hsize offset .seekSet
  by_cases hlt : offset < size
  · rw [seekPosition, if_pos hlt] at h
    exact (seeksInside_set h).mpr ⟨.inr ⟨rfl, Nat.le_of_lt hlt⟩, fun he => by cases he⟩
  · rw [seekPosition, if_neg hlt] at h
    exact seeksInside_refused h fun he => by cases he

theorem seeksInside_seekCur_iff (hlimit : size < 2 ^ 64)
    (hcurrent : (t fd.toNat).currentOffset ≤ size) (hoffset : offset < 2 ^ 64) :
    t.SeeksInside vfs fd size offset .seekCur ↔
      Seekable size (t fd.toNat).currentOffset offset .seekCur := by
  have h := lseek_eq hfd hpath hsize offset .seekCur
  generalize hc : (t fd.toNat).currentOffset = current at h hcurrent ⊢
  rw [Seekable, Nat.add_comm current]
  by_cases hlt : u64 (offset + current) < size
  · rw [seekPosition, if_pos hlt] at h
    rw [seeksInside_set h, hc, requested, Option.mem_some_iff, signed64]
    rw [u64] at hlt ⊢
    constructor
    · rintro ⟨⟨-, hp⟩ | ⟨hp, -⟩, -⟩
      · omega
      · omega
    · intro hsum
      exact ⟨.inr ⟨by omega, Nat.le_of_lt hlt⟩, fun he => by cases he⟩
  · rw [seekPosition, if_neg hlt] at h
    exact iff_of_true (seeksInside_refused h fun he => by cases he) (.inr (Nat.le_of_not_lt hlt))

theorem seeksInside_seekEnd_iff (hlimit : size < 2 ^ 64)
    (hcurrent : (t fd.toNat).currentOffset ≤ size) (hoffset : offset < 2 ^ 64) :
    t.SeeksInside vfs fd size offset .seekEnd ↔
      Seekable size (t fd.toNat).currentOffset offset .seekEnd := by
  have h := lseek_eq hfd hpath hsize offset .seekEnd
  generalize hc : (t fd.toNat).currentOffset = current at h hcurrent ⊢
  rw [seekPosition] at h
  rw [Seekable, seeksInside_set h, hc, requested, signed64, u64, u64]
  constructor
  · rintro ⟨⟨hneg, hp⟩ | ⟨hp, -⟩, hend⟩
    · have hne : offset ≠ 0 := fun h0 => by
        have := hend rfl h0
        omega
      refine ⟨hne, ?_, ?_⟩
      · split at hneg
        · omega
        · omega
      · omega
    · split at hp
      · have := Option.mem_some_iff.mp hp
        omega
      · cases hp
  · rintro ⟨hne, hlarge, hp⟩
    refine ⟨.inl ⟨?_, by omega⟩, fun _ h0 => absurd h0 hne⟩
    rw [if_neg (by omega)]
    omega

theorem seeksInside_other_iff (hlimit : size < 2 ^ 64)
    (hcurrent : (t fd.toNat).currentOffset ≤ size) (offset : Nat) :
    t.SeeksInside vfs fd size offset .other ↔
      Seekable size (t fd.toNat).currentOffset offset .other := by
  have h := lseek_eq hfd hpath hsize offset .other
  rw [seekPosition] at h
  rw [Seekable, seeksInside_set h, requested, signed64]
  constructor
  · rintro ⟨⟨hneg, -⟩ | ⟨hp, -⟩, -⟩
    · split at hneg
      · omega
      · omega
    · cases hp
  · intro hlarge
    refine ⟨.inl ⟨?_, rfl⟩, fun he => by cases he⟩
    rw [if_neg (by omega)]
    omega

end Whence

theorem seeksInside_iff (hfd : 0 ≤ fd ∧ fd < maxNumOfFileDescriptors)
    (hpath : (t fd.toNat).filePath = some path) (hsize : vfs.getFileSize path = .ok size)
    (hlimit : size < 2 ^ 64) (hcurrent : (t fd.toNat).currentOffset ≤ size)
    (hoffset : offset < 2 ^ 64) (whence : LseekOp) :
    t.SeeksInside vfs fd size offset whence ↔
      Seekable size (t fd.toNat).currentOffset offset whence := by
  cases whence with
  | seekSet => exact iff_of_true (seeksInside_seekSet hfd hpath hsize offset) trivial
  | seekCur => exact seeksInside_seekCur_iff hfd hpath hsize hlimit hcurrent hoffset
  | seekEnd => exact seeksInside_seekEnd_iff hfd hpath hsize hlimit hcurrent hoffset
  | other => exact seeksInside_other_iff hfd hpath hsize hlimit hcurrent offset

/-- A byte forward from the begin of a file of two. -/
theorem seeksInside_forward : openedFile.SeeksInside (serving [97, 98]) 0 2 1 .seekCur :=
  (seeksInside_iff (by decide) rfl rfl (by decide) (by decide) (by decide) .seekCur).mpr
    (.inl (by decide))

/-- The end of a file of two bytes is said to be at 1, and three bytes before it at `2 ^ 64 - 2`,
where the descriptor then stands. -/
theorem seek_end_wrong :
    ((openedFile.lseek (serving [97, 98]) 0 0 .seekEnd).toOption.map (·.1) = some 1 ∧
      (openedFile.lseek (serving [97, 98]) 0 3 .seekEnd).toOption.map
        (fun r => (r.2 0).currentOffset) = some (2 ^ 64 - 2)) ∧
    ¬ openedFile.SeeksInside (serving [97, 98]) 0 2 0 .seekEnd ∧
    ¬ openedFile.SeeksInside (serving [97, 98]) 0 2 3 .seekEnd := by
  refine ⟨⟨rfl, rfl⟩, ?_, ?_⟩
  · rintro ⟨r, t', hr, -, hend⟩
    cases hr
    exact absurd (hend rfl rfl) (by decide)
  · rintro ⟨r, t', hr, ⟨-, ht⟩ | ⟨position, hposition, -⟩, -⟩
    · cases hr
      exact absurd (congrArg Fdp.currentOffset (congrFun ht 0)) (by decide)
    · cases hposition

end FdpArr

end BiosKernel
