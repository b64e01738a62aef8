import BiosKernel.Ext2.ReadInode

namespace BiosKernel
open ByteMem Checked MachineInt
set_option autoImplicit true

/-- How many of `count` bytes from `offset` on a file has. -/
def readableBytes (size offset count : Nat) : Nat :=
  if offset ≤ size then min count (size - offset) else 0

/-- The call returns with that many bytes and leaves the buffer behind them alone. -/
def ReadsCount (fs : FilesystemData) (sb : Ext2SuperBlock) (inodeNum offset count size : Nat) :
    Prop :=
  ∀ before, ∃ out, ext2ReadInode fs sb inodeNum offset count before =
      Except.ok (readableBytes size offset count, out) ∧
    ∀ k, readableBytes size offset count ≤ k → out k = before k

variable {fs : FilesystemData} {sb : Ext2SuperBlock}

theorem ext2ReadInode_count (hb : sBlockGetBlockSize sb ≠ 0)
    (hs : ext2GetInodeSize fs sb inodeNum = Except.ok size) (ho : offset < size)
    (hc : 1 ≤ count) (hw : offset + count < 2 ^ 64) (before : Mem) :
    ∃ out, ext2ReadInode fs sb inodeNum offset count before =
        Except.ok (min count (size - offset), out) ∧
      (∀ k, min count (size - offset) ≤ k → out k = before k) ∧
      ∀ k < min count (size - offset),
        .ok (out k) = loopByte fs sb inodeNum offset (offset + k) := by
  obtain ⟨n, out, hok, hbytes⟩ := ext2ReadInode_spec (Nat.pos_of_ne_zero hb) hs ho hc hw before
  have hend : min size (u64 (offset + count)) = min size (offset + count) := by
    rw [u64, Nat.mod_eq_of_lt hw]
  have hloop := hok
  rw [ext2ReadInode_eq_loop hs (by omega), hend] at hloop
  have hn : n = min count (size - offset) := by
    rw [readInodeLoop_count (by omega) hloop, u64]
    omega
  rw [hn] at hok hloop
  refine ⟨out, hok, ?_, hbytes⟩
  intro k hk
  exact readInodeLoop_outside (by omega) (Nat.le_refl _) hloop (by omega)

/-- The bytes of a file, 0 where there are none. -/
def inodeData (fs : FilesystemData) (sb : Ext2SuperBlock) (inodeNum : Nat) : Mem :=
  fun k => (fileByte fs sb inodeNum k).toOption.getD 0

theorem ext2ReadInode_whole (hb : sBlockGetBlockSize sb ≠ 0)
    (hs : ext2GetInodeSize fs sb inodeNum = Except.ok size) (h0 : size ≠ 0) (before : Mem) :
    ∃ data, ext2ReadInode fs sb inodeNum 0 size before = Except.ok (size, data) ∧
      ∀ k < size, data k = inodeData fs sb inodeNum k := by
  have hlt := ext2GetInodeSize_lt hs
  obtain ⟨data, hok, _, hbytes⟩ :=
    ext2ReadInode_count hb hs (Nat.pos_of_ne_zero h0) (Nat.pos_of_ne_zero h0) (by omega) before
  rw [Nat.sub_zero, Nat.min_self] at hok hbytes
  refine ⟨data, hok, ?_⟩
  intro k hk
  have hbyte := hbytes k hk
  rw [loopByte_eq (Nat.pos_of_ne_zero hb) (Nat.zero_le _), Nat.zero_mod, if_pos (Nat.zero_le _),
    Nat.zero_add] at hbyte
  rw [inodeData, ← hbyte]
  rfl

theorem ext2ReadInode_none (hs : ext2GetInodeSize fs sb inodeNum = Except.ok size)
    (hw : offset + count < 2 ^ 64) (h0 : size ≠ 0) (hend : offset + count ≠ 0)
    (hle : min size (offset + count) ≤ offset) (before : Mem) :
    ext2ReadInode fs sb inodeNum offset count before = Except.ok (0, before) := by
  have hu : u64 (offset + count) = offset + count := Nat.mod_eq_of_lt hw
  have hzero : u64 (offset + 2 ^ 64 - offset) = 0 := by
    rw [u64]
    omega
  rw [ext2ReadInode_eq_loop hs (by omega), hu, loopBound, readInodeLoop,
    if_neg (by omega), hzero]
  rfl

/-- The count is right just where neither the file nor the read is empty at offset 0, and a read
that tries a block finds a block size. -/
theorem readsCount_iff (hs : ext2GetInodeSize fs sb inodeNum = Except.ok size)
    (hw : offset + count < 2 ^ 64) : ReadsCount fs sb inodeNum offset count size ↔
      size ≠ 0 ∧ offset + count ≠ 0 ∧
        (sBlockGetBlockSize sb ≠ 0 ∨ size ≤ offset ∨ count = 0) := by
  have hu : u64 (offset + count) = offset + count := Nat.mod_eq_of_lt hw
  constructor
  · intro h
    obtain ⟨out, hok, _⟩ := h fun _ => 0
    have hend : min size (u64 (offset + count)) ≠ 0 := fun h0 =>
      ext2ReadInode_endless hs (by omega) h0 _ hok
    refine ⟨by omega, by omega, ?_⟩
    by_contra hno
    push Not at hno
    obtain ⟨hb, hlt, hc⟩ := hno
    rw [ext2ReadInode_eq_loop hs hend, loopBound, readInodeLoop_trap hb (by omega)] at hok
    cases hok
  · rintro ⟨h0, hend, hb⟩ before
    by_cases hin : min size (offset + count) ≤ offset
    · refine ⟨before, ?_, fun _ _ => rfl⟩
      have hzero : readableBytes size offset count = 0 := by
        rw [readableBytes]
        split
        · omega
        · rfl
      rw [hzero]
      exact ext2ReadInode_none hs hw h0 hend hin before
    · obtain ⟨out, hok, hkeep, _⟩ :=
        ext2ReadInode_count (hb.resolve_right (by omega)) hs (by omega) (by omega) hw before
      rw [readableBytes, if_pos (by omega)]
      exact ⟨out, hok, hkeep⟩

theorem readsCount_splitFile : ReadsCount splitFile splitFileSuperBlock 1 1000 4000 2048 ∧
    readableBytes 2048 1000 4000 = 1048 := by
  refine ⟨?_, rfl⟩
  apply (readsCount_iff (by decide +kernel) (by decide)).mpr
  decide

/-- Inode 2 of the same disk is empty. Neither a read of it nor one of no byte at the beginning of
inode 1 ends. -/
theorem empty_read_endless :
    ext2GetInodeSize splitFile splitFileSuperBlock 2 = Except.ok 0 ∧
    (∀ before r, ext2ReadInode splitFile splitFileSuperBlock 2 0 16 before ≠ Except.ok r) ∧
    (∀ before r, ext2ReadInode splitFile splitFileSuperBlock 1 0 0 before ≠ Except.ok r) ∧
    ¬ ReadsCount splitFile splitFileSuperBlock 2 0 16 0 ∧
    ¬ ReadsCount splitFile splitFileSuperBlock 1 0 0 2048 := by
  have hempty : ext2GetInodeSize splitFile splitFileSuperBlock 2 = Except.ok 0 := by
    decide +kernel
  have hsize : ext2GetInodeSize splitFile splitFileSuperBlock 1 = Except.ok 2048 := by
    decide +kernel
  have hfile (before : Mem) (r : Nat × Mem) :
      ext2ReadInode splitFile splitFileSuperBlock 2 0 16 before ≠ Except.ok r :=
    ext2ReadInode_endless hempty (by decide) rfl before
  have hcount (before : Mem) (r : Nat × Mem) :
      ext2ReadInode splitFile splitFileSuperBlock 1 0 0 before ≠ Except.ok r :=
    ext2ReadInode_endless hsize (by decide) rfl before
  refine ⟨hempty, hfile, hcount, ?_, ?_⟩
  · intro h
    obtain ⟨out, hok, _⟩ := h fun _ => 0
    exact hfile _ _ hok
  · intro h
    obtain ⟨out, hok, _⟩ := h fun _ => 0
    exact hcount _ _ hok

end BiosKernel
