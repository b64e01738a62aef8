import BiosKernel.Ext2.Inode

/-! Where the divisions of the read path trap, and where its loop ends. -/

namespace BiosKernel
open Allocator ByteMem Checked MachineInt
set_option autoImplicit true

variable {fs : FilesystemData} {sb : Ext2SuperBlock}

@[simp] theorem ext2ReadSuperBlock_eq (fs : FilesystemData) :
    ext2ReadSuperBlock fs = Except.ok fs.superBlock := rfl

theorem ext2ReadInodeMetadata_trap (h : sb.numberOfInodesPerGroup = 0) (inodeNum : Nat) :
    ext2ReadInodeMetadata fs sb inodeNum = Except.error .divideError := by
  rw [ext2ReadInodeMetadata, div, if_pos h]
  rfl

theorem ext2ReadInodeMetadata_ok (fs : FilesystemData) (h : sb.numberOfInodesPerGroup ≠ 0)
    (inodeNum : Nat) : ∃ inode, ext2ReadInodeMetadata fs sb inodeNum = Except.ok inode := by
  rw [ext2ReadInodeMetadata, div_of_ne _ h, mod_of_ne _ h]
  exact ⟨_, rfl⟩

theorem inodes_of_ext2GetInodeSize (h : ext2GetInodeSize fs sb inodeNum = Except.ok size) :
    sb.numberOfInodesPerGroup ≠ 0 := by
  intro h0
  rw [ext2GetInodeSize, ext2ReadInodeMetadata_trap h0] at h
  cases h

/-- Whatever the shift count, a number of addresses that is not 0 stays so in 32 bits. -/
theorem u32_addressesPerBlock (sb : Ext2SuperBlock) (h : sBlockGetBlockSize sb / 4 ≠ 0) :
    u32 (sBlockGetBlockSize sb / 4) ≠ 0 := by
  have hall : ∀ k < 32, signExtend32 (u32 (1024 <<< k)) / 4 ≠ 0 →
      u32 (signExtend32 (u32 (1024 <<< k)) / 4) ≠ 0 := by decide
  exact hall _ (Nat.mod_lt _ (by decide)) h

theorem sBlockGetBlockSize_eq_zero_iff (sb : Ext2SuperBlock) :
    sBlockGetBlockSize sb = 0 ↔ 22 ≤ sb.logBlockSize % 32 := by
  have hall : ∀ k < 32, signExtend32 (u32 (1024 <<< k)) = 0 ↔ 22 ≤ k := by decide
  exact hall _ (Nat.mod_lt _ (by decide))

/-- The entry of a table, as the result of a lookup. -/
def indirectBlockEntry (fs : FilesystemData) (indirectBlockNum blockSize index : Nat) : Nat :=
  if indirectBlockNum = 0 then 0
  else if index < u32 (blockSize / 4) then
    load (fs.read (u64 ((indirectBlockNum - 1) * blockSize + fs.startOffset))) (4 * index) 4
  else 0

theorem getIndirectBlockEntry_eq (fs : FilesystemData) (indirectBlockNum blockSize index : Nat) :
    getIndirectBlockEntry fs indirectBlockNum blockSize index =
      Except.ok (indirectBlockEntry fs indirectBlockNum blockSize index) := by
  rw [getIndirectBlockEntry, indirectBlockEntry]
  split
  · rfl
  · rfl

/-- The divisions inside the block tree are guarded: an index below a capacity means that the
capacity is not 0. -/
theorem nthBlockOffset_ok (hu : blockSize / 4 ≠ 0 → u32 (blockSize / 4) ≠ 0) (inode : Mem)
    (blockIndex : Nat) :
    ∃ offset, nthBlockOffset fs blockSize inode blockIndex = Except.ok offset := by
  have hzero (h : blockSize / 4 = 0) : u64 (blockSize / 4 * (blockSize / 4)) = 0 := by
    rw [h]
    rfl
  rw [nthBlockOffset]
  simp only [getIndirectBlockEntry_eq, ok_bind]
  split
  · exact ⟨_, rfl⟩
  split
  · exact ⟨_, rfl⟩
  split
  · next hdouble =>
    have ha : blockSize / 4 ≠ 0 := fun h => by rw [hzero h] at hdouble; cases hdouble
    rw [div_of_ne _ ha, mod_of_ne _ ha]
    exact ⟨_, rfl⟩
  split
  · next htriple =>
    have hd : u64 (blockSize / 4 * (blockSize / 4)) ≠ 0 := by
      intro h
      rw [h, Nat.zero_mul] at htriple
      cases htriple
    have ha := hu fun h => hd (hzero h)
    rw [div_of_ne _ hd, mod_of_ne _ hd]
    simp only [div_of_ne _ ha, mod_of_ne _ ha]
    exact ⟨_, rfl⟩
  · exact ⟨_, rfl⟩

theorem ext2GetNthBlockOffsetOfInode_ok (fs : FilesystemData) (h : sb.numberOfInodesPerGroup ≠ 0)
    (inodeNum blockIndex : Nat) :
    ∃ offset, ext2GetNthBlockOffsetOfInode fs sb inodeNum blockIndex = Except.ok offset := by
  obtain ⟨inode, hinode⟩ := ext2ReadInodeMetadata_ok fs h inodeNum
  rw [ext2GetNthBlockOffsetOfInode, hinode, ok_bind]
  exact nthBlockOffset_ok (u32_addressesPerBlock sb) inode blockIndex

theorem readInodeLoop_round (hb : sBlockGetBlockSize sb ≠ 0) (hc : curr ≤ endOffset) (fuel : Nat)
    (out : Mem) : readInodeLoop fs sb inodeNum offset endOffset (fuel + 1) curr out = (do
      let blockStart ← ext2GetNthBlockOffsetOfInode fs sb inodeNum (curr / sBlockGetBlockSize sb)
      let readSize := min (sBlockGetBlockSize sb) (u64 (endOffset - curr + 1))
      readInodeLoop fs sb inodeNum offset endOffset fuel (u64 (curr + readSize)) fun k =>
        if curr - offset ≤ k ∧ k < curr - offset + readSize
        then fs.read (u64 (blockStart + curr % sBlockGetBlockSize sb)) (k - (curr - offset))
        else out k : Result (Nat × Mem)) := by
  rw [readInodeLoop, if_pos hc]
  dsimp only
  rw [div_of_ne _ hb, mod_of_ne _ hb]
  rfl

theorem readInodeLoop_trap (hb : sBlockGetBlockSize sb = 0) (hc : curr ≤ endOffset) (fuel : Nat)
    (out : Mem) : readInodeLoop fs sb inodeNum offset endOffset (fuel + 1) curr out =
      Except.error .divideError := by
  rw [readInodeLoop, if_pos hc]
  dsimp only
  rw [div, if_pos hb]
  rfl

/-- A superblock that no division traps on. -/
structure Usable (sb : Ext2SuperBlock) : Prop where
  inodes : sb.numberOfInodesPerGroup ≠ 0
  blocks : sBlockGetBlockSize sb ≠ 0

theorem ext2GetInodeSize_ok (fs : FilesystemData) (h : sb.numberOfInodesPerGroup ≠ 0)
    (inodeNum : Nat) :
    ∃ inode, ext2ReadInodeMetadata fs sb inodeNum = Except.ok inode ∧
      ext2GetInodeSize fs sb inodeNum = Except.ok (inodeSize inode) := by
  obtain ⟨inode, hok⟩ := ext2ReadInodeMetadata_ok fs h inodeNum
  exact ⟨inode, hok, by rw [ext2GetInodeSize, hok]; rfl⟩

theorem safe_ext2GetNthBlockOffsetOfInode (h : sb.numberOfInodesPerGroup ≠ 0)
    (inodeNum blockIndex : Nat) :
    Safe (ext2GetNthBlockOffsetOfInode fs sb inodeNum blockIndex) := by
  obtain ⟨offset, hok⟩ := ext2GetNthBlockOffsetOfInode_ok fs h inodeNum blockIndex
  rw [hok]
  exact safe_ok _

theorem safe_readInodeLoop (h : Usable sb) (inodeNum offset endOffset fuel curr : Nat) (out : Mem) :
    Safe (readInodeLoop fs sb inodeNum offset endOffset fuel curr out) := by
  induction fuel generalizing curr out with
  | zero => exact safe_endless
  | succ fuel ih =>
    by_cases hc : curr ≤ endOffset
    · rw [readInodeLoop_round h.blocks hc]
      exact (safe_ext2GetNthBlockOffsetOfInode h.inodes _ _).bind fun _ _ => ih _ _
    · rw [readInodeLoop, if_neg hc]
      exact safe_ok _

theorem safe_ext2ReadInode (h : Usable sb) (inodeNum offset count : Nat) (out : Mem) :
    Safe (ext2ReadInode fs sb inodeNum offset count out) := by
  obtain ⟨inode, _, hsize⟩ := ext2GetInodeSize_ok fs h.inodes inodeNum
  rw [ext2ReadInode, hsize, ok_bind]
  exact safe_readInodeLoop h _ _ _ _ _ _

/-- A read from the beginning tries a block whatever the size is. -/
theorem ext2ReadInode_trap (h : ¬ Usable sb) (inodeNum count : Nat) (out : Mem) :
    ext2ReadInode fs sb inodeNum 0 count out = Except.error .divideError := by
  rw [ext2ReadInode]
  by_cases hi : sb.numberOfInodesPerGroup = 0
  · rw [ext2GetInodeSize, ext2ReadInodeMetadata_trap hi]
    rfl
  · have hb : sBlockGetBlockSize sb = 0 := by
      by_contra hb
      exact h ⟨hi, hb⟩
    obtain ⟨inode, _, hsize⟩ := ext2GetInodeSize_ok fs hi inodeNum
    rw [hsize, ok_bind]
    exact readInodeLoop_trap hb (Nat.zero_le _) _ out

theorem readInodeLoop_next (hc : curr ≤ endOffset)
    (h : readInodeLoop fs sb inodeNum offset endOffset (fuel + 1) curr out = Except.ok r) : ∃ out₁,
      readInodeLoop fs sb inodeNum offset endOffset fuel
        (u64 (curr + min (sBlockGetBlockSize sb) (u64 (endOffset - curr + 1)))) out₁ = Except.ok r ∧
      ∀ k, curr - offset + u64 (endOffset - curr + 1) ≤ k → out₁ k = out k := by
  by_cases hb : sBlockGetBlockSize sb = 0
  · rw [readInodeLoop_trap hb hc] at h
    cases h
  · rw [readInodeLoop_round hb hc] at h
    obtain ⟨blockStart, _, hnext⟩ := of_bind_eq_ok h
    exact ⟨_, hnext, fun k hk => if_neg (by omega)⟩

/-- With the last offset at the top of the address space the loop has no way out. -/
theorem readInodeLoop_endless (hc : curr < 2 ^ 64) (out : Mem) :
    readInodeLoop fs sb inodeNum offset (2 ^ 64 - 1) fuel curr out ≠ Except.ok r := by
  induction fuel generalizing curr out with
  | zero => exact nofun
  | succ fuel ih =>
    intro h
    obtain ⟨out₁, hnext, _⟩ := readInodeLoop_next (Nat.le_sub_one_of_lt hc) h
    exact ih (u64_lt _) out₁ hnext

theorem readInodeLoop_count (hend : endOffset + 1 < 2 ^ 64)
    (h : readInodeLoop fs sb inodeNum offset endOffset fuel curr out = Except.ok (n, out')) :
    n = u64 (max curr (endOffset + 1) + 2 ^ 64 - offset) := by
  induction fuel generalizing curr out with
  | zero => cases h
  | succ fuel ih =>
    by_cases hc : curr ≤ endOffset
    · obtain ⟨out₁, hnext, _⟩ := readInodeLoop_next hc h
      have hle : u64 (curr + min (sBlockGetBlockSize sb) (u64 (endOffset - curr + 1))) ≤
          endOffset + 1 := by
        rw [u64, u64]
        omega
      rw [ih hnext, max_eq_right hle, max_eq_right (Nat.le_succ_of_le hc)]
    · rw [readInodeLoop, if_neg hc] at h
      cases h
      rw [max_eq_left (Nat.lt_of_not_le hc)]

theorem inodeSize_lt (inode : Mem) : inodeSize inode < 2 ^ 64 := by
  have hlow : iSize inode < 2 ^ 32 := load_lt inode 4 4
  have hhigh : iDirAcl inode < 2 ^ 32 := load_lt inode 108 4
  apply Nat.or_lt_two_pow
  · rw [Nat.shiftLeft_eq]
    omega
  · omega

theorem ext2GetInodeSize_lt (hs : ext2GetInodeSize fs sb inodeNum = Except.ok size) :
    size < 2 ^ 64 := by
  obtain ⟨inode, _, he⟩ := of_bind_eq_ok hs
  cases he
  exact inodeSize_lt inode

/-- A read that ends at offset 0 goes on for ever. -/
theorem ext2ReadInode_endless (hs : ext2GetInodeSize fs sb inodeNum = Except.ok size)
    (ho : offset < 2 ^ 64) (hm : min size (u64 (offset + count)) = 0) (out : Mem) :
    ext2ReadInode fs sb inodeNum offset count out ≠ Except.ok r := by
  rw [ext2ReadInode, hs, ok_bind]
  dsimp only
  rw [hm]
  exact readInodeLoop_endless ho out

theorem ext2ReadInode_eq_loop (hs : ext2GetInodeSize fs sb inodeNum = Except.ok size)
    (hm : min size (u64 (offset + count)) ≠ 0) (out : Mem) :
    ext2ReadInode fs sb inodeNum offset count out = readInodeLoop fs sb inodeNum offset
      (min size (u64 (offset + count)) - 1) loopBound offset out := by
  have hlt := u64_lt (offset + count)
  have hend : u64 (min size (u64 (offset + count)) + 2 ^ 64 - 1) =
      min size (u64 (offset + count)) - 1 := by
    rw [u64]
    omega
  rw [ext2ReadInode, hs, ok_bind]
  dsimp only
  rw [hend]

theorem ext2ReadInode_le (hs : ext2GetInodeSize fs sb inodeNum = Except.ok size)
    (ho : offset < 2 ^ 64)
    (h : ext2ReadInode fs sb inodeNum offset count out = Except.ok (n, out')) : n ≤ size := by
  by_cases hm : min size (u64 (offset + count)) = 0
  · exact absurd h (ext2ReadInode_endless hs ho hm out)
  · have hlt := u64_lt (offset + count)
    rw [ext2ReadInode_eq_loop hs hm] at h
    rw [readInodeLoop_count (by omega) h, u64]
    omega

theorem ext2ReadInode_eq_size (hs : ext2GetInodeSize fs sb inodeNum = Except.ok size)
    (hsize : size < 2 ^ 64) (h : ext2ReadInode fs sb inodeNum 0 size out = Except.ok (n, out')) :
    n = size := by
  have hcount : min size (u64 (0 + size)) = size := by
    rw [u64]
    omega
  by_cases hm : min size (u64 (0 + size)) = 0
  · exact absurd h (ext2ReadInode_endless hs (by decide) hm out)
  · rw [ext2ReadInode_eq_loop hs hm] at h
    rw [readInodeLoop_count (by omega) h, hcount, u64]
    omega

theorem readInodeLoop_outside (hend : endOffset + 1 < 2 ^ 64) (ho : offset ≤ curr)
    (h : readInodeLoop fs sb inodeNum offset endOffset fuel curr out = Except.ok (n, out'))
    (hk : endOffset < offset + k) : out' k = out k := by
  induction fuel generalizing curr out with
  | zero => cases h
  | succ fuel ih =>
    by_cases hc : curr ≤ endOffset
    · obtain ⟨out₁, hnext, hkeep⟩ := readInodeLoop_next hc h
      have hsize : u64 (endOffset - curr + 1) = endOffset - curr + 1 := Nat.mod_eq_of_lt (by omega)
      rw [hsize] at hnext hkeep
      have hcurr : u64 (curr + min (sBlockGetBlockSize sb) (endOffset - curr + 1)) =
          curr + min (sBlockGetBlockSize sb) (endOffset - curr + 1) := Nat.mod_eq_of_lt (by omega)
      rw [hcurr] at hnext
      rw [ih (by omega) hnext, hkeep k (by omega)]
    · rw [readInodeLoop, if_neg hc] at h
      cases h
      rfl

theorem ext2ReadInode_outside (hs : ext2GetInodeSize fs sb inodeNum = Except.ok size)
    (hw : offset + count < 2 ^ 64)
    (h : ext2ReadInode fs sb inodeNum offset count out = Except.ok (n, out')) (hk : count ≤ k) :
    out' k = out k := by
  by_cases hm : min size (u64 (offset + count)) = 0
  · exact absurd h (ext2ReadInode_endless hs (by omega) hm out)
  · rw [ext2ReadInode_eq_loop hs hm] at h
    rw [u64, Nat.mod_eq_of_lt hw] at h hm
    exact readInodeLoop_outside (by omega) (Nat.le_refl _) h (by omega)

end BiosKernel
