import BiosKernel.Ext2.Faults

namespace BiosKernel
open ByteMem Checked MachineInt
set_option autoImplicit true

/-- Byte `x` of the file, at its place in its own block. -/
def fileByte (fs : FilesystemData) (sb : Ext2SuperBlock) (inodeNum x : Nat) : Result UInt8 :=
  (ext2GetNthBlockOffsetOfInode fs sb inodeNum (x / sBlockGetBlockSize sb)).map fun blockStart =>
    fs.disk (u64 (blockStart + x % sBlockGetBlockSize sb))

/-- Byte `x` of the file, looked for behind the end of the block before it. -/
def overrunByte (fs : FilesystemData) (sb : Ext2SuperBlock) (inodeNum x : Nat) : Result UInt8 :=
  (ext2GetNthBlockOffsetOfInode fs sb inodeNum (x / sBlockGetBlockSize sb - 1)).map
    fun blockStart => fs.disk (u64 (blockStart + sBlockGetBlockSize sb + x % sBlockGetBlockSize sb))

/-- The file has bytes, and each of its blocks is allocated. -/
def AllAllocated (fs : FilesystemData) (sb : Ext2SuperBlock) (inodeNum size : Nat) : Prop :=
  ext2GetInodeSize fs sb inodeNum = Except.ok size ∧ ∀ b, b * sBlockGetBlockSize sb < size →
    ∃ blockStart,
      ext2GetNthBlockOffsetOfInode fs sb inodeNum b = Except.ok blockStart ∧ blockStart ≠ 0

/-- The call returns, and the buffer holds the file's bytes. -/
def ReadsFile (fs : FilesystemData) (sb : Ext2SuperBlock) (inodeNum offset count size : Nat) :
    Prop :=
  ∀ before, ∃ n out, ext2ReadInode fs sb inodeNum offset count before = Except.ok (n, out) ∧
    ∀ k < min count (size - offset), .ok (out k) = fileByte fs sb inodeNum (offset + k)

/-- The byte that the loop puts at file offset `x`: reads start every `blockSize` bytes from
`offset` on. -/
def loopByte (fs : FilesystemData) (sb : Ext2SuperBlock) (inodeNum offset x : Nat) :
    Result UInt8 :=
  let start := offset + (x - offset) / sBlockGetBlockSize sb * sBlockGetBlockSize sb
  (ext2GetNthBlockOffsetOfInode fs sb inodeNum (start / sBlockGetBlockSize sb)).map
    fun blockStart => fs.disk (u64 (blockStart + start % sBlockGetBlockSize sb + (x - start)))

theorem sBlockGetBlockSize_eq (sb : Ext2SuperBlock) (h : sb.logBlockSize ≤ 20) :
    sBlockGetBlockSize sb = 1024 * 2 ^ sb.logBlockSize := by
  have hp : 2 ^ sb.logBlockSize ≤ 2 ^ 20 := Nat.pow_le_pow_right (by decide) h
  rw [sBlockGetBlockSize, Nat.mod_eq_of_lt (by omega), Nat.shiftLeft_eq, u32,
    Nat.mod_eq_of_lt (by omega), signExtend32, if_pos (by omega)]

theorem read_apply (fs : FilesystemData) (a i : Nat) :
    fs.read (u64 a) i = fs.disk (u64 (a + i)) := by
  rw [FilesystemData.read, u64_add_u64]

variable {fs : FilesystemData} {sb : Ext2SuperBlock}

theorem loopByte_of_block (hn : ext2GetNthBlockOffsetOfInode fs sb inodeNum
      ((offset + q * sBlockGetBlockSize sb) / sBlockGetBlockSize sb) = Except.ok blockStart)
    (hi : i < sBlockGetBlockSize sb) :
    loopByte fs sb inodeNum offset (offset + q * sBlockGetBlockSize sb + i) =
      .ok (fs.read (u64 (blockStart + (offset + q * sBlockGetBlockSize sb) %
        sBlockGetBlockSize sb)) i) := by
  have hq : (offset + q * sBlockGetBlockSize sb + i - offset) / sBlockGetBlockSize sb = q := by
    rw [Nat.add_assoc, Nat.add_sub_cancel_left, Nat.mul_comm, Nat.mul_add_div (by omega),
      Nat.div_eq_of_lt hi, Nat.add_zero]
  rw [loopByte, hq, hn, Nat.add_sub_cancel_left, Except.map, read_apply]

/-- The loop returns. It leaves the bytes before `curr` alone and fills the rest up to `lim`. -/
theorem readInodeLoop_spec (fuel : Nat) (hb : 0 < sBlockGetBlockSize sb) (hlim : lim < 2 ^ 64)
    (halloc : ∀ b, b * sBlockGetBlockSize sb < lim →
      ∃ blockStart, ext2GetNthBlockOffsetOfInode fs sb inodeNum b = Except.ok blockStart)
    (hpos : 0 < lim) (hoff : offset ≤ curr) (hle : curr ≤ lim) (hfuel : lim - curr < fuel)
    (hq : curr < lim → ∃ q, curr = offset + q * sBlockGetBlockSize sb) (out : Mem) :
    ∃ n out', readInodeLoop fs sb inodeNum offset (lim - 1) fuel curr out = Except.ok (n, out') ∧
      (∀ k, offset + k < curr → out' k = out k) ∧
      ∀ k, curr ≤ offset + k → offset + k < lim →
        .ok (out' k) = loopByte fs sb inodeNum offset (offset + k) := by
  -- Every iteration but the last moves on by a whole block, so `curr` keeps its place in its block.
  induction fuel generalizing curr out with
  | zero => omega
  | succ fuel ih =>
    by_cases hc : curr ≤ lim - 1
    · obtain ⟨q, hcq⟩ := hq (by omega)
      clear hq
      have hdiv := Nat.div_mul_le_self curr (sBlockGetBlockSize sb)
      obtain ⟨blockStart, hn⟩ := halloc (curr / sBlockGetBlockSize sb) (by omega)
      have hsz : u64 (lim - 1 - curr + 1) = lim - curr := by
        rw [u64]
        omega
      obtain ⟨next, hnext⟩ : ∃ next, next = curr + min (sBlockGetBlockSize sb) (lim - curr) :=
        ⟨_, rfl⟩
      have hlt : curr < next := by omega
      have hle' : next ≤ lim := by omega
      have hq' : next < lim → ∃ q, next = offset + q * sBlockGetBlockSize sb := by
        intro hlt
        refine ⟨q + 1, ?_⟩
        rw [Nat.succ_mul, ← Nat.add_assoc, ← hcq]
        omega
      have hu : u64 next = next := Nat.mod_eq_of_lt (by omega)
      rw [readInodeLoop_round (Nat.ne_of_gt hb) hc, hn, ok_bind]
      simp only [hsz, ← hnext, hu]
      obtain ⟨n, out', hr, hbefore, hafter⟩ := ih (Nat.le_trans hoff (Nat.le_of_lt hlt)) hle'
        (by omega) hq' (fun k => if curr - offset ≤ k ∧
          k < curr - offset + min (sBlockGetBlockSize sb) (lim - curr)
          then fs.read (u64 (blockStart + curr % sBlockGetBlockSize sb)) (k - (curr - offset))
          else out k)
      refine ⟨n, out', hr, ?_, ?_⟩
      · intro k hk
        rw [hbefore k (by omega), if_neg (by omega)]
      · intro k hk hk'
        by_cases hin : offset + k < next
        · have hk₂ : offset + k = offset + q * sBlockGetBlockSize sb + (k - (curr - offset)) := by
            omega
          rw [hbefore k hin, if_pos (by omega), hk₂,
            loopByte_of_block (by rw [← hcq]; exact hn) (by omega), ← hcq]
        · exact hafter k (by omega) hk'
    · rw [readInodeLoop, if_neg hc]
      refine ⟨_, out, rfl, fun k _ => rfl, ?_⟩
      intro k hk hk'
      omega

theorem div_mod_of_eq {b : Nat} (h : x = b * q + i) (hi : i < b) : x / b = q ∧ x % b = i := by
  subst h
  rw [Nat.mul_add_div (by omega), Nat.div_eq_of_lt hi, Nat.mul_add_mod, Nat.mod_eq_of_lt hi]
  exact ⟨rfl, rfl⟩

/-- A read that starts in the middle of a block runs into the bytes behind that block. -/
theorem loopByte_eq (hb : 0 < sBlockGetBlockSize sb) (hx : offset ≤ x) :
    loopByte fs sb inodeNum offset x =
      if offset % sBlockGetBlockSize sb ≤ x % sBlockGetBlockSize sb
      then fileByte fs sb inodeNum x else overrunByte fs sb inodeNum x := by
  rw [loopByte, fileByte, overrunByte]
  generalize sBlockGetBlockSize sb = b at hb ⊢
  obtain ⟨a, r, hoff, hr⟩ : ∃ a r, offset = b * a + r ∧ r < b :=
    ⟨offset / b, offset % b, (Nat.div_add_mod offset b).symm, Nat.mod_lt _ hb⟩
  obtain ⟨q, i, hxo, hi⟩ : ∃ q i, x - offset = b * q + i ∧ i < b :=
    ⟨(x - offset) / b, (x - offset) % b, (Nat.div_add_mod _ b).symm, Nat.mod_lt _ hb⟩
  have hmul := Nat.mul_add b a q
  have hstart : offset + q * b = b * (a + q) + r := by
    rw [Nat.mul_comm q b]
    omega
  obtain ⟨hsd, hsm⟩ := div_mod_of_eq hstart hr
  have hrest : x - (b * (a + q) + r) = i := by omega
  rw [(div_mod_of_eq hxo hi).1, hsd, hsm, hstart, hrest, (div_mod_of_eq hoff hr).2]
  by_cases hlt : r + i < b
  · obtain ⟨hd, hm⟩ := div_mod_of_eq (b := b) (q := a + q) (i := r + i) (x := x) (by omega) hlt
    rw [hd, hm, if_pos (Nat.le_add_right r i)]
    simp only [Nat.add_assoc]
  · have hsucc : b * (a + q + 1) = b * (a + q) + b := Nat.mul_succ b (a + q)
    obtain ⟨hd, hm⟩ := div_mod_of_eq (b := b) (q := a + q + 1) (i := r + i - b) (x := x)
      (by omega) (by omega)
    rw [hd, hm, if_neg (by omega), Nat.add_sub_cancel]
    congr 1
    funext blockStart
    congr 2
    omega

theorem ext2ReadInode_spec (hb : 0 < sBlockGetBlockSize sb)
    (hsize : ext2GetInodeSize fs sb inodeNum = Except.ok size) (ho : offset < size) (hc : 1 ≤ count)
    (hw : offset + count < 2 ^ 64) (before : Mem) :
    ∃ n out, ext2ReadInode fs sb inodeNum offset count before = Except.ok (n, out) ∧
      ∀ k < min count (size - offset),
        .ok (out k) = loopByte fs sb inodeNum offset (offset + k) := by
  have hend : min size (u64 (offset + count)) = min size (offset + count) := by
    rw [u64, Nat.mod_eq_of_lt hw]
  have hall (b : Nat) : b * sBlockGetBlockSize sb < min size (offset + count) →
      ∃ blockStart, ext2GetNthBlockOffsetOfInode fs sb inodeNum b = Except.ok blockStart := by
    intro _
    exact ext2GetNthBlockOffsetOfInode_ok fs (inodes_of_ext2GetInodeSize hsize) inodeNum b
  obtain ⟨n, out, hr, _, hout⟩ := readInodeLoop_spec loopBound hb (by omega) hall
    (by omega) (Nat.le_refl offset) (by omega) (by rw [loopBound]; omega)
    (fun _ => ⟨0, by omega⟩) before
  refine ⟨n, out, ?_, ?_⟩
  · rw [ext2ReadInode_eq_loop hsize (by omega), hend]
    exact hr
  · intro k hk
    exact hout k (Nat.le_add_right offset k) (by omega)

theorem ReadsFile.overrun_eq (hb : 0 < sBlockGetBlockSize sb)
    (ha : AllAllocated fs sb inodeNum size) (ho : offset < size) (hc : 1 ≤ count)
    (hw : offset + count < 2 ^ 64) (h : ReadsFile fs sb inodeNum offset count size)
    (hx : offset ≤ x) (hx' : x < min size (offset + count))
    (hlt : x % sBlockGetBlockSize sb < offset % sBlockGetBlockSize sb) :
    overrunByte fs sb inodeNum x = fileByte fs sb inodeNum x := by
  obtain ⟨n, out, hr, hout⟩ := h fun _ => 0
  obtain ⟨n', out', hr', hout'⟩ := ext2ReadInode_spec hb ha.1 ho hc hw fun _ => 0
  cases hr.symm.trans hr'
  obtain ⟨k, rfl⟩ : ∃ k, x = offset + k := ⟨x - offset, by omega⟩
  have hl := hout' k (by omega)
  rw [loopByte_eq hb hx, if_neg (Nat.not_le_of_lt hlt)] at hl
  exact hl.symm.trans (hout k (by omega))

/-- The file's bytes arrive exactly when every byte that a read finds behind the block it started
in is the byte the file has there. Reads that start on a block boundary find none. -/
theorem readsFile_iff (hlog : sb.logBlockSize ≤ 20) (ha : AllAllocated fs sb inodeNum size)
    (ho : offset < size) (hc : 1 ≤ count) (hw : offset + count < 2 ^ 64) :
    ReadsFile fs sb inodeNum offset count size ↔
      ∀ x, offset ≤ x → x < min size (offset + count) →
        x % sBlockGetBlockSize sb < offset % sBlockGetBlockSize sb →
        overrunByte fs sb inodeNum x = fileByte fs sb inodeNum x := by
  have hb : 0 < sBlockGetBlockSize sb := by
    rw [sBlockGetBlockSize_eq sb hlog]
    exact Nat.mul_pos (by decide) (Nat.two_pow_pos _)
  constructor
  · intro h x hx hx' hlt
    exact h.overrun_eq hb ha ho hc hw hx hx' hlt
  · intro h before
    obtain ⟨n, out, hr, hout⟩ := ext2ReadInode_spec hb ha.1 ho hc hw before
    refine ⟨n, out, hr, ?_⟩
    intro k hk
    rw [hout k hk, loopByte_eq hb (Nat.le_add_right offset k)]
    split
    · rfl
    · next hlt => exact h _ (Nat.le_add_right offset k) (by omega) (Nat.lt_of_not_le hlt)

/-- One inode whose two blocks lie apart: the first at 10240, the second, all ones, at 20480. -/
def splitFile : FilesystemData where
  startOffset := 1024
  disk x :=
    if x = 2056 then 4
    else if x = 4101 then 8
    else if x = 4136 then 10
    else if x = 4140 then 20
    else if 20480 ≤ x ∧ x < 21504 then 1
    else 0

def splitFileSuperBlock : Ext2SuperBlock := ⟨0, 8, 0xEF53, 128⟩

theorem splitFile_allAllocated : AllAllocated splitFile splitFileSuperBlock 1 2048 := by
  have hs : sBlockGetBlockSize splitFileSuperBlock = 1024 := by decide
  refine ⟨by decide +kernel, ?_⟩
  intro b hb
  rw [hs] at hb
  obtain rfl | rfl : b = 0 ∨ b = 1 := by omega
  · exact ⟨10240, by decide +kernel, by decide⟩
  · exact ⟨20480, by decide +kernel, by decide⟩

theorem splitFile_read_whole : ReadsFile splitFile splitFileSuperBlock 1 0 2048 2048 := by
  apply (readsFile_iff (by decide) splitFile_allAllocated (by decide) (by decide) (by decide)).mpr
  intro x _ _ hlt
  exact absurd hlt (Nat.not_lt_zero _)

/-- Of 1024 bytes from offset 1, the last one comes from behind the first block. -/
theorem splitFile_read_unaligned : AllAllocated splitFile splitFileSuperBlock 1 2048 ∧
    ¬ ReadsFile splitFile splitFileSuperBlock 1 1 1024 2048 := by
  refine ⟨splitFile_allAllocated, ?_⟩
  intro h
  have hx := h.overrun_eq (x := 1024) (by decide) splitFile_allAllocated (by decide) (by decide)
    (by decide) (by decide) (by decide) (by decide)
  have ho : overrunByte splitFile splitFileSuperBlock 1 1024 = .ok 0 := by decide +kernel
  have hf : fileByte splitFile splitFileSuperBlock 1 1024 = .ok 1 := by decide +kernel
  rw [ho, hf] at hx
  cases hx

end BiosKernel
