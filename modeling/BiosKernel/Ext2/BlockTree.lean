import BiosKernel.Ext2.ReadInode
import Mathlib.Data.Set.Function
import Mathlib.Order.Interval.Set.Defs

/-! The block tree of an inode: where each block index stands in it, and what block it leads to. -/

namespace BiosKernel
open ByteMem Checked MachineInt
set_option autoImplicit true

/-- A place in the block tree: a pointer of the inode, or the indices into the tables that lead
from `i_block[12]`, `i_block[13]` or `i_block[14]`. -/
inductive TreePosition where
  | direct (b : Nat)
  | single (r : Nat)
  | double (q r : Nat)
  | triple (q r s : Nat)
deriving DecidableEq

namespace TreePosition

/-- The places of a tree with `a` pointers in a table. -/
def InTree (a : Nat) : TreePosition → Prop
  | direct b => b < 12
  | single r => r < a
  | double q r => q < a ∧ r < a
  | triple q r s => q < a ∧ r < a ∧ s < a

/-- The number of places before this one. -/
def blockIndex (a : Nat) : TreePosition → Nat
  | direct b => b
  | single r => 12 + r
  | double q r => 12 + a + (a * q + r)
  | triple q r s => 12 + a + a ^ 2 + (a * (a * q + r) + s)

end TreePosition

/-- The place of a block index: the direct pointers, then the tables level by level. -/
def treePosition (a b : Nat) : Option TreePosition :=
  if b < 12 then some (.direct b)
  else if b < 12 + a then some (.single (b - 12))
  else if b < 12 + a + a ^ 2 then
    let k := b - (12 + a)
    some (.double (k / a) (k % a))
  else if b < 12 + a + a ^ 2 + a ^ 3 then
    let k := b - (12 + a + a ^ 2)
    some (.triple (k / a / a) (k / a % a) (k % a))
  else none

/-- A block pointer, none if it is 0. -/
def pointer (n : Nat) : Option Nat := if n = 0 then none else some n

/-- Where block `n` starts on the disk. -/
def diskOffset (fs : FilesystemData) (blockSize n : Nat) : Nat :=
  u64 ((n - 1) * blockSize + fs.startOffset)

/-- Entry `i` of the table in block `n`. -/
def tableEntry (fs : FilesystemData) (blockSize i n : Nat) : Option Nat :=
  pointer (load (fs.read (diskOffset fs blockSize n)) (4 * i) 4)

/-- The block at a place of the tree, none if a pointer on the way is 0. -/
def TreePosition.walk (fs : FilesystemData) (blockSize : Nat) (inode : Mem) :
    TreePosition → Option Nat
  | direct b => pointer (iBlock inode b)
  | single r => (pointer (iBlock inode 12)).bind (tableEntry fs blockSize r)
  | double q r => ((pointer (iBlock inode 13)).bind (tableEntry fs blockSize q)).bind
      (tableEntry fs blockSize r)
  | triple q r s => (((pointer (iBlock inode 14)).bind (tableEntry fs blockSize q)).bind
      (tableEntry fs blockSize r)).bind (tableEntry fs blockSize s)

/-- The block that the reference walk reaches for a block index. -/
def treeBlock (fs : FilesystemData) (blockSize : Nat) (inode : Mem) (blockIndex : Nat) :
    Option Nat :=
  (treePosition (blockSize / 4) blockIndex).bind (TreePosition.walk fs blockSize inode)

/-- The call returns where the block of the reference walk starts, and 0 just if there is none. -/
def RefinesTree (fs : FilesystemData) (sb : Ext2SuperBlock) (inodeNum blockIndex : Nat) : Prop :=
  ∃ inode offset, ext2ReadInodeMetadata fs sb inodeNum = Except.ok inode ∧
    ext2GetNthBlockOffsetOfInode fs sb inodeNum blockIndex = Except.ok offset ∧
    (∀ n, treeBlock fs (sBlockGetBlockSize sb) inode blockIndex = some n →
      offset = diskOffset fs (sBlockGetBlockSize sb) n) ∧
    (offset = 0 ↔ treeBlock fs (sBlockGetBlockSize sb) inode blockIndex = none)

section Positions

/-- A digit below `a` written behind a number below `n`. -/
theorem pair_lt {a q r : Nat} (hq : q < n) (hr : r < a) : a * q + r < a * n := by
  have h : a * (q + 1) ≤ a * n := Nat.mul_le_mul_left a hq
  rw [Nat.mul_succ] at h
  omega

theorem treePosition_inTree {p : TreePosition} (h : treePosition a b = some p) :
    p.InTree a ∧ p.blockIndex a = b := by
  have h3 := pow_three a
  have h2 := Nat.pow_two a
  rw [treePosition] at h
  split at h
  · cases h
    exact ⟨‹_›, rfl⟩
  split at h
  · cases h
    refine ⟨?_, ?_⟩
    · show b - 12 < a
      omega
    · show 12 + (b - 12) = b
      omega
  split at h
  · cases h
    have hk : b - (12 + a) < a * a := by omega
    have ha : 0 < a := Nat.pos_of_ne_zero fun h0 => by rw [h0] at hk; omega
    refine ⟨⟨Nat.div_lt_of_lt_mul hk, Nat.mod_lt _ ha⟩, ?_⟩
    rw [TreePosition.blockIndex, Nat.div_add_mod]
    omega
  split at h
  · cases h
    have hk : b - (12 + a + a ^ 2) < a * (a * a) := by omega
    have ha : 0 < a := Nat.pos_of_ne_zero fun h0 => by rw [h0] at hk; omega
    have hq := Nat.div_lt_of_lt_mul hk
    refine ⟨⟨Nat.div_lt_of_lt_mul hq, Nat.mod_lt _ ha, Nat.mod_lt _ ha⟩, ?_⟩
    rw [TreePosition.blockIndex, Nat.div_add_mod, Nat.div_add_mod]
    omega
  · cases h

theorem treePosition_blockIndex {p : TreePosition} (hp : p.InTree a) :
    treePosition a (p.blockIndex a) = some p := by
  have h3 := pow_three a
  have h2 := Nat.pow_two a
  cases p with
  | direct b => exact if_pos hp
  | single r =>
    have hr : r < a := hp
    rw [treePosition, TreePosition.blockIndex, if_neg (by omega), if_pos (by omega),
      Nat.add_sub_cancel_left]
  | double q r =>
    have hlt := pair_lt hp.1 hp.2
    obtain ⟨hd, hm⟩ := div_mod_of_eq (x := a * q + r) rfl hp.2
    rw [treePosition, TreePosition.blockIndex, if_neg (by omega), if_neg (by omega),
      if_pos (by omega)]
    dsimp only
    rw [Nat.add_sub_cancel_left, hd, hm]
  | triple q r s =>
    have hlt := pair_lt (pair_lt hp.1 hp.2.1) hp.2.2
    obtain ⟨hd, hm⟩ := div_mod_of_eq (x := a * (a * q + r) + s) rfl hp.2.2
    obtain ⟨hd', hm'⟩ := div_mod_of_eq (x := a * q + r) rfl hp.2.1
    rw [treePosition, TreePosition.blockIndex, if_neg (by omega), if_neg (by omega),
      if_neg (by omega), if_pos (by omega)]
    dsimp only
    rw [Nat.add_sub_cancel_left, hd, hm, hd', hm']

theorem treePosition_eq_some_iff {p : TreePosition} :
    treePosition a b = some p ↔ p.InTree a ∧ p.blockIndex a = b := by
  refine ⟨treePosition_inTree, ?_⟩
  rintro ⟨hp, rfl⟩
  exact treePosition_blockIndex hp

theorem treePosition_eq_none_iff : treePosition a b = none ↔ 12 + a + a ^ 2 + a ^ 3 ≤ b := by
  rw [treePosition]
  split_ifs <;> simp only [false_iff, true_iff] <;> omega

theorem treePosition_bijOn (a : Nat) : Set.BijOn (treePosition a)
    (Set.Iio (12 + a + a ^ 2 + a ^ 3)) (some '' {p | p.InTree a}) := by
  have hsome (b : Nat) (hb : b < 12 + a + a ^ 2 + a ^ 3) : ∃ p, treePosition a b = some p :=
    Option.ne_none_iff_exists'.mp fun h => absurd (treePosition_eq_none_iff.mp h) (by omega)
  refine ⟨?_, ?_, ?_⟩
  · intro b hb
    obtain ⟨p, hp⟩ := hsome b hb
    exact ⟨p, (treePosition_eq_some_iff.mp hp).1, hp.symm⟩
  · intro b hb c hc hbc
    obtain ⟨p, hp⟩ := hsome b hb
    have hb' := (treePosition_eq_some_iff.mp hp).2
    have hc' := (treePosition_eq_some_iff.mp (hbc.symm.trans hp)).2
    exact hb'.symm.trans hc'
  · rintro _ ⟨p, hp, rfl⟩
    have hpos := treePosition_eq_some_iff.mpr ⟨hp, rfl⟩
    refine ⟨p.blockIndex a, ?_, hpos⟩
    refine Nat.lt_of_not_le fun hle => ?_
    rw [treePosition_eq_none_iff.mpr hle] at hpos
    cases hpos

end Positions

section Walk

variable {fs : FilesystemData}

theorem blockOffset_eq (fs : FilesystemData) (blockSize n : Nat) :
    blockOffset fs blockSize n = (pointer n).elim 0 (diskOffset fs blockSize) := by
  rw [blockOffset, pointer]
  split <;> rfl

/-- Looking up an entry of table 0 gives 0, and so does looking up nothing. -/
theorem pointer_indirectBlockEntry (hi : i < blockSize / 4) (hu : blockSize / 4 < 2 ^ 32)
    (n : Nat) :
    pointer (indirectBlockEntry fs n blockSize i) =
      (pointer n).bind (tableEntry fs blockSize i) := by
  rw [indirectBlockEntry, pointer.eq_1 n]
  split
  · rfl
  · rw [u32, Nat.mod_eq_of_lt hu, if_pos hi]
    rfl

/-- The capacities and indices of a tree with at most `2 ^ 14` pointers in a table fit their
types. -/
structure Fits (a : Nat) : Prop where
  double : u64 (a * a) = a ^ 2
  triple : u64 (a ^ 2 * a) = a ^ 3
  index : ∀ x, x < a * a ∨ x ≤ a → u32 x = x

theorem Fits.of_le (h : a ≤ 2 ^ 14) : Fits a := by
  have h2 : a * a ≤ 2 ^ 14 * 2 ^ 14 := Nat.mul_le_mul h h
  have h3 : a * (a * a) ≤ 2 ^ 14 * (2 ^ 14 * 2 ^ 14) := Nat.mul_le_mul h h2
  refine ⟨?_, ?_, ?_⟩
  · rw [Nat.pow_two, u64, Nat.mod_eq_of_lt (by omega)]
  · rw [Nat.pow_two, Nat.mul_comm, pow_three, u64, Nat.mod_eq_of_lt (by omega)]
  · intro x hx
    exact Nat.mod_eq_of_lt (by omega)

theorem checked_div_mod {b : Nat} (h : x = b * q + i) (hi : i < b) :
    div x b = .ok q ∧ mod x b = .ok i := by
  obtain ⟨hd, hm⟩ := div_mod_of_eq h hi
  rw [div_of_ne _ (Nat.ne_zero_of_lt hi), mod_of_ne _ (Nat.ne_zero_of_lt hi), hd, hm]
  exact ⟨rfl, rfl⟩

/-- The source subtracts the capacities one by one and ends at the place of the index. -/
theorem nthBlockOffset_blockIndex {p : TreePosition} (hA : blockSize / 4 = a) (ha : a ≤ 2 ^ 14)
    (hp : p.InTree a) (inode : Mem) : nthBlockOffset fs blockSize inode (p.blockIndex a) =
      Except.ok ((p.walk fs blockSize inode).elim 0 (diskOffset fs blockSize)) := by
  have hfits := Fits.of_le ha
  have hu := hfits.index
  have hentry (n : Nat) (i : Nat) (hi : i < a) :
      pointer (indirectBlockEntry fs n blockSize i) =
        (pointer n).bind (tableEntry fs blockSize i) :=
    pointer_indirectBlockEntry (hA.symm ▸ hi) (by omega) n
  rw [nthBlockOffset]
  simp only [hA, hfits.double, hfits.triple, hu a (.inr (Nat.le_refl a)), blockOffset_eq,
    getIndirectBlockEntry_eq, ok_bind]
  cases p with
  | direct b => exact if_pos hp
  | single r =>
    have hr : r < a := hp
    rw [TreePosition.blockIndex, if_neg (by omega), Nat.add_sub_cancel_left, if_pos hr,
      hu r (by omega), hentry _ r hr]
    rfl
  | double q r =>
    obtain ⟨hq, hr⟩ := hp
    have hlt : a * q + r < a ^ 2 := Nat.pow_two a ▸ pair_lt hq hr
    have hsub : 12 + a + (a * q + r) - 12 - a = a * q + r := by omega
    obtain ⟨hd, hm⟩ := checked_div_mod (x := a * q + r) rfl hr
    rw [TreePosition.blockIndex, if_neg (by omega), if_neg (by omega), hsub, if_pos hlt, hd, hm]
    simp only [liftM_self, ok_bind]
    rw [hu q (by omega), hu r (by omega), hentry _ r hr, hentry _ q hq]
    rfl
  | triple q r s =>
    obtain ⟨hq, hr, hs⟩ := hp
    have hrest : a * r + s < a ^ 2 := Nat.pow_two a ▸ pair_lt hr hs
    have hlt : a ^ 2 * q + (a * r + s) < a ^ 3 := pair_lt hq hrest
    have hsum : a * (a * q + r) + s = a ^ 2 * q + (a * r + s) := by
      rw [Nat.mul_add, ← Nat.mul_assoc, ← Nat.pow_two, Nat.add_assoc]
    have hsub : 12 + a + a ^ 2 + (a ^ 2 * q + (a * r + s)) - 12 - a - a ^ 2 =
        a ^ 2 * q + (a * r + s) := by omega
    obtain ⟨hd, hm⟩ := checked_div_mod (x := a ^ 2 * q + (a * r + s)) rfl hrest
    obtain ⟨hd', hm'⟩ := checked_div_mod (x := a * r + s) rfl hs
    rw [TreePosition.blockIndex, hsum, if_neg (by omega), if_neg (by omega), if_neg (by omega),
      hsub, if_pos hlt, hd, hm]
    simp only [liftM_self, ok_bind, hu (a * r + s) (.inl (pair_lt hr hs)), hd', hm']
    rw [hu q (by omega), hentry _ s hs, hentry _ r hr, hentry _ q hq]
    rfl

theorem nthBlockOffset_eq (ha : blockSize / 4 ≤ 2 ^ 14) (inode : Mem) (blockIndex : Nat) :
    nthBlockOffset fs blockSize inode blockIndex =
      Except.ok ((treeBlock fs blockSize inode blockIndex).elim 0 (diskOffset fs blockSize)) := by
  rw [treeBlock]
  cases hp : treePosition (blockSize / 4) blockIndex with
  | none =>
    have hle := treePosition_eq_none_iff.mp hp
    have hfits := Fits.of_le ha
    rw [nthBlockOffset]
    simp only [hfits.double, hfits.triple]
    rw [if_neg (by omega), if_neg (by omega), if_neg (by omega), if_neg (by omega)]
    rfl
  | some p =>
    obtain ⟨hin, rfl⟩ := treePosition_eq_some_iff.mp hp
    exact nthBlockOffset_blockIndex rfl ha hin inode

end Walk

theorem addressesPerBlock_le (h : sb.logBlockSize ≤ 6) : sBlockGetBlockSize sb / 4 ≤ 2 ^ 14 := by
  have hp : 2 ^ sb.logBlockSize ≤ 2 ^ 6 := Nat.pow_le_pow_right (by decide) h
  rw [sBlockGetBlockSize_eq sb (by omega)]
  omega

theorem ext2GetNthBlockOffsetOfInode_eq (h : sb.logBlockSize ≤ 6)
    (hinode : ext2ReadInodeMetadata fs sb inodeNum = Except.ok inode) (blockIndex : Nat) :
    ext2GetNthBlockOffsetOfInode fs sb inodeNum blockIndex =
      Except.ok ((treeBlock fs (sBlockGetBlockSize sb) inode blockIndex).elim 0
        (diskOffset fs (sBlockGetBlockSize sb))) := by
  rw [ext2GetNthBlockOffsetOfInode, hinode, ok_bind,
    nthBlockOffset_eq (addressesPerBlock_le h)]

theorem refinesTree_iff (hinode : ext2ReadInodeMetadata fs sb inodeNum = Except.ok inode)
    (hcall : ext2GetNthBlockOffsetOfInode fs sb inodeNum blockIndex =
      Except.ok ((treeBlock fs (sBlockGetBlockSize sb) inode blockIndex).elim 0
        (diskOffset fs (sBlockGetBlockSize sb)))) :
    RefinesTree fs sb inodeNum blockIndex ↔
      ∀ n, treeBlock fs (sBlockGetBlockSize sb) inode blockIndex = some n →
        diskOffset fs (sBlockGetBlockSize sb) n ≠ 0 := by
  constructor
  · rintro ⟨inode', offset, hinode', _, hblock, hzero⟩ n hn h0
    cases hinode.symm.trans hinode'
    rw [hzero.mp ((hblock n hn).trans h0)] at hn
    cases hn
  · intro hoff
    refine ⟨inode, _, hinode, hcall, ?_, ?_⟩
    · intro n hn
      rw [hn]
      rfl
    · cases hn : treeBlock fs (sBlockGetBlockSize sb) inode blockIndex with
      | none => exact ⟨fun _ => rfl, fun _ => rfl⟩
      | some n => exact ⟨fun h0 => absurd h0 (hoff n hn), fun h => nomatch h⟩

/-- The call returns where the block of the reference walk starts, and 0 if there is none. Only a
block at byte 0 of the disk cannot be told from a hole. The indices fill the places of the tree,
each one once. -/
theorem nthBlockOffset_refines (h : sb.logBlockSize ≤ 6) (hi : sb.numberOfInodesPerGroup ≠ 0)
    (fs : FilesystemData) (inodeNum blockIndex : Nat) :
    (∃ inode offset, ext2ReadInodeMetadata fs sb inodeNum = Except.ok inode ∧
      ext2GetNthBlockOffsetOfInode fs sb inodeNum blockIndex = Except.ok offset ∧
      (∀ n, treeBlock fs (sBlockGetBlockSize sb) inode blockIndex = some n →
        offset = diskOffset fs (sBlockGetBlockSize sb) n) ∧
      (treeBlock fs (sBlockGetBlockSize sb) inode blockIndex = none → offset = 0) ∧
      (RefinesTree fs sb inodeNum blockIndex ↔
        ∀ n, treeBlock fs (sBlockGetBlockSize sb) inode blockIndex = some n →
          diskOffset fs (sBlockGetBlockSize sb) n ≠ 0)) ∧
    ∀ a, a = sBlockGetBlockSize sb / 4 →
      (treePosition a blockIndex = none ↔ 12 + a + a ^ 2 + a ^ 3 ≤ blockIndex) ∧
      Set.BijOn (treePosition a) (Set.Iio (12 + a + a ^ 2 + a ^ 3)) (some '' {p | p.InTree a}) := by
  refine ⟨?_, fun a _ => ⟨treePosition_eq_none_iff, treePosition_bijOn a⟩⟩
  obtain ⟨inode, hinode⟩ := ext2ReadInodeMetadata_ok fs hi inodeNum
  have hcall := ext2GetNthBlockOffsetOfInode_eq h hinode blockIndex
  refine ⟨inode, _, hinode, hcall, ?_, ?_, refinesTree_iff hinode hcall⟩
  · intro n hn
    rw [hn]
    rfl
  · intro hn
    rw [hn]
    rfl

/-- A disk of 1024-byte blocks with one inode. Its first pointer is block 1, and from
`i_block[13]` the tables in blocks 10 and 11 lead to block 12. -/
def smallTree (startOffset : Nat) : FilesystemData where
  startOffset := startOffset
  disk i :=
    if i = startOffset + 1032 then 3
    else if i = startOffset + 2088 then 1
    else if i = startOffset + 2140 then 10
    else if i = startOffset + 9224 then 11
    else if i = startOffset + 10252 then 12
    else 0

theorem refinesTree_smallTree : RefinesTree (smallTree 0x400) splitFileSuperBlock 1 783 ∧
    ext2GetNthBlockOffsetOfInode (smallTree 0x400) splitFileSuperBlock 1 783 = Except.ok 12288 := by
  have hlog : splitFileSuperBlock.logBlockSize ≤ 6 := by decide
  obtain ⟨⟨inode, _, hinode, _, _, _, hrefines⟩, _⟩ :=
    nthBlockOffset_refines hlog (by decide) (smallTree 0x400) 1 783
  cases hinode
  refine ⟨hrefines.mpr ?_, by decide +kernel⟩
  intro n hn
  have h12 : n = 12 := Option.some.inj (hn.symm.trans (by decide +kernel))
  rw [h12]
  decide +kernel

/-- Block 1 of a file system at the start of the disk is taken for a hole. Without inodes the
call traps. -/
theorem offset_zero_taken_for_hole :
    (ext2GetNthBlockOffsetOfInode (smallTree 0) splitFileSuperBlock 1 0 = Except.ok 0 ∧
      ¬ RefinesTree (smallTree 0) splitFileSuperBlock 1 0) ∧
    ext2GetNthBlockOffsetOfInode (smallTree 0) ⟨0, 0, 0xEF53, 128⟩ 1 0 = Except.error .divideError ∧
      ¬ RefinesTree (smallTree 0) ⟨0, 0, 0xEF53, 128⟩ 1 0 := by
  have hzero :
      ext2GetNthBlockOffsetOfInode (smallTree 0) splitFileSuperBlock 1 0 = Except.ok 0 := by
    decide +kernel
  refine ⟨⟨hzero, ?_⟩, rfl, ?_⟩
  · rintro ⟨inode, offset, hi, ho, _, h0⟩
    cases hi
    cases hzero.symm.trans ho
    exact absurd (h0.mp rfl) (by decide +kernel)
  · rintro ⟨inode, offset, hi, _⟩
    cases hi

end BiosKernel
