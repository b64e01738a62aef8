import BiosKernel.Heap.Malloc
import BiosKernel.Lib.Allocator

namespace BiosKernel
open Allocator ByteMem Checked MachineInt
set_option autoImplicit true

/-- A mounted file system: where it starts, and the bytes of the disk it is on. -/
structure FilesystemData where
  startOffset : Nat
  disk : Nat → UInt8

/-- A buffer filled from disk offset `offset` on, `read_disk` taken as exact. -/
def FilesystemData.read (fs : FilesystemData) (offset : Nat) : Mem :=
  fun i => fs.disk (u64 (offset + i))

/-- The fields of the superblock that the driver reads. -/
structure Ext2SuperBlock where
  logBlockSize : Nat
  numberOfInodesPerGroup : Nat
  magic : Nat
  inodeSize : Nat
deriving DecidableEq

/-- A superblock without the magic number is zeroed. -/
def Ext2SuperBlock.read (b : Mem) : Ext2SuperBlock :=
  if load b 56 2 ≠ 0xEF53 then ⟨0, 0, 0, 0⟩
  else ⟨load b 24 4, load b 40 4, load b 56 2, load b 88 2⟩

/-- The superblock on the disk. -/
def FilesystemData.superBlock (fs : FilesystemData) : Ext2SuperBlock :=
  .read (fs.read fs.startOffset)

/-- `1024 << log_block_size` on `int`, where the processor takes the shift count modulo 32. -/
def sBlockGetBlockSize (sb : Ext2SuperBlock) : Nat :=
  signExtend32 (u32 (1024 <<< (sb.logBlockSize % 32)))

/-- `sizeof(ext2_block_group_descriptor)`, a packed structure. -/
def sizeofBlockGroupDescriptor : Nat := 18

def iSize (inode : Mem) : Nat := load inode 4 4

def iBlock (inode : Mem) (n : Nat) : Nat := load inode (40 + 4 * n) 4

def iDirAcl (inode : Mem) : Nat := load inode 108 4

def inodeSize (inode : Mem) : Nat := iDirAcl inode <<< 32 ||| iSize inode

/-- Byte offset on disk of a block, 0 for the block number of a hole. -/
def blockOffset (fs : FilesystemData) (blockSize blockNum : Nat) : Nat :=
  if blockNum = 0 then 0 else u64 ((blockNum - 1) * blockSize + fs.startOffset)

/-! The functions of the driver, in any monad that has faults and an allocator: `alloc` and
`release` are the `malloc` and `free` of the source. -/

section Driver

variable {m : Type → Type} [Monad m] [Allocator m]

/-- `read_disk` has a temporary buffer for whole sectors. -/
def FilesystemData.readDisk (fs : FilesystemData) (offset : Nat) : m Mem := do
  let bufferTemp ← alloc
  release bufferTemp
  return fs.read offset

def ext2ReadSuperBlock (fs : FilesystemData) : m Ext2SuperBlock := do
  let b ← fs.readDisk fs.startOffset
  return .read b

/-- The `start_block_inode_table` of the descriptor, the only field the driver uses. -/
def ext2ReadBlockGroupDescriptor (fs : FilesystemData) (sb : Ext2SuperBlock) (groupNum : Nat) :
    m Nat := do
  let blockSize := sBlockGetBlockSize sb
  let bgdtOffset := u64 (fs.startOffset + if blockSize > 1024 then blockSize else 1024)
  let b ← fs.readDisk (u64 (bgdtOffset + sizeofBlockGroupDescriptor * groupNum))
  return load b 8 4

def getIndirectBlockEntry (fs : FilesystemData) (indirectBlockNum blockSize index : Nat) :
    m Nat := do
  if indirectBlockNum = 0 then return 0
  let blockTable ← alloc
  let b ← fs.readDisk (u64 ((indirectBlockNum - 1) * blockSize + fs.startOffset))
  let entriesPerBlock := u32 (blockSize / 4)
  let result := if index < entriesPerBlock then load b (4 * index) 4 else 0
  release blockTable
  return result

variable [MonadLiftT Result m]

/-- The inode as `malloc` and `read_disk` leave it: `inode_size` bytes of the disk, then zeros. It
is the caller's, and none of the callers frees it. -/
def ext2ReadInodeMetadata (fs : FilesystemData) (sb : Ext2SuperBlock) (inodeNum : Nat) :
    m Mem := do
  let index := u64 (inodeNum + 2 ^ 64 - 1)
  let blockGroupNum ← div index sb.numberOfInodesPerGroup
  let startBlock ← ext2ReadBlockGroupDescriptor fs sb blockGroupNum
  let inodeTableIndex ← mod index sb.numberOfInodesPerGroup
  let addr := u64 (u32 (startBlock + 2 ^ 32 - 1) * sBlockGetBlockSize sb +
    inodeTableIndex * sb.inodeSize)
  let _ ← alloc
  let b ← fs.readDisk (u64 (fs.startOffset + addr))
  return fun i => if i < sb.inodeSize then b i else 0

def ext2GetInodeSize (fs : FilesystemData) (sb : Ext2SuperBlock) (inodeNum : Nat) : m Nat := do
  let inode ← ext2ReadInodeMetadata fs sb inodeNum
  return inodeSize inode

/-- The cases of the block tree: 12 direct blocks, then one, two and three levels of tables. -/
def nthBlockOffset (fs : FilesystemData) (blockSize : Nat) (inode : Mem) (blockIndex : Nat) :
    m Nat := do
  -- The early returns of the source on a table number 0 give what looking up table 0 gives here.
  let addressesPerBlock := blockSize / 4
  if blockIndex < 12 then return blockOffset fs blockSize (iBlock inode blockIndex)
  let blockIndex := blockIndex - 12
  if blockIndex < addressesPerBlock then
    let singleIndirectNum := iBlock inode 12
    let blockNum ← getIndirectBlockEntry fs singleIndirectNum blockSize (u32 blockIndex)
    return blockOffset fs blockSize blockNum
  let blockIndex := blockIndex - addressesPerBlock
  let doubleCapacity := u64 (addressesPerBlock * addressesPerBlock)
  if blockIndex < doubleCapacity then
    let doubleIndirectNum := iBlock inode 13
    let outerIndex ← div blockIndex addressesPerBlock
    let innerIndex ← mod blockIndex addressesPerBlock
    let singleBlockNum ← getIndirectBlockEntry fs doubleIndirectNum blockSize (u32 outerIndex)
    let blockNum ← getIndirectBlockEntry fs singleBlockNum blockSize (u32 innerIndex)
    return blockOffset fs blockSize blockNum
  let blockIndex := blockIndex - doubleCapacity
  let tripleCapacity := u64 (doubleCapacity * addressesPerBlock)
  if blockIndex < tripleCapacity then
    let tripleIndirectNum := iBlock inode 14
    let outerIndex ← div blockIndex doubleCapacity
    let remainder ← mod blockIndex doubleCapacity
    let doubleBlockNum ← getIndirectBlockEntry fs tripleIndirectNum blockSize (u32 outerIndex)
    let outerIndex2 ← div (u32 remainder) (u32 addressesPerBlock)
    let innerIndex2 ← mod (u32 remainder) (u32 addressesPerBlock)
    let singleBlockNum ← getIndirectBlockEntry fs doubleBlockNum blockSize outerIndex2
    let blockNum ← getIndirectBlockEntry fs singleBlockNum blockSize innerIndex2
    return blockOffset fs blockSize blockNum
  return 0

def ext2GetNthBlockOffsetOfInode (fs : FilesystemData) (sb : Ext2SuperBlock)
    (inodeNum blockIndex : Nat) : m Nat := do
  let inode ← ext2ReadInodeMetadata fs sb inodeNum
  nthBlockOffset fs (sBlockGetBlockSize sb) inode blockIndex

/-- The loop of `ext2_read_inode`, with the caller's buffer as it fills. A loop that is still going
after more steps than there are offsets does not end. -/
def readInodeLoop (fs : FilesystemData) (sb : Ext2SuperBlock)
    (inodeNum offsetBytes endOffset : Nat) : Nat → Nat → Mem → m (Nat × Mem)
  | 0, _, _ => raise .endless
  | fuel + 1, curr, out =>
    if curr ≤ endOffset then do
      let blockSize := sBlockGetBlockSize sb
      let blockIndex ← div curr blockSize
      let blockStart ← ext2GetNthBlockOffsetOfInode fs sb inodeNum blockIndex
      let inBlock ← mod curr blockSize
      let readStart := u64 (blockStart + inBlock)
      let readSize := min blockSize (u64 (endOffset - curr + 1))
      let b ← fs.readDisk readStart
      let position := curr - offsetBytes
      readInodeLoop fs sb inodeNum offsetBytes endOffset fuel (u64 (curr + readSize)) fun k =>
        if position ≤ k ∧ k < position + readSize then b (k - position) else out k
    else return (u64 (curr + 2 ^ 64 - offsetBytes), out)

/-- The number of bytes reported and the caller's buffer. -/
def ext2ReadInode (fs : FilesystemData) (sb : Ext2SuperBlock)
    (inodeNum offsetBytes countBytes : Nat) (out : Mem) : m (Nat × Mem) := do
  let maxReadSize ← ext2GetInodeSize fs sb inodeNum
  let endOffset := u64 (min maxReadSize (u64 (offsetBytes + countBytes)) + 2 ^ 64 - 1)
  readInodeLoop fs sb inodeNum offsetBytes endOffset loopBound offsetBytes out

end Driver

end BiosKernel
