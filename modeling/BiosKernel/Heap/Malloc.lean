import BiosKernel.Lib.Bytes
import BiosKernel.Lib.Linked
import BiosKernel.Lib.MachineInt
import BiosKernel.Lib.Runs

namespace BiosKernel
open ByteMem MachineInt
set_option autoImplicit true

/-- Round up to a multiple of the alignment, in `uint64_t` arithmetic. -/
def aalign (addr alignment : Nat) : Nat :=
  if alignment = 0 ∨ addr % alignment = 0 then addr
  else u64 ((addr / alignment + 1) * alignment)

def aalignDown (addr alignment : Nat) : Nat :=
  if alignment = 0 ∨ addr % alignment = 0 then addr
  else addr / alignment * alignment

/-- `HEAP_CHUNK_MIN_SIZE_BYTES`. -/
def heapChunkMinSizeBytes : Nat := 64

/-- `sizeof(malloc_chunk)`: the packed header of a chunk. -/
def sizeofMallocChunk : Nat := 32

/-- `sizeof(malloc_state)`, padding included. -/
def sizeofMallocState : Nat := 64

structure MallocChunk where
  mchunkPrevSize : Nat
  mchunkSize : Nat
  fd : Nat
  bk : Nat
  data : Nat

def chunkSize (m : Mem) (c : Nat) : Nat := load m (c + 4) 4

def chunkFd (m : Mem) (c : Nat) : Nat := load m (c + 8) 8

def chunkBk (m : Mem) (c : Nat) : Nat := load m (c + 16) 8

def chunkData (m : Mem) (c : Nat) : Nat := load m (c + 24) 8

def setFd (m : Mem) (c v : Nat) : Mem := store m (c + 8) 8 v

def setBk (m : Mem) (c v : Nat) : Mem := store m (c + 16) 8 v

def MallocChunk.read (m : Mem) (c : Nat) : MallocChunk where
  mchunkPrevSize := load m c 4
  mchunkSize := chunkSize m c
  fd := chunkFd m c
  bk := chunkBk m c
  data := chunkData m c

/-- The `memcpy` of a whole header. -/
def MallocChunk.write (h : MallocChunk) (m : Mem) (c : Nat) : Mem :=
  let m := store m c 4 h.mchunkPrevSize
  let m := store m (c + 4) 4 h.mchunkSize
  let m := setFd m c h.fd
  let m := setBk m c h.bk
  store m (c + 24) 8 h.data

-- The fields of `malloc_state`, which lies at `g_heap_malloc_state_base`.

def heapEnd (g : Nat) (m : Mem) : Nat := load m (g + 8) 8

def heapTotalSize (g : Nat) (m : Mem) : Nat := load m (g + 16) 8

def mchunk (g : Nat) (m : Mem) : Nat := load m (g + 24) 8

def unsortedBinHead (g : Nat) (m : Mem) : Nat := load m (g + 32) 8

def brk (g : Nat) (m : Mem) (endDataSegment : Nat) : Mem := store m (g + 8) 8 endDataSegment

/-- The header written by `init_heap`, and its address. The page mapping done on request of the
caller does not touch the bytes; the local's uninitialised `heap_end` is overwritten by `brk`. -/
def initHeap (m : Mem) (baseAddr size : Nat) : Nat × Mem :=
  let g := aalign baseAddr heapChunkMinSizeBytes
  let m := store m g 8 g
  let m := store m (g + 16) 8 (aalign size heapChunkMinSizeBytes)
  let m := store m (g + 24) 8 0
  let m := store m (g + 32) 8 0
  let m := fill m (g + 40) 0 24
  (g, brk g m (u64 (g + sizeofMallocState)))

/-- The old break and the memory with the break moved up. No limit is checked. -/
def sbrk (g : Nat) (m : Mem) (increment : Nat) : Nat × Mem :=
  let oldBreak := heapEnd g m
  (oldBreak, brk g m (u64 (oldBreak + aalign increment heapChunkMinSizeBytes)))

/-- Iterations allowed to a list walk. A walk over 64-bit pointers that is still going after this
many has met some chunk twice and never ends. -/
def loopBound : Nat := 2 ^ 64 + 1

/-- Take `cur` out of the list whose head pointer is stored at `head`. Both list operations of the
allocator use these statements, each on its own head field. -/
def unlink (m : Mem) (head cur : Nat) : Mem :=
  let m :=
    if chunkBk m cur ≠ 0 then setFd m (chunkBk m cur) (chunkFd m cur)
    else store m head 8 (chunkFd m cur)
  if chunkFd m cur ≠ 0 then setBk m (chunkFd m cur) (chunkBk m cur) else m

/-- What `malloc` knows when it returns `new_mchunk.data`. -/
structure Allocation where
  foundFree : Bool
  newAddr : Nat
  newMchunk : MallocChunk
  mem : Mem

/-- The part of `malloc` after the search: link at the front of the allocated list, write the
header of a new chunk, clear the payload. A reused chunk gets only its `fd` written back. -/
def linkAllocated (g : Nat) (m : Mem) (foundFree : Bool) (newAddr : Nat) (new : MallocChunk) :
    Allocation :=
  let newMchunk := { new with bk := 0, fd := mchunk g m }
  let m := if newMchunk.fd ≠ 0 then setBk m newMchunk.fd newAddr else m
  let m := store m (g + 24) 8 newAddr
  let m := if foundFree then m else newMchunk.write m newAddr
  let m := fill m newMchunk.data 0 (u64 (newMchunk.mchunkSize + 2 ^ 64 - sizeofMallocChunk))
  { foundFree, newAddr, newMchunk, mem := setFd m newAddr newMchunk.fd }

/-- The first chunk of the unsorted bin that can take `size` bytes. `none` is a search that never
ends. -/
def searchFree (g : Nat) (m : Mem) (size : Nat) : Option (Option Nat) :=
  Linked.search 0 (chunkFd m) (fun cur => decide (u64 (size + sizeofMallocChunk) ≤ chunkSize m cur))
    loopBound (unsortedBinHead g m)

def reuseChunk (g : Nat) (m : Mem) (cur : Nat) : Allocation :=
  let newMchunk := { MallocChunk.read m cur with mchunkPrevSize := 0 }
  linkAllocated g (unlink m (g + 32) cur) true cur newMchunk

def expandHeap (g : Nat) (m : Mem) (size : Nat) : Allocation :=
  let dataSize := max (heapChunkMinSizeBytes - sizeofMallocChunk) size
  let mchunkSize := u32 (sizeofMallocChunk + dataSize)
  let (newAddr, m) := sbrk g m mchunkSize
  let data := u64 (newAddr + sizeofMallocChunk)
  linkAllocated g m false newAddr { mchunkPrevSize := 0, mchunkSize, fd := 0, bk := 0, data }

def malloc (g : Nat) (m : Mem) (size : Nat) : Option Allocation :=
  let size := aalign size 0x10
  match searchFree g m size with
  | none => none
  | some (some cur) => some (reuseChunk g m cur)
  | some none => some (expandHeap g m size)

/-- `none` is a walk of the allocated list that never ends. -/
def free (g : Nat) (m : Mem) (ptr : Nat) : Option Mem :=
  match Linked.search 0 (chunkFd m) (fun cur => decide (chunkData m cur = ptr)) loopBound
      (mchunk g m) with
  | none => none
  | some none => some m
  | some (some cur) =>
    let m := unlink m (g + 24) cur
    let m := setBk m cur 0
    let m := setFd m cur (unsortedBinHead g m)
    let m := if chunkFd m cur ≠ 0 then setBk m (chunkFd m cur) cur else m
    let m := store m (g + 32) 8 cur
    some (fill m (chunkData m cur) 0 (u64 (chunkSize m cur + 2 ^ 64 - sizeofMallocChunk)))

inductive HeapOp where
  | malloc (size : Nat)
  | free (ptr : Nat)

/-- The memory together with the history of a run: the chunk addresses `sbrk` has returned, and
the pointers with their requested sizes that were returned by `malloc` and not yet freed. -/
structure HeapState where
  base : Nat
  mem : Mem
  carved : List Nat
  live : List (Nat × Nat)

def HeapState.init (m : Mem) (baseAddr size : Nat) : HeapState where
  base := (initHeap m baseAddr size).1
  mem := (initHeap m baseAddr size).2
  carved := []
  live := []

def HeapState.returned (s : HeapState) (size : Nat) (a : Allocation) : HeapState :=
  { s with
    mem := a.mem
    carved := if a.foundFree then s.carved else s.carved ++ [a.newAddr]
    live := (a.newMchunk.data, size) :: s.live }

def HeapState.released (s : HeapState) (ptr : Nat) (m : Mem) : HeapState :=
  { s with mem := m, live := s.live.filter fun l => l.1 ≠ ptr }

def HeapState.step (s : HeapState) : HeapOp → Option HeapState
  | .malloc size => (malloc s.base s.mem size).map (s.returned size)
  | .free ptr => (free s.base s.mem ptr).map (s.released ptr)

def HeapState.run (s : HeapState) (ops : List HeapOp) : Option HeapState :=
  Runs.run HeapState.step s ops

end BiosKernel
