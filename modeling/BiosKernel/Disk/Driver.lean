import BiosKernel.Heap.Malloc

namespace BiosKernel
open MachineInt
set_option autoImplicit true

def sectorSize : Nat := 512

/-- `UPPER_DIVIDE` on `size_t` operands. -/
def upperDivide (n d : Nat) : Nat := u64 (n + d - 1) / d

inductive DiskType where
  | ahciSata
deriving DecidableEq

structure Disk where
  diskId : Nat
  diskType : DiskType
  port : Nat
deriving DecidableEq

/-- The registered drives and, for each AHCI port, the bytes on the medium behind it. -/
structure Disks where
  listDrives : List Disk
  content : Nat → Nat → UInt8

/-- The walk of `find_disk` with its local `device`, which is uninitialised before the first node
and is returned as it stands when no node has the id. -/
def findDiskFrom (device : Option Disk) (id : Nat) : List Disk → Option Disk
  | [] => device
  | d :: ds => if d.diskId = id then some d else findDiskFrom (some d) id ds

def findDisk (drives : List Disk) (id : Nat) : Option Disk := findDiskFrom none id drives

-- Memory around the temporary buffer is addressed from its first byte, so that an access before
-- the buffer has a negative index.

def memcpy (dst : Int → UInt8) (p : Int) (src : Int → UInt8) (size : Nat) : Int → UInt8 :=
  fun i => if p ≤ i ∧ i < p + size then src (i - p) else dst i

/-- What `malloc` does to the memory around the block it returns. -/
def mallocTemp (heap : Int → UInt8) (size : Nat) : Int → UInt8 := memcpy heap 0 (fun _ => 0) size

/-- The sector transfer of the controller. Its `count` is a `uint32_t`. -/
def readAhci (content : Nat → UInt8) (start count : Nat) (buf : Int → UInt8) : Int → UInt8 :=
  memcpy buf 0 (fun i => content (sectorSize * start + i.toNat)) (sectorSize * u32 count)

def writeAhci (content : Nat → UInt8) (start count : Nat) (buf : Int → UInt8) : Nat → UInt8 :=
  fun x =>
    if sectorSize * start ≤ x ∧ x < sectorSize * start + sectorSize * u32 count
    then buf (x - (sectorSize * start : Nat))
    else content x

/-- The caller's buffer after the call. The uncacheable mapping of the temporary buffer during the
transfer does not change its bytes. -/
def readDisk (s : Disks) (heap : Int → UInt8) (diskId offset size : Nat) (buffer : Int → UInt8) :
    Option (Int → UInt8) :=
  (findDisk s.listDrives diskId).map fun disk =>
    match disk.diskType with
    | .ahciSata =>
      let offsetSectors := offset / sectorSize
      let sizeSectors := upperDivide size sectorSize
      let bufferTemp := mallocTemp heap (u64 (sizeSectors * sectorSize))
      let bufferTemp := readAhci (s.content disk.port) offsetSectors sizeSectors bufferTemp
      memcpy buffer 0 (fun i => bufferTemp ((offset % sectorSize : Nat) + i)) size

/-- The disks and the memory around the temporary buffer after the call. The target of the copy is
`offset_sectors * 512 - offset` past the buffer, in pointer arithmetic modulo `2 ^ 64`: at or before
its first byte. -/
def writeDisk (s : Disks) (heap : Int → UInt8) (diskId offset size : Nat) (buffer : Int → UInt8) :
    Option (Disks × (Int → UInt8)) :=
  (findDisk s.listDrives diskId).map fun disk =>
    match disk.diskType with
    | .ahciSata =>
      let offsetSectors := offset / sectorSize
      let sizeSectors := upperDivide size sectorSize
      let bufferTemp := mallocTemp heap (u64 (sizeSectors * sectorSize))
      let bufferTemp := readAhci (s.content disk.port) offsetSectors sizeSectors bufferTemp
      let bufferTemp := memcpy bufferTemp ((offsetSectors * 512 : Nat) - (offset : Nat)) buffer size
      let written := writeAhci (s.content disk.port) offsetSectors sizeSectors bufferTemp
      ({ s with content := Function.update s.content disk.port written }, bufferTemp)

theorem findDiskFrom_registered (device : Option Disk) (h : ∃ d ∈ drives, d.diskId = n) :
    ∃ d ∈ drives, findDiskFrom device n drives = some d ∧ d.diskId = n := by
  induction drives generalizing device with
  | nil =>
    obtain ⟨d, hd, _⟩ := h
    cases hd
  | cons e drives ih =>
    rw [findDiskFrom]
    by_cases he : e.diskId = n
    · rw [if_pos he]
      exact ⟨e, List.mem_cons_self, rfl, he⟩
    · rw [if_neg he]
      obtain ⟨d, hd, hid⟩ := h
      rcases List.mem_cons.mp hd with rfl | hd
      · exact absurd hid he
      · obtain ⟨f, hf, hr⟩ := ih (some e) ⟨d, hd, hid⟩
        exact ⟨f, List.mem_cons_of_mem _ hf, hr⟩

theorem findDisk_registered (h : ∃ d ∈ drives, d.diskId = n) :
    ∃ d ∈ drives, findDisk drives n = some d ∧ d.diskId = n := findDiskFrom_registered none h

theorem memcpy_of_lt (dst src : Int → UInt8) (p : Int) (h : k < size) :
    memcpy dst p src size (p + (k : Nat)) = src k := by
  rw [memcpy, if_pos (by omega)]
  congr 1
  omega

theorem memcpy_apart (dst src : Int → UInt8) (p : Int) (size : Nat) (h : i < p ∨ p + size ≤ i) :
    memcpy dst p src size i = dst i := by
  rw [memcpy, if_neg (by omega)]

end BiosKernel
