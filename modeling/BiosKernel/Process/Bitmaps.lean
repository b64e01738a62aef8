import BiosKernel.Paging.Frames

namespace BiosKernel
open MachineInt
set_option autoImplicit true

def maxNumOfProcess : Nat := 256

def kernelPid : Nat := 1

def kernelHeapStart : Nat := 0x20 * 0x100000

def kernelHeapSizePages : Nat := 0x400

def hardwareMemStart : Nat := kernelHeapStart + kernelHeapSizePages * pageSize

/-- `BITMASK`: `1 << n` in `int`. The processor takes the count modulo 32, and the result is
sign-extended when it meets the 64-bit bitmap. -/
def bitmask (n : Nat) : Nat := if n % 32 = 31 then 2 ^ 64 - 2 ^ 31 else 2 ^ (n % 32)

/-- The loop of `allocate_pid` over `k` more numbers from `i` on. -/
def scanPid (bitmap : Nat) : Nat → Nat → Nat × Nat
  | 0, _ => (0, bitmap)
  | k + 1, i =>
    if bitmap &&& bitmask i = 0 ∧ i ≠ 0 ∧ i ≠ kernelPid then (i, bitmap ||| bitmask i)
    else scanPid bitmap k (i + 1)

/-- The pid and `process_pid_bitmap` afterwards. -/
def allocatePid (bitmap : Nat) : Nat × Nat := scanPid bitmap maxNumOfProcess 0

def deallocatePid (bitmap pid : Nat) : Nat := bitmap &&& (bitmask pid ^^^ (2 ^ 64 - 1))

/-- The loop of `allocate_proc_mem`. `PROC_ALLOC_START` and `PROC_MEM_SIZE` are macros without
parentheses, which changes nothing here. -/
def scanProcMem (bitmap : Nat) : Nat → Nat → Nat × Nat
  | 0, _ => (0, bitmap)
  | k + 1, i =>
    if bitmap &&& bitmask i = 0 then
      (hardwareMemStart + kernelHeapSizePages * pageSize + i * pageSize * 0x1000,
        bitmap ||| bitmask i)
    else scanProcMem bitmap k (i + 1)

def allocateProcMem (bitmap : Nat) : Nat × Nat := scanProcMem bitmap maxNumOfProcess 0

/-- In `(addr - PROC_ALLOC_START) / PROC_MEM_SIZE` the macros without parentheses add the size of
the heap where it should be subtracted, and multiply by 4096 where they should divide. -/
def deallocateProcMem (bitmap addr : Nat) : Nat :=
  let n := u64 (u64 (addr + 2 ^ 64 - hardwareMemStart + kernelHeapSizePages * pageSize) /
    pageSize * 0x1000)
  bitmap &&& (bitmask n ^^^ (2 ^ 64 - 1))

theorem scanPid_lt (h : i + k ≤ 256) : (scanPid bitmap k i).1 < 256 := by
  induction k generalizing i with
  | zero => exact Nat.zero_lt_succ 255
  | succ k ih =>
    rw [scanPid]
    split
    · dsimp only
      omega
    · exact ih (by omega)

theorem scanPid_eq (bitmap k i : Nat) : scanPid bitmap k i =
    match (List.range' i k).find? fun i => bitmap &&& bitmask i = 0 ∧ i ≠ 0 ∧ i ≠ kernelPid with
    | none => (0, bitmap)
    | some i => (i, bitmap ||| bitmask i) := by
  induction k generalizing i with
  | zero => rfl
  | succ k ih =>
    rw [scanPid, List.range'_succ, List.find?_cons]
    split
    · next h => simp [h]
    · next h => simp [h, ih]

theorem scanProcMem_eq (bitmap k i : Nat) : scanProcMem bitmap k i =
    match (List.range' i k).find? fun i => bitmap &&& bitmask i = 0 with
    | none => (0, bitmap)
    | some i => (hardwareMemStart + kernelHeapSizePages * pageSize + i * pageSize * 0x1000,
        bitmap ||| bitmask i) := by
  induction k generalizing i with
  | zero => rfl
  | succ k ih =>
    rw [scanProcMem, List.range'_succ, List.find?_cons]
    split
    · next h => simp [h]
    · next h => simp [h, ih]

theorem bitmask_congr (h : m % 32 = n % 32) : bitmask m = bitmask n := by
  rw [bitmask, bitmask, h]

theorem allocatePid_lt (bitmap : Nat) : (allocatePid bitmap).1 < 256 :=
  scanPid_lt (Nat.le_refl 256)

end BiosKernel
