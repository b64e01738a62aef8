import BiosKernel.Heap.Malloc

namespace BiosKernel
set_option autoImplicit true

def pageSize : Nat := 4096

/-- One byte for each page frame, 0 for a free one. `handedOut` is no data of the program: it
records the frames that `allocate_page` has returned, the last one first. -/
structure PageFrameAllocator where
  bitmap : Nat → Nat
  numPages : Nat
  handedOut : List Nat

/-- `MEMORY_SIZE_PAGES`. -/
def memorySizePages : Nat := 0x100000

/-- `PAGE_FRAME_ALLOCATOR_END`: the bitmap lies at 10 MB, one byte for each page. -/
def pageFrameAllocatorEnd : Nat := 10 * 0x100000 + memorySizePages - 1

def initPageFrameAllocator (memorySizePages : Nat) : PageFrameAllocator where
  bitmap i := if i < (pageFrameAllocatorEnd + pageSize) / pageSize then 1 else 0
  numPages := memorySizePages
  handedOut := []

/-- The loop of `allocate_page` over `k` more frames from `i` on. -/
def scanFree (bitmap : Nat → Nat) : Nat → Nat → Option Nat
  | 0, _ => none
  | k + 1, i => if bitmap i = 0 then some i else scanFree bitmap k (i + 1)

def PageFrameAllocator.firstFree (a : PageFrameAllocator) : Option Nat :=
  scanFree a.bitmap a.numPages 0

/-- A store into the `uint8_t` of a frame. -/
def PageFrameAllocator.mark (a : PageFrameAllocator) (i v : Nat) : PageFrameAllocator :=
  { a with bitmap := Function.update a.bitmap i (v % 256) }

def PageFrameAllocator.take (a : PageFrameAllocator) (i pid : Nat) : PageFrameAllocator :=
  { a.mark i pid with handedOut := i :: a.handedOut }

/-- The physical address of the frame taken, 0 for `NULL`. -/
def allocatePage (a : PageFrameAllocator) (pid : Nat) : Nat × PageFrameAllocator :=
  match a.firstFree with
  | none => (0, a)
  | some i => (i * pageSize, a.take i pid)

/-- The bit of a frame is cleared as if the bitmap had one bit for each frame and were read in
64-bit words. The result is stored into a `uint8_t`. -/
def deallocatePage (a : PageFrameAllocator) (page : Nat) : PageFrameAllocator :=
  let pageIndex := page / pageSize
  a.mark (pageIndex / 64) (a.bitmap (pageIndex / 64) &&& (2 ^ 64 - 1 - 1 <<< (pageIndex % 64)))

/-- The addresses that `k` calls of `allocate_page` return, in their order. -/
def takePages (a : PageFrameAllocator) (pid : Nat) : Nat → List Nat × PageFrameAllocator
  | 0 => ([], a)
  | k + 1 =>
    let (pages, a) := takePages a pid k
    let (page, a) := allocatePage a pid
    (pages ++ [page], a)

theorem takePages_succ (a : PageFrameAllocator) (pid k : Nat) : takePages a pid (k + 1) =
    ((takePages a pid k).1 ++ [(allocatePage (takePages a pid k).2 pid).1],
      (allocatePage (takePages a pid k).2 pid).2) := rfl

theorem scanFree_some (h : scanFree bitmap k i = some j) :
    bitmap j = 0 ∧ i ≤ j ∧ j < i + k ∧ ∀ x, i ≤ x → x < j → bitmap x ≠ 0 := by
  induction k generalizing i with
  | zero => cases h
  | succ k ih =>
    rw [scanFree] at h
    by_cases hi : bitmap i = 0
    · rw [if_pos hi] at h
      cases h
      exact ⟨hi, Nat.le_refl _, by omega, fun x hx hx' => by omega⟩
    · rw [if_neg hi] at h
      obtain ⟨h0, hle, hlt, hall⟩ := ih h
      refine ⟨h0, by omega, by omega, ?_⟩
      intro x hx hx'
      by_cases hxi : x = i
      · rw [hxi]
        exact hi
      · exact hall x (by omega) hx'

theorem scanFree_none (h : scanFree bitmap k i = none) (hx : i ≤ x) (hx' : x < i + k) :
    bitmap x ≠ 0 := by
  induction k generalizing i with
  | zero => omega
  | succ k ih =>
    rw [scanFree] at h
    by_cases hi : bitmap i = 0
    · rw [if_pos hi] at h
      cases h
    · rw [if_neg hi] at h
      by_cases hxi : x = i
      · rw [hxi]
        exact hi
      · exact ih h (by omega) (by omega)

theorem allocatePage_cases (a : PageFrameAllocator) (pid : Nat) :
    (allocatePage a pid = (0, a) ∧ ∀ i < a.numPages, a.bitmap i ≠ 0) ∨
    ∃ i, allocatePage a pid = (i * pageSize, a.take i pid) ∧ a.bitmap i = 0 ∧ i < a.numPages ∧
      ∀ j < i, a.bitmap j ≠ 0 := by
  rw [allocatePage]
  cases h : a.firstFree with
  | none =>
    refine .inl ⟨rfl, ?_⟩
    intro i hi
    exact scanFree_none h (Nat.zero_le i) (by omega)
  | some i =>
    obtain ⟨h0, _, hlt, hall⟩ := scanFree_some h
    exact .inr ⟨i, rfl, h0, by omega, fun j hj => hall j (Nat.zero_le j) hj⟩

end BiosKernel
