import BiosKernel.Process.Bookkeeping

namespace BiosKernel
open MachineInt Processes Runs
set_option autoImplicit true

/-- `process_mem_bitmap`, and the addresses that have been allocated and not released. -/
structure MemSlots where
  bitmap : Nat
  live : List Nat

inductive MemSlotOp where
  | allocate
  | deallocate (addr : Nat)

namespace MemSlots

def step (s : MemSlots) : MemSlotOp → Option MemSlots
  | .allocate =>
    let (addr, bitmap) := allocateProcMem s.bitmap
    some { bitmap, live := if addr = 0 then s.live else addr :: s.live }
  | .deallocate addr =>
    some { bitmap := deallocateProcMem s.bitmap addr, live := s.live.erase addr }

def boot : MemSlots := ⟨0, []⟩

/-- The regions of the live slots do not overlap. -/
def Apart (s : MemSlots) : Prop :=
  s.live.Pairwise fun a b => a + procMemSize ≤ b ∨ b + procMemSize ≤ a

/-- What is allocated and released at once leaves the bitmap as it was. -/
def Restores (bitmap : Nat) : Prop :=
  deallocateProcMem (allocateProcMem bitmap).2 (allocateProcMem bitmap).1 = bitmap

/-- No slot is asked for while slot 0 is in use and not marked. -/
def FirstMarked (s : MemSlots) : MemSlotOp → Prop
  | .allocate => slotAddr 0 ∈ s.live → s.bitmap.testBit 0 = true
  | .deallocate _ => True

instance (s : MemSlots) (op : MemSlotOp) : Decidable (s.FirstMarked op) :=
  match op with
  | .allocate => inferInstanceAs (Decidable (_ → _))
  | .deallocate _ => .isTrue trivial

variable {s s' : MemSlots}

/-- Whatever the address is, slot 0 is released. -/
theorem deallocateProcMem_eq (bitmap addr : Nat) :
    deallocateProcMem bitmap addr = bitmap &&& (2 ^ 64 - 2) := by
  have hmask (n : Nat) : bitmask (u64 (n * 0x1000)) = bitmask 0 :=
    bitmask_congr (by rw [u64]; omega)
  rw [deallocateProcMem, hmask]
  rfl

theorem bitmask_and (hi : i < 32) (h0 : i ≠ 0) : bitmask i &&& (2 ^ 64 - 2) = bitmask i := by
  have hall : ∀ i < 32, i ≠ 0 → bitmask i &&& (2 ^ 64 - 2) = bitmask i := by decide +kernel
  exact hall i hi h0

theorem bitmask_ne_zero (hi : i < 32) : bitmask i ≠ 0 := by
  have hall : ∀ i < 32, bitmask i ≠ 0 := by decide +kernel
  exact hall i hi

theorem and_bitmask_zero (bitmap : Nat) : bitmap &&& bitmask 0 = 0 ↔ bitmap.testBit 0 = false := by
  rw [show bitmask 0 = 1 from rfl, Nat.and_one_is_mod, Nat.testBit_zero]
  simp

theorem allocateProcMem_cases (bitmap : Nat) :
    (bitmap.testBit 0 = true ∧ allocateProcMem bitmap = (0, bitmap)) ∨
    ∃ i < 32, bitmap &&& bitmask i = 0 ∧ (bitmap.testBit 0 = false → i = 0) ∧
      allocateProcMem bitmap = (slotAddr i, bitmap ||| bitmask i) := by
  rw [allocateProcMem, scanProcMem_eq]
  cases hf : (List.range' 0 maxNumOfProcess).find? fun i => bitmap &&& bitmask i = 0 with
  | none =>
    left
    refine ⟨?_, rfl⟩
    by_contra h0
    have hzero := (and_bitmask_zero bitmap).mpr (Bool.eq_false_iff.mpr h0)
    exact List.find?_eq_none.mp hf 0 (by decide) (decide_eq_true hzero)
  | some i =>
    right
    obtain ⟨hfree, _, hbefore⟩ := List.find?_range'_eq_some.mp hf
    rw [decide_eq_true_eq] at hfree
    have hfirst (j : Nat) (hj : j < i) : bitmap &&& bitmask j ≠ 0 := by
      simpa using hbefore j (Nat.zero_le j) hj
    refine ⟨i, ?_, hfree, ?_, rfl⟩
    · by_contra hge
      refine hfirst (i % 32) (by omega) ?_
      rw [bitmask_congr (Nat.mod_mod i 32), hfree]
    · intro h0
      by_contra hne
      exact hfirst 0 (Nat.pos_of_ne_zero hne) ((and_bitmask_zero bitmap).mpr h0)

theorem or_one_and (bitmap : Nat) (hb : bitmap < 2 ^ 64) (h0 : bitmap.testBit 0 = false) :
    (bitmap ||| 1) &&& (2 ^ 64 - 2) = bitmap := by
  apply Nat.eq_of_testBit_eq
  intro i
  cases i with
  | zero =>
    rw [Nat.testBit_and, h0]
    exact Bool.and_false _
  | succ i =>
    have hhalf : (2 ^ 64 - 2) / 2 = 2 ^ 63 - 1 := rfl
    have hone : 1 / 2 = 0 := rfl
    rw [Nat.testBit_and, Nat.testBit_or, Nat.testBit_succ, Nat.testBit_succ, Nat.testBit_succ,
      hhalf, hone, Nat.zero_testBit, Bool.or_false, Nat.testBit_two_pow_sub_one]
    by_cases hi : i < 63
    · rw [decide_eq_true hi, Bool.and_true]
    · have hpow : 2 ^ 63 ≤ 2 ^ i := Nat.pow_le_pow_right (by decide) (Nat.le_of_not_lt hi)
      rw [Nat.testBit_lt_two_pow (show bitmap / 2 < 2 ^ i by omega), Bool.false_and]

theorem restores_iff (bitmap : Nat) (hb : bitmap < 2 ^ 64) :
    Restores bitmap ↔ bitmap.testBit 0 = false := by
  rw [Restores, deallocateProcMem_eq]
  constructor
  · intro h
    rw [← h, Nat.testBit_and]
    exact Bool.and_false _
  · intro h0
    obtain ⟨h1, _⟩ | ⟨i, _, _, hi, ha⟩ := allocateProcMem_cases bitmap
    · rw [h0] at h1
      cases h1
    · rw [ha, hi h0]
      exact or_one_and bitmap hb h0

/-- The live addresses are those of slots, and all but slot 0 stay marked. -/
def Marked (s : MemSlots) : Prop :=
  ∀ a ∈ s.live, ∃ i < 32, a = slotAddr i ∧ (i ≠ 0 → s.bitmap &&& bitmask i ≠ 0)

theorem procMemSize_eq : procMemSize = 0x1000000 := rfl

theorem slotAddr_zero : hardwareMemStart + kernelHeapSizePages * pageSize = 0x2800000 := rfl

theorem slotAddr_eq (i : Nat) : slotAddr i = 0x2800000 + i * procMemSize := by
  rw [slotAddr, Nat.mul_assoc]
  exact congrArg (· + i * procMemSize) slotAddr_zero

theorem slotAddr_apart (h : slotAddr i ≠ slotAddr j) :
    slotAddr i + procMemSize ≤ slotAddr j ∨ slotAddr j + procMemSize ≤ slotAddr i := by
  simp only [slotAddr_eq, procMemSize_eq] at h ⊢
  omega

theorem slotAddr_injective (h : slotAddr i = slotAddr j) : i = j := by
  simp only [slotAddr_eq, procMemSize_eq] at h
  omega

theorem slotAddr_ne_zero (i : Nat) : slotAddr i ≠ 0 := by
  rw [slotAddr_eq, procMemSize_eq]
  omega

theorem Marked.allocate (h : s.Marked) (hi : i < 32) :
    Marked ⟨s.bitmap ||| bitmask i, slotAddr i :: s.live⟩ := by
  intro a ha
  rcases List.mem_cons.mp ha with rfl | ha
  · refine ⟨i, hi, rfl, fun _ h0 => bitmask_ne_zero hi ?_⟩
    rw [Nat.and_or_distrib_right, Nat.and_self] at h0
    exact (Nat.or_eq_zero_iff.mp h0).2
  · obtain ⟨j, hj, rfl, hmark⟩ := h a ha
    refine ⟨j, hj, rfl, fun hj0 h0 => hmark hj0 ?_⟩
    rw [Nat.and_or_distrib_right] at h0
    exact (Nat.or_eq_zero_iff.mp h0).1

theorem Marked.deallocate (h : s.Marked) (addr : Nat) :
    Marked ⟨s.bitmap &&& (2 ^ 64 - 2), s.live.erase addr⟩ := by
  intro a ha
  obtain ⟨i, hi, rfl, hmark⟩ := h a (List.mem_of_mem_erase ha)
  refine ⟨i, hi, rfl, fun h0 => ?_⟩
  rw [Nat.and_assoc, Nat.and_comm (2 ^ 64 - 2), bitmask_and hi h0]
  exact hmark h0

theorem step_allocate (hi : allocateProcMem s.bitmap = (slotAddr i, b)) :
    s.step .allocate = some ⟨b, slotAddr i :: s.live⟩ := by
  rw [step, hi]
  exact congrArg some (congrArg _ (if_neg (slotAddr_ne_zero i)))

theorem step_allocate_full (h : allocateProcMem s.bitmap = (0, s.bitmap)) :
    s.step .allocate = some s := by
  rw [step, h]
  rfl

theorem step_deallocate (s : MemSlots) (addr : Nat) : s.step (.deallocate addr) =
    some ⟨s.bitmap &&& (2 ^ 64 - 2), s.live.erase addr⟩ := by
  rw [step, deallocateProcMem_eq]

theorem Marked.step (h : s.Marked) (hs : s.step op = some s') : s'.Marked := by
  cases op with
  | allocate =>
    obtain ⟨_, ha⟩ | ⟨i, hi, _, _, ha⟩ := allocateProcMem_cases s.bitmap
    · rw [step_allocate_full ha] at hs
      cases hs
      exact h
    · rw [step_allocate ha] at hs
      cases hs
      exact h.allocate hi
  | deallocate addr =>
    rw [step_deallocate] at hs
    cases hs
    exact h.deallocate addr

theorem Marked.apart_cons (h : s.Marked) (hP : s.Apart) (i : Nat) :
    Apart ⟨b, slotAddr i :: s.live⟩ ↔ slotAddr i ∉ s.live := by
  rw [Apart, List.pairwise_cons]
  constructor
  · rintro ⟨hnew, _⟩ hin
    have hself := hnew _ hin
    rw [procMemSize_eq] at hself
    omega
  · intro hnew
    refine ⟨?_, hP⟩
    intro a ha
    obtain ⟨j, _, rfl, _⟩ := h a ha
    exact slotAddr_apart fun he => hnew (by rw [he]; exact ha)

theorem Marked.firstMarked_iff (h : s.Marked) (hP : s.Apart) (op : MemSlotOp) :
    s.FirstMarked op ↔ ∃ s', s.step op = some s' ∧ s'.Apart := by
  cases op with
  | allocate =>
    obtain ⟨h1, ha⟩ | ⟨i, _, hfree, hfirst, ha⟩ := allocateProcMem_cases s.bitmap
    · rw [step_allocate_full ha]
      exact ⟨fun _ => ⟨s, rfl, hP⟩, fun _ _ => h1⟩
    · have hnew : slotAddr i ∈ s.live → i = 0 := by
        intro hin
        obtain ⟨j, _, he, hmark⟩ := h _ hin
        by_contra hi0
        rw [← slotAddr_injective he] at hmark
        exact hmark hi0 hfree
      rw [step_allocate ha]
      constructor
      · intro hmarked
        refine ⟨_, rfl, (h.apart_cons hP i).mpr fun hin => ?_⟩
        obtain rfl := hnew hin
        have h1 : s.bitmap.testBit 0 = true := hmarked hin
        rw [(and_bitmask_zero _).mp hfree] at h1
        cases h1
      · rintro ⟨_, ⟨⟩, hP'⟩ hin
        by_contra h0
        obtain rfl := hfirst (Bool.eq_false_iff.mpr h0)
        exact (h.apart_cons hP 0).mp hP' hin
  | deallocate addr =>
    rw [step_deallocate]
    refine ⟨fun _ => ⟨_, rfl, ?_⟩, fun _ => trivial⟩
    exact List.Pairwise.sublist List.erase_sublist hP

/-- A slot is restored only where it is slot 0, and the regions stay apart all along a run exactly
when no slot is asked for while slot 0 is in use and not marked. -/
theorem slots_released_iff (bitmap : Nat) (hb : bitmap < 2 ^ 64) (ops : List MemSlotOp) :
    (Restores bitmap ↔ bitmap.testBit 0 = false) ∧
    (Always step Apart boot ops ↔ Meets step FirstMarked boot ops) := by
  refine ⟨restores_iff bitmap hb, ?_⟩
  have hfit : Meets step (fun _ _ => True) boot ops := Meets.of_forall fun _ _ => trivial
  refine always_iff_meets (I := Marked) ?_ ?_ ?_ List.Pairwise.nil hfit
  · intro s op s' h _ hs _
    exact h.step hs
  · intro s op h hP _
    exact h.firstMarked_iff hP op
  · intro a ha
    cases ha

theorem slots_released_first : Restores 0 ∧
    Always step Apart boot [.allocate, .deallocate (slotAddr 0), .allocate] := by
  obtain ⟨hrestores, halways⟩ := slots_released_iff 0 (by decide)
    [.allocate, .deallocate (slotAddr 0), .allocate]
  exact ⟨hrestores.mpr rfl, halways.mpr (by decide +kernel)⟩

/-- With slot 0 in use, the address of slot 1 releases slot 0, which is then handed out twice. -/
theorem second_slot_releases_first :
    (allocateProcMem 1).1 = slotAddr 1 ∧ ¬ Restores 1 ∧
    run step boot [.allocate, .allocate, .deallocate (slotAddr 1), .allocate] =
      some ⟨3, [slotAddr 0, slotAddr 0]⟩ ∧ ¬ Apart ⟨3, [slotAddr 0, slotAddr 0]⟩ := by
  refine ⟨rfl, by rw [Restores]; decide +kernel, rfl, ?_⟩
  rw [Apart]
  decide +kernel

end MemSlots

end BiosKernel
