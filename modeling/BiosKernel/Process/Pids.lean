import BiosKernel.Lib.Runs
import BiosKernel.Process.Bitmaps
import Mathlib.Data.Finset.Card
import Mathlib.Order.Interval.Finset.Nat

namespace BiosKernel
open Runs
set_option autoImplicit true

/-- `process_pid_bitmap`, and the pids that have been allocated and not released. -/
structure Pids where
  bitmap : Nat
  live : List Nat
  deriving DecidableEq

inductive PidOp where
  | allocate
  | deallocate (pid : Nat)

/-- The counts by which the loop of `allocate_pid` shifts. -/
def scanPidShifts (bitmap : Nat) : Nat → Nat → List Nat
  | 0, _ => []
  | k + 1, i =>
    if bitmap &&& bitmask i = 0 ∧ i ≠ 0 ∧ i ≠ kernelPid then [i]
    else i :: scanPidShifts bitmap k (i + 1)

def allocatePidShifts (bitmap : Nat) : List Nat := scanPidShifts bitmap maxNumOfProcess 0

/-- The width of the `int` that `BITMASK` shifts. -/
def intWidth : Nat := 32

/-- Calls of `allocate_pid` from this bitmap on come to return `pid`. -/
def Available (bitmap pid : Nat) : Prop :=
  pid ≠ 0 ∧ ∃ n, (allocatePid ((fun b => (allocatePid b).2)^[n] bitmap)).1 = pid

namespace Pids

def step (s : Pids) : PidOp → Option Pids
  | .allocate =>
    let (pid, bitmap) := allocatePid s.bitmap
    some { bitmap, live := if pid = 0 then s.live else pid :: s.live }
  | .deallocate pid =>
    some { bitmap := deallocatePid s.bitmap pid, live := s.live.erase pid }

def boot : Pids := ⟨0, []⟩

/-- Only live pids are released. -/
def ReleasesLive (s : Pids) : PidOp → Prop
  | .allocate => True
  | .deallocate pid => pid ∈ s.live

/-- A pid is new, and there is one as long as not all are live. -/
structure AllocatesExactly (s : Pids) (pid : Nat) : Prop where
  fresh : pid ≠ 0 → 2 ≤ pid ∧ pid < maxNumOfProcess ∧ pid ∉ s.live
  full : pid = 0 → ∀ p, 2 ≤ p → p < maxNumOfProcess → p ∈ s.live
  shifts : ∀ n ∈ allocatePidShifts s.bitmap, n < intWidth

/-- The pid, and no other, can be had again. -/
structure ReleasesExactly (s : Pids) (pid : Nat) : Prop where
  before : ¬ Available s.bitmap pid
  behind : ∀ p, Available (deallocatePid s.bitmap pid) p ↔ p = pid ∨ Available s.bitmap p
  shift : pid < intWidth

def Exact (s : Pids) : PidOp → Prop
  | .allocate => s.AllocatesExactly (allocatePid s.bitmap).1
  | .deallocate pid => s.ReleasesExactly pid

/-- A pid is asked for while one of those below 32 is not live. -/
def OneBelow32 (s : Pids) : PidOp → Prop
  | .allocate => ∃ p < 32, 2 ≤ p ∧ p ∉ s.live
  | .deallocate _ => True

instance (s : Pids) (op : PidOp) : Decidable (s.ReleasesLive op) :=
  match op with
  | .allocate => .isTrue trivial
  | .deallocate _ => inferInstanceAs (Decidable (_ ∈ _))

instance (s : Pids) (op : PidOp) : Decidable (s.OneBelow32 op) :=
  match op with
  | .allocate => inferInstanceAs (Decidable (∃ p < 32, 2 ≤ p ∧ p ∉ s.live))
  | .deallocate _ => .isTrue trivial

end Pids

/-- The masks of the pids 2 to 33, which make up all 64 bits, tell which of them are live. -/
def Marks (bitmap : Nat) (live : List Nat) : Prop :=
  ∀ i < 34, 2 ≤ i → (bitmap &&& bitmask i = 0 ↔ i ∉ live)

section Masks

variable {bitmap : Nat} {live : List Nat}

theorem bitmask_and_bitmask (hi : i < 34) (hi2 : 2 ≤ i) (hj : j < 34) (hj2 : 2 ≤ j) :
    bitmask i &&& bitmask j = 0 ↔ i ≠ j := by
  have hall : ∀ i < 34, ∀ j < 34, 2 ≤ i → 2 ≤ j → (bitmask i &&& bitmask j = 0 ↔ i ≠ j) := by
    decide +kernel
  exact hall i hi j hj hi2 hj2

theorem not_bitmask_and_bitmask (hi : i < 34) (hi2 : 2 ≤ i) (hj : j < 34) (hj2 : 2 ≤ j) :
    (bitmask i ^^^ (2 ^ 64 - 1)) &&& bitmask j = if i = j then 0 else bitmask j := by
  have hall : ∀ i < 34, ∀ j < 34, 2 ≤ i → 2 ≤ j →
      (bitmask i ^^^ (2 ^ 64 - 1)) &&& bitmask j = if i = j then 0 else bitmask j := by
    decide +kernel
  exact hall i hi j hj hi2 hj2

theorem marks_zero : Marks 0 [] := by
  intro i _ _
  rw [Nat.zero_and]
  exact ⟨fun _ => List.not_mem_nil, fun _ => rfl⟩

theorem Marks.allocate (h : Marks bitmap live) (hp : pid < 34) (hp2 : 2 ≤ pid) :
    Marks (bitmap ||| bitmask pid) (pid :: live) := by
  intro i hi hi2
  rw [Nat.and_or_distrib_right, Nat.or_eq_zero_iff, h i hi hi2, bitmask_and_bitmask hp hp2 hi hi2,
    List.mem_cons, not_or, and_comm]
  exact and_congr_left fun _ => ⟨Ne.symm, Ne.symm⟩

theorem Marks.deallocate (h : Marks bitmap live) (hnodup : live.Nodup) (hp : pid < 34)
    (hp2 : 2 ≤ pid) : Marks (deallocatePid bitmap pid) (live.erase pid) := by
  intro i hi hi2
  rw [deallocatePid, Nat.and_assoc, not_bitmask_and_bitmask hp hp2 hi hi2, hnodup.mem_erase_iff]
  by_cases he : pid = i
  · rw [if_pos he, Nat.and_zero]
    exact ⟨fun _ hm => hm.1 he.symm, fun _ => rfl⟩
  · rw [if_neg he, h i hi hi2, not_and]
    exact ⟨fun hm _ => hm, fun hm => hm (Ne.symm he)⟩

/-- `allocate_pid` takes the first of the pids 2 to 33 that is not live. Every higher one shares its
mask with one of these. -/
theorem Marks.allocatePid_cases (h : Marks bitmap live) :
    ((∀ i < 34, 2 ≤ i → i ∈ live) ∧ allocatePid bitmap = (0, bitmap)) ∨
    ∃ pid < 34, 2 ≤ pid ∧ pid ∉ live ∧ (∀ i < pid, 2 ≤ i → i ∈ live) ∧
      allocatePid bitmap = (pid, bitmap ||| bitmask pid) := by
  rw [allocatePid, scanPid_eq]
  cases hf : (List.range' 0 maxNumOfProcess).find?
      fun i => bitmap &&& bitmask i = 0 ∧ i ≠ 0 ∧ i ≠ kernelPid with
  | none =>
    refine .inl ⟨?_, rfl⟩
    intro i hi hi2
    by_contra hlive
    have hfree := (h i hi hi2).mpr hlive
    refine List.find?_eq_none.mp hf i ?_ (decide_eq_true ⟨hfree, ?_, ?_⟩)
    · rw [List.mem_range'_1, maxNumOfProcess]
      omega
    · omega
    · rw [kernelPid]
      omega
  | some i =>
    obtain ⟨hfree, _, hbefore⟩ := List.find?_range'_eq_some.mp hf
    rw [decide_eq_true_eq, kernelPid] at hfree
    have hfirst (j : Nat) (hj : j < i) (hj2 : 2 ≤ j) : bitmap &&& bitmask j ≠ 0 := by
      have hno := hbefore j (Nat.zero_le j) hj
      rw [Bool.not_eq_true', decide_eq_false_iff_not, kernelPid] at hno
      exact fun h0 => hno ⟨h0, by omega, by omega⟩
    have hlt : i < 34 := by
      by_contra hge
      refine hfirst ((i - 2) % 32 + 2) (by omega) (by omega) ?_
      rw [bitmask_congr (show ((i - 2) % 32 + 2) % 32 = i % 32 by omega), hfree.1]
    refine .inr ⟨i, hlt, by omega, (h i hlt (by omega)).mp hfree.1, ?_, rfl⟩
    intro j hj hj2
    by_contra hlive
    exact hfirst j hj hj2 ((h j (by omega) hj2).mpr hlive)

theorem Marks.not_available (h : Marks bitmap live) (hp : Available bitmap pid) :
    pid < 34 ∧ 2 ≤ pid ∧ pid ∉ live := by
  obtain ⟨h0, n, hn⟩ := hp
  induction n generalizing bitmap live with
  | zero =>
    obtain ⟨_, ha⟩ | ⟨p, hp, hp2, hnew, _, ha⟩ := h.allocatePid_cases
    · rw [Function.iterate_zero_apply, ha] at hn
      exact absurd hn.symm h0
    · rw [Function.iterate_zero_apply, ha] at hn
      rw [← hn]
      exact ⟨hp, hp2, hnew⟩
  | succ n ih =>
    rw [Function.iterate_succ_apply] at hn
    obtain ⟨_, ha⟩ | ⟨p, hp, hp2, _, _, ha⟩ := h.allocatePid_cases
    · rw [ha] at hn
      exact ih h hn
    · rw [ha] at hn
      obtain ⟨hlt, hle, hnot⟩ := ih (h.allocate hp hp2) hn
      exact ⟨hlt, hle, fun hm => hnot (List.mem_cons_of_mem p hm)⟩

theorem Marks.available_iff (h : Marks bitmap live) :
    Available bitmap pid ↔ pid < 34 ∧ 2 ≤ pid ∧ pid ∉ live := by
  refine ⟨h.not_available, ?_⟩
  rintro ⟨hlt, hle, hnot⟩
  refine ⟨by omega, ?_⟩
  -- Every call before takes one of the lower pids, of which there are fewer and fewer.
  induction hk : (Finset.Ico 2 pid \ live.toFinset).card using Nat.strong_induction_on
    generalizing bitmap live with
  | _ k ih =>
    obtain ⟨hall, _⟩ | ⟨p, hp, hp2, hnew, hfirst, ha⟩ := h.allocatePid_cases
    · exact absurd (hall pid hlt hle) hnot
    · by_cases hpp : p = pid
      · exact ⟨0, by rw [Function.iterate_zero_apply, ha, hpp]⟩
      · have hplt : p < pid := by
          by_contra hge
          exact hnot (hfirst pid (by omega) hle)
        have hmem : p ∈ Finset.Ico 2 pid \ live.toFinset := by
          simp [hp2, hplt, hnew]
        have hcard : (Finset.Ico 2 pid \ (p :: live).toFinset).card < k := by
          rw [← hk, List.toFinset_cons, Finset.sdiff_insert]
          exact Finset.card_erase_lt_of_mem hmem
        have hnot' : pid ∉ p :: live := by
          rw [List.mem_cons, not_or]
          exact ⟨Ne.symm hpp, hnot⟩
        obtain ⟨n, hn⟩ := ih _ hcard (h.allocate hp hp2) hnot' rfl
        exact ⟨n + 1, by rw [Function.iterate_succ_apply, ha]; exact hn⟩

theorem mem_scanPidShifts : n ∈ scanPidShifts bitmap k i ↔ i ≤ n ∧ n < i + k ∧
    ∀ j, i ≤ j → j < n → ¬ (bitmap &&& bitmask j = 0 ∧ j ≠ 0 ∧ j ≠ kernelPid) := by
  induction k generalizing i with
  | zero =>
    refine ⟨fun hm => (by cases hm), ?_⟩
    rintro ⟨hle, hlt, _⟩
    omega
  | succ k ih =>
    rw [scanPidShifts]
    split
    · next htake =>
      rw [List.mem_singleton]
      constructor
      · rintro rfl
        exact ⟨Nat.le_refl n, by omega, fun j hj hj' => by omega⟩
      · rintro ⟨hle, _, hbefore⟩
        by_contra hne
        exact hbefore i (Nat.le_refl i) (by omega) htake
    · next hskip =>
      rw [List.mem_cons, ih]
      constructor
      · rintro (rfl | ⟨hle, hlt, hbefore⟩)
        · exact ⟨Nat.le_refl n, by omega, fun j hj hj' => by omega⟩
        · refine ⟨by omega, by omega, ?_⟩
          intro j hj hj'
          by_cases hji : j = i
          · rwa [hji]
          · exact hbefore j (by omega) hj'
      · rintro ⟨hle, hlt, hbefore⟩
        by_cases hni : n = i
        · exact .inl hni
        · exact .inr ⟨by omega, by omega, fun j hj hj' => hbefore j (by omega) hj'⟩

theorem Marks.shifts_lt_iff (h : Marks bitmap live) :
    (∀ n ∈ allocatePidShifts bitmap, n < intWidth) ↔ ∃ p < 32, 2 ≤ p ∧ p ∉ live := by
  rw [allocatePidShifts, intWidth]
  constructor
  · intro hlt
    by_contra hall
    push Not at hall
    refine absurd (hlt 32 (mem_scanPidShifts.mpr ⟨by omega, by decide, ?_⟩)) (Nat.lt_irrefl 32)
    rintro j _ hj ⟨hfree, h0, h1⟩
    rw [kernelPid] at h1
    have hj2 : 2 ≤ j := by omega
    exact (h j (by omega) hj2).mp hfree (hall j hj hj2)
  · rintro ⟨p, hp, hp2, hnot⟩ n hn
    obtain ⟨_, _, hbefore⟩ := mem_scanPidShifts.mp hn
    by_contra hge
    refine hbefore p (Nat.zero_le p) (by omega) ⟨(h p (by omega) hp2).mpr hnot, by omega, ?_⟩
    rw [kernelPid]
    omega

end Masks

namespace Pids

variable {s s' : Pids}

/-- No pid from 32 on has been handed out. -/
structure Counted (s : Pids) : Prop where
  marks : Marks s.bitmap s.live
  nodup : s.live.Nodup
  below : ∀ p ∈ s.live, p < 32 ∧ 2 ≤ p

theorem Counted.allocate_cases (h : s.Counted) (hok : s.OneBelow32 .allocate) :
    ∃ pid < 32, 2 ≤ pid ∧ pid ∉ s.live ∧
      allocatePid s.bitmap = (pid, s.bitmap ||| bitmask pid) := by
  obtain ⟨p, hp, hp2, hnot⟩ := hok
  obtain ⟨hall, _⟩ | ⟨pid, hpid, hpid2, hnew, hfirst, ha⟩ := h.marks.allocatePid_cases
  · exact absurd (hall p (by omega) hp2) hnot
  · refine ⟨pid, ?_, hpid2, hnew, ha⟩
    by_contra hge
    exact hnot (hfirst p (by omega) hp2)

theorem Counted.step (h : s.Counted) (hfit : s.ReleasesLive op) (hok : s.OneBelow32 op)
    (hs : s.step op = some s') : s'.Counted := by
  cases op with
  | allocate =>
    obtain ⟨pid, hpid, hpid2, hnew, ha⟩ := h.allocate_cases hok
    rw [Pids.step, ha] at hs
    cases hs
    rw [if_neg (show pid ≠ 0 by omega)]
    refine ⟨h.marks.allocate (by omega) hpid2, List.nodup_cons.mpr ⟨hnew, h.nodup⟩, ?_⟩
    exact List.forall_mem_cons.mpr ⟨⟨hpid, hpid2⟩, h.below⟩
  | deallocate pid =>
    obtain ⟨hpid, hpid2⟩ := h.below pid hfit
    cases hs
    refine ⟨h.marks.deallocate h.nodup (by omega) hpid2, h.nodup.erase pid, ?_⟩
    exact fun p hp => h.below p (List.mem_of_mem_erase hp)

theorem Counted.releasesExactly (h : s.Counted) (hp : pid ∈ s.live) : s.ReleasesExactly pid := by
  obtain ⟨hpid, hpid2⟩ := h.below pid hp
  refine ⟨fun ha => (h.marks.available_iff.mp ha).2.2 hp, ?_, hpid⟩
  intro p
  rw [(h.marks.deallocate h.nodup (by omega) hpid2).available_iff, h.marks.available_iff,
    h.nodup.mem_erase_iff]
  by_cases hpp : p = pid
  · subst hpp
    exact ⟨fun _ => .inl rfl, fun _ => ⟨by omega, hpid2, fun hm => hm.1 rfl⟩⟩
  · simp [hpp]

theorem Counted.exact_iff (h : s.Counted) (hfit : s.ReleasesLive op) :
    s.Exact op ↔ s.OneBelow32 op := by
  cases op with
  | allocate =>
    constructor
    · intro he
      exact h.marks.shifts_lt_iff.mp he.shifts
    · intro hok
      obtain ⟨pid, hpid, hpid2, hnew, ha⟩ := h.allocate_cases hok
      refine ⟨?_, ?_, h.marks.shifts_lt_iff.mpr hok⟩
      · rw [ha]
        intro _
        exact ⟨hpid2, by rw [maxNumOfProcess]; omega, hnew⟩
      · rw [ha]
        intro h0
        omega
  | deallocate pid => exact ⟨fun _ => trivial, fun _ => h.releasesExactly hfit⟩

theorem counted_boot : boot.Counted := ⟨marks_zero, List.nodup_nil, fun p hp => by cases hp⟩

/-- Every call of a run is exact just where no pid is asked for while 2 to 31 are all live. -/
theorem exact_iff_oneBelow32 (ops : List PidOp) (hlive : Meets step ReleasesLive boot ops) :
    Meets step Exact boot ops ↔ Meets step OneBelow32 boot ops := by
  refine meets_iff_meets (I := Counted) ?_ ?_ counted_boot hlive
  · intro s op s' h hfit hok hs
    exact h.step hfit hok hs
  · intro s op h hfit
    exact h.exact_iff hfit

theorem exact_reuse : Meets step Exact boot [.allocate, .allocate, .deallocate 2, .allocate] := by
  apply (exact_iff_oneBelow32 _ (by decide +kernel)).mpr
  decide +kernel

/-- After 32 calls there is no pid left, with 34 and all higher ones not live. -/
theorem pids_run_out :
    run step boot (List.replicate 32 .allocate) =
      some ⟨2 ^ 64 - 1, (List.range' 2 32).reverse⟩ ∧
    (allocatePid (2 ^ 64 - 1)).1 = 0 ∧ 34 ∉ (List.range' 2 32).reverse ∧
    32 ∈ allocatePidShifts (2 ^ 64 - 1) ∧
    ¬ Exact ⟨2 ^ 64 - 1, (List.range' 2 32).reverse⟩ .allocate := by
  have hzero : (allocatePid (2 ^ 64 - 1)).1 = 0 := by decide +kernel
  have h34 : 34 ∉ (List.range' 2 32).reverse := by decide
  refine ⟨by decide +kernel, hzero, h34, by decide +kernel, ?_⟩
  intro he
  exact h34 (he.full hzero 34 (by decide) (by decide))

end Pids

end BiosKernel
