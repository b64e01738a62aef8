import BiosKernel.Disk.Driver
import BiosKernel.Lib.Runs
import BiosKernel.Libc.CString

namespace BiosKernel
open MachineInt Runs
set_option autoImplicit true

def backspace : UInt8 := 8

/-- `EOF`. -/
def eof : Int := -1

/-- `keyboard` without the state of the keys. The memory around each of the two arrays is addressed
from its first byte. -/
structure Keyboard where
  buffer : Int → UInt8
  tmp : Int → UInt8
  bufferHead : Nat
  bufferTail : Nat

/-- A byte that a call reads or writes, by its index in one of the arrays. -/
inductive Touch where
  | buffer (i : Int)
  | tmp (i : Int)
deriving DecidableEq

def Touch.Inside : Touch → Prop
  | .buffer i => 0 ≤ i ∧ i < bufferSize
  | .tmp i => 0 ≤ i ∧ i < bufferSize

instance Touch.decidableInside : (t : Touch) → Decidable t.Inside
  | .buffer i => inferInstanceAs (Decidable (0 ≤ i ∧ i < bufferSize))
  | .tmp i => inferInstanceAs (Decidable (0 ≤ i ∧ i < bufferSize))

/-- The bytes of a `memcpy` or `memset`. -/
def touches (place : Int → Touch) (p : Int) (size : Nat) : List Touch :=
  (List.range size).map fun k : Nat => place (p + k)

namespace Keyboard

def empty : Keyboard where
  buffer _ := 0
  tmp _ := 0
  bufferHead := 0
  bufferTail := 0

def bufferPutC (k : Keyboard) (c : UInt8) : Keyboard × List Touch :=
  let next := (k.bufferHead + 1) % bufferSize
  if next ≠ k.bufferTail then
    ({ k with buffer := Function.update k.buffer k.bufferHead c, bufferHead := next },
      [.buffer k.bufferHead])
  else (k, [])

/-- The rest of `buffer_get` behind a backspace. -/
def shiftLeft (k : Keyboard) : Keyboard × List Touch :=
  let size := bufferSize - (k.bufferTail + 1)
  let tmp := memcpy k.tmp 0 (fun _ => 0) bufferSize
  let tmp := memcpy tmp 0 (fun i => k.buffer (k.bufferTail + i)) size
  let buffer := memcpy k.buffer (k.bufferTail - 2) tmp size
  ({ buffer, tmp, bufferHead := u64 (k.bufferHead + 2 ^ 64 - 2),
     bufferTail := u64 (k.bufferTail + 2 ^ 64 - 2) },
    touches .tmp 0 bufferSize ++ touches .buffer k.bufferTail size ++ touches .tmp 0 size ++
      touches .tmp 0 size ++ touches .buffer (k.bufferTail - 2) size)

def bufferGet (k : Keyboard) : Int × Keyboard × List Touch :=
  if k.bufferHead = k.bufferTail then (eof, k, [])
  else
    let c := k.buffer k.bufferTail
    let touched := .buffer k.bufferTail
    let k := { k with bufferTail := (k.bufferTail + 1) % bufferSize }
    if c ≠ backspace then (signed8 c, k, [touched])
    else
      let (k, rest) := k.shiftLeft
      (signed8 c, k, touched :: rest)

def pending (k : Keyboard) : Nat := (k.bufferHead + bufferSize - k.bufferTail) % bufferSize

end Keyboard

inductive KeyOp where
  | put (c : UInt8)
  | get

/-- A keyboard with a record of the last call: the bytes it has touched, and how many were pending
before it if it was a `buffer_get`. -/
structure KeyTrace where
  keyboard : Keyboard
  touched : List Touch
  before : Option Nat

namespace KeyTrace

def start : KeyTrace := ⟨.empty, [], none⟩

def step (s : KeyTrace) : KeyOp → Option KeyTrace
  | .put c =>
    let (k, touched) := s.keyboard.bufferPutC c
    some ⟨k, touched, none⟩
  | .get =>
    let (_, k, touched) := s.keyboard.bufferGet
    some ⟨k, touched, some s.keyboard.pending⟩

/-- Both indices are in range, the last call has stayed inside the arrays, and if it was a get it
has not made the buffer fuller. -/
structure InRange (s : KeyTrace) : Prop where
  head : s.keyboard.bufferHead < bufferSize
  tail : s.keyboard.bufferTail < bufferSize
  inside : ∀ t ∈ s.touched, t.Inside
  notFuller : ∀ n, s.before = some n → s.keyboard.pending ≤ n

/-- A backspace is taken from a place that has one before it and is not the last one, and both
indices can go back by two. -/
def BackspaceFits (s : KeyTrace) : KeyOp → Prop
  | .put _ => True
  | .get => s.keyboard.bufferHead ≠ s.keyboard.bufferTail →
      s.keyboard.buffer s.keyboard.bufferTail = backspace →
      0 < s.keyboard.bufferTail ∧ s.keyboard.bufferTail + 1 < bufferSize ∧ 2 ≤ s.keyboard.bufferHead

theorem forall_mem_touches {P : Touch → Prop} :
    (∀ t ∈ touches place p size, P t) ↔ ∀ k < size, P (place (p + (k : Nat))) := by
  simp only [touches, List.forall_mem_map, List.mem_range]

theorem back_eq (h : 2 ≤ i) (hi : i < bufferSize) : u64 (i + 2 ^ 64 - 2) = i - 2 := by
  simp only [u64, bufferSize] at *
  omega

theorem back_lt_iff (hi : i < bufferSize) : u64 (i + 2 ^ 64 - 2) < bufferSize ↔ 2 ≤ i := by
  simp only [u64, bufferSize] at *
  omega

theorem shiftLeft_inside (k : Keyboard) (h : 2 ≤ k.bufferTail) (ht : k.bufferTail < bufferSize) :
    ∀ t ∈ k.shiftLeft.2, t.Inside := by
  have hb : (bufferSize : Int) = 256 := rfl
  have hn : bufferSize = 256 := rfl
  simp only [Keyboard.shiftLeft, List.forall_mem_append, forall_mem_touches, Touch.Inside]
  refine ⟨⟨⟨⟨?_, ?_⟩, ?_⟩, ?_⟩, ?_⟩ <;> intro i hi <;> omega

theorem put_inRange (h : InRange s) : ∃ s', s.step (.put c) = some s' ∧ InRange s' := by
  simp only [step, Option.some.injEq, exists_eq_left', Keyboard.bufferPutC]
  split
  · refine ⟨Nat.mod_lt _ (by decide), h.tail, ?_, nofun⟩
    intro t ht
    cases List.mem_singleton.mp ht
    exact ⟨Int.natCast_nonneg _, Int.ofNat_lt.mpr h.head⟩
  · exact ⟨h.head, h.tail, List.forall_mem_nil _, nofun⟩

theorem get_inRange_iff (h : InRange s) :
    s.BackspaceFits .get ↔ ∃ s', s.step .get = some s' ∧ InRange s' := by
  obtain ⟨⟨buffer, tmp, head, tail⟩, touched, before⟩ := s
  obtain ⟨hh, ht, -, -⟩ := h
  have hfirst : (Touch.buffer tail).Inside := ⟨Int.natCast_nonneg _, Int.ofNat_lt.mpr ht⟩
  have hnext : (tail + 1) % bufferSize < bufferSize := Nat.mod_lt _ (by decide)
  simp only [BackspaceFits, step, Keyboard.bufferGet, Option.some.injEq, exists_eq_left']
  dsimp only at hh ht
  by_cases he : head = tail
  · -- an empty buffer
    simp only [he, if_pos, ne_eq, not_true_eq_false, false_implies, true_iff]
    refine ⟨ht, ht, List.forall_mem_nil _, ?_⟩
    rintro n ⟨⟩
    rfl
  · by_cases hc : buffer tail = backspace
    · simp only [he, hc, if_neg, ne_eq, not_true_eq_false, not_false_eq_true, true_implies]
      constructor
      · rintro ⟨h0, h1, h2⟩
        have hmod : (tail + 1) % bufferSize = tail + 1 := Nat.mod_eq_of_lt h1
        simp only [hmod]
        refine ⟨?_, ?_, ?_, ?_⟩
        · exact (back_lt_iff hh).mpr h2
        · exact (back_lt_iff h1).mpr (by omega)
        · intro t hmem
          rcases List.mem_cons.mp hmem with rfl | hmem
          · exact hfirst
          · exact shiftLeft_inside _ (Nat.succ_le_succ h0) h1 t hmem
        · rintro n ⟨⟩
          simp only [Keyboard.pending, Keyboard.shiftLeft, back_eq h2 hh,
            back_eq (Nat.succ_le_succ h0) h1]
          simp only [bufferSize] at *
          omega
      · rintro ⟨hh', ht', -, -⟩
        have h2 := (back_lt_iff hh).mp hh'
        have h1 := (back_lt_iff hnext).mp ht'
        simp only [bufferSize] at *
        omega
    · simp only [he, hc, if_neg, if_pos, ne_eq, not_false_eq_true, true_implies, false_implies,
        true_iff]
      refine ⟨hh, hnext, ?_, ?_⟩
      · intro t hmem
        cases List.mem_singleton.mp hmem
        exact hfirst
      · rintro n ⟨⟩
        simp only [Keyboard.pending, bufferSize] at *
        omega

/-- The indices and accesses stay in range over exactly the runs on which each backspace is taken
where the indices can go back. -/
theorem always_inRange_iff (ops : List KeyOp) :
    Always step InRange start ops ↔ Meets step BackspaceFits start ops := by
  have hf : Meets step (fun _ _ => True) start ops := Meets.of_forall fun _ _ => trivial
  refine always_iff_meets (I := fun _ => True) (fun _ _ _ _ _ _ _ => trivial) ?_ trivial ?_ hf
  · intro s op _ hs _
    cases op with
    | put c => exact ⟨fun _ => put_inRange hs, fun _ => trivial⟩
    | get => exact get_inRange_iff hs
  · exact ⟨by decide, by decide, List.forall_mem_nil _, nofun⟩

/-- A backspace as the first key: its get writes before the buffer and wraps both indices. -/
theorem first_backspace_out_of_range : ∃ s, run step start [.put backspace, .get] = some s ∧
    s.keyboard.bufferHead = 2 ^ 64 - 1 ∧ s.keyboard.bufferTail = 2 ^ 64 - 1 ∧
    ∃ t ∈ s.touched, ¬ t.Inside := by
  refine ⟨_, rfl, by decide +kernel, by decide +kernel, .buffer (-1), ?_, by decide⟩
  decide +kernel

end KeyTrace

end BiosKernel
