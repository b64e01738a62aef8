import BiosKernel.Keyboard.Buffer
import BiosKernel.Lib.RingQueue

namespace BiosKernel
open MachineInt RingQueue Runs
set_option autoImplicit true

/-- A byte that is not a backspace and is positive as a `char`. -/
def PlainByte (c : UInt8) : Prop := 1 ≤ c.toNat ∧ c.toNat ≤ 127 ∧ c ≠ backspace

instance : DecidablePred PlainByte := fun _ => inferInstanceAs (Decidable (_ ∧ _ ∧ _))

theorem PlainByte.signed8_eq (h : PlainByte c) : signed8 c = c.toNat := by
  have hlt : c < 128 := by
    rw [UInt8.lt_iff_toNat_lt]
    exact Nat.lt_succ_of_le h.2.1
  rw [signed8, if_pos hlt]

namespace Keyboard

/-- The bytes of `q` are pending, in this order. One place of the ring stays free. -/
structure Holds (k : Keyboard) (q : List UInt8) : Prop where
  tail : k.bufferTail < bufferSize
  length : q.length < bufferSize
  head : k.bufferHead = (k.bufferTail + q.length) % bufferSize
  bytes : queued (fun i => k.buffer i) bufferSize k.bufferTail q.length = q

theorem empty_holds : empty.Holds [] := ⟨by decide, by decide, rfl, rfl⟩

/-- The next place is the tail exactly when all other places are taken. -/
theorem Holds.full_iff {k : Keyboard} (h : k.Holds q) :
    (k.bufferHead + 1) % bufferSize = k.bufferTail ↔ q.length = 255 := by
  obtain ⟨ht, hl, hh, -⟩ := h
  simp only [bufferSize] at *
  omega

theorem Holds.empty_iff {k : Keyboard} (h : k.Holds q) : k.bufferHead = k.bufferTail ↔ q = [] := by
  obtain ⟨ht, hl, hh, -⟩ := h
  rw [← List.length_eq_zero_iff]
  simp only [bufferSize] at *
  omega

theorem Holds.put_full {k : Keyboard} (h : k.Holds q) (hq : q.length = 255) :
    k.bufferPutC c = (k, []) := if_neg (not_not.mpr (h.full_iff.mpr hq))

theorem Holds.put {k : Keyboard} (h : k.Holds q) (hq : q.length ≠ 255) :
    (k.bufferPutC c).1.Holds (q ++ [c]) ∧ (k.bufferPutC c).2 ≠ [] := by
  have hlt : q.length + 1 < bufferSize := by
    have := h.length
    simp only [bufferSize] at *
    omega
  rw [bufferPutC, if_pos (mt h.full_iff.mp hq)]
  refine ⟨⟨h.tail, ?_, ?_, ?_⟩, List.cons_ne_nil _ _⟩
  · rwa [List.length_append]
  · simp only [h.head, List.length_append, List.length_singleton, Nat.mod_add_mod, Nat.add_assoc]
  · have hupdate : (fun i : Nat => Function.update k.buffer (k.bufferHead : Int) c i) =
        Function.update (fun i : Nat => k.buffer i)
          ((k.bufferTail + q.length) % bufferSize) c := by
      rw [h.head]
      exact Function.update_comp_eq_of_injective _ (fun _ _ h => Int.ofNat.inj h) _ _
    simp only [List.length_append, List.length_singleton, hupdate,
      queued_write _ _ _ h.length, h.bytes]

theorem Holds.get {k : Keyboard} (h : k.Holds (c :: q)) (hc : PlainByte c) :
    k.bufferGet.1 = c.toNat ∧ k.bufferGet.2.1.Holds q := by
  have hne : k.bufferHead ≠ k.bufferTail := mt h.empty_iff.mp (List.cons_ne_nil _ _)
  have hq := h.bytes
  rw [List.length_cons, queued_cons _ _ _ h.tail] at hq
  obtain ⟨hfirst, hrest⟩ := List.cons.inj hq
  simp only [bufferGet, if_neg hne, hfirst, if_pos hc.2.2]
  refine ⟨hc.signed8_eq, Nat.mod_lt _ (by decide), ?_, ?_, hrest⟩
  · exact Nat.lt_of_succ_lt h.length
  · rw [h.head, Nat.mod_add_mod, List.length_cons, Nat.add_assoc, Nat.add_comm 1]

theorem Holds.get_empty {k : Keyboard} (h : k.Holds []) : k.bufferGet = (eof, k, []) :=
  if_pos (h.empty_iff.mpr rfl)

end Keyboard

def KeyOp.Plain : KeyOp → Prop
  | .put c => PlainByte c
  | .get => True

instance : DecidablePred KeyOp.Plain
  | .put c => inferInstanceAs (Decidable (PlainByte c))
  | .get => .isTrue trivial

/-- A keyboard with the bytes that `buffer_put_c` has stored and the values other than `EOF` that
`buffer_get` has returned. -/
structure KeyLog where
  keyboard : Keyboard
  accepted : List UInt8
  returned : List Int

namespace KeyLog

def start : KeyLog := ⟨.empty, [], []⟩

def step (s : KeyLog) : KeyOp → Option KeyLog
  | .put c =>
    let (k, touched) := s.keyboard.bufferPutC c
    some ⟨k, if touched = [] then s.accepted else s.accepted ++ [c], s.returned⟩
  | .get =>
    let (c, k, _) := s.keyboard.bufferGet
    some ⟨k, s.accepted, if c = eof then s.returned else s.returned ++ [c]⟩

def acceptedValues (s : KeyLog) : List Int := s.accepted.map fun c => (c.toNat : Int)

/-- The abstract queue: the accepted bytes are those returned and those still pending. -/
def Queues (s : KeyLog) (q : List UInt8) : Prop :=
  s.keyboard.Holds q ∧ s.acceptedValues = s.returned ++ q.map (fun c => (c.toNat : Int)) ∧
    ∀ c ∈ q, PlainByte c

theorem natCast_ne_eof (n : Nat) : (n : Int) ≠ eof := by
  simp only [eof]
  omega

theorem Queues.put {s : KeyLog} (h : s.Queues q) (hc : PlainByte c) :
    ∃ s', s.step (.put c) = some s' ∧ ∃ q', s'.Queues q' := by
  obtain ⟨hk, ha, hq⟩ := h
  by_cases hl : q.length = 255
  · refine ⟨s, ?_, q, hk, ha, hq⟩
    rw [step, hk.put_full hl]
    rfl
  · obtain ⟨hk', ht⟩ := hk.put (c := c) hl
    refine ⟨⟨_, s.accepted ++ [c], s.returned⟩, ?_, q ++ [c], hk', ?_, ?_⟩
    · simp only [step, if_neg ht]
    · simp only [acceptedValues, List.map_append, ← List.append_assoc] at ha ⊢
      rw [ha]
    · exact List.forall_mem_append.mpr ⟨hq, List.forall_mem_singleton.mpr hc⟩

theorem Queues.get {s : KeyLog} (h : s.Queues q) :
    ∃ s', s.step .get = some s' ∧ ∃ q', s'.Queues q' := by
  obtain ⟨hk, ha, hq⟩ := h
  cases q with
  | nil =>
    refine ⟨s, ?_, [], hk, ha, hq⟩
    rw [step, hk.get_empty]
    rfl
  | cons c q =>
    obtain ⟨hc, hq⟩ := List.forall_mem_cons.mp hq
    obtain ⟨hv, hk'⟩ := hk.get hc
    refine ⟨⟨_, s.accepted, s.returned ++ [(c.toNat : Int)]⟩, ?_, q, hk', ?_, hq⟩
    · simp only [step, hv, if_neg (natCast_ne_eof _)]
    · rw [List.append_assoc]
      exact ha

theorem Queues.step {s : KeyLog} (h : s.Queues q) (hop : op.Plain) :
    ∃ s', s.step op = some s' ∧ ∃ q', s'.Queues q' := by
  cases op with
  | put c => exact h.put hop
  | get => exact h.get

theorem start_queues : start.Queues [] :=
  ⟨Keyboard.empty_holds, rfl, List.forall_mem_nil _⟩

theorem Queues.pending {s : KeyLog} (h : s.Queues q) :
    q.length = s.accepted.length - s.returned.length := by
  have hl := congrArg List.length h.2.1
  simp only [acceptedValues, List.length_append, List.length_map] at hl
  omega

theorem Queues.all_returned_iff {s : KeyLog} (h : s.Queues q) :
    s.returned = s.acceptedValues ↔ q = [] := by
  rw [h.2.1, List.self_eq_append_right, List.map_eq_nil_iff]

theorem Queues.get_eof_iff {s : KeyLog} (h : s.Queues q) :
    s.keyboard.bufferGet.1 = eof ↔ q = [] := by
  obtain ⟨hk, -, hq⟩ := h
  cases q with
  | nil => exact ⟨fun _ => rfl, fun _ => congrArg Prod.fst hk.get_empty⟩
  | cons c q =>
    rw [(hk.get (List.forall_mem_cons.mp hq).1).1]
    exact ⟨fun he => absurd he (natCast_ne_eof _), nofun⟩

/-- After every sequence of calls the values returned are a first part of the bytes accepted, the
next put is dropped exactly if 255 bytes are pending, and the next get is `EOF` exactly if
everything accepted has been returned. -/
theorem fifo (ops : List KeyOp) (h : ∀ op ∈ ops, op.Plain) :
    ∃ s, run step start ops = some s ∧ s.returned <+: s.acceptedValues ∧
      (∀ c, (s.keyboard.bufferPutC c).2 = [] ↔ s.accepted.length - s.returned.length = 255) ∧
      (s.keyboard.bufferGet.1 = eof ↔ s.returned = s.acceptedValues) := by
  have hruns : Always step (fun s : KeyLog => ∃ q, s.Queues q) start ops := by
    have hm : Meets step (fun _ => KeyOp.Plain) start ops := Meets.of_forall_mem h
    refine always_of_meets ?_ (fun _ hs => hs) ⟨[], start_queues⟩ hm
    rintro s op ⟨q, hq⟩ hop
    exact hq.step hop
  obtain ⟨s, hs, q, hq⟩ := hruns.last
  refine ⟨s, hs, ⟨_, hq.2.1.symm⟩, ?_, ?_⟩
  · intro c
    rw [← hq.pending]
    constructor
    · intro hd
      by_contra hne
      exact (hq.1.put hne).2 hd
    · intro hl
      exact congrArg Prod.snd (hq.1.put_full hl)
  · rw [hq.get_eof_iff, hq.all_returned_iff]

/-- Three keys, of which one has been read. -/
theorem fifo_three : ∃ s, run step start [.put 97, .put 98, .get, .put 99] = some s ∧
    s.returned <+: s.acceptedValues ∧
    (∀ c, (s.keyboard.bufferPutC c).2 = [] ↔ s.accepted.length - s.returned.length = 255) ∧
    (s.keyboard.bufferGet.1 = eof ↔ s.returned = s.acceptedValues) :=
  fifo _ (by decide +kernel)

end KeyLog

end BiosKernel
