import BiosKernel.Keyboard.Fifo
import BiosKernel.Keyboard.LineEditor
import BiosKernel.Keyboard.ScanCodes

namespace BiosKernel
open MachineInt RingQueue Runs
set_option autoImplicit true

/-- Where a call of `wait_key` stands: in the test of `buffer_is_empty`, in `buffer_get`, or behind
it. `seen` says that the loop ended because the indices differed, and `h` is the head as it has been
read. -/
inductive WaitPhase where
  | idle
  | pollHead
  | pollTail (h : Nat)
  | pollKeys (i : Nat)
  | getHead (seen : Bool)
  | getTail (seen : Bool) (h : Nat)
  | getByte
  | advance (c : UInt8)
  | shift (c : UInt8)
  | took (c : Int)

/-- The keyboard with the call of `wait_key` and the mask of its interrupt. The last two fields are
no data of the kernel: the bytes that `buffer_put_c` has stored, and what `wait_key` has returned.
-/
structure KeyWait where
  input : KeyInput
  phase : WaitPhase
  masked : Bool
  accepted : List UInt8
  results : List Int

/-- What happens next: the interrupt handler puts a byte or changes the state of the keys,
`wait_key` is called, or makes its next access. -/
inductive WaitEvent where
  | put (c : UInt8)
  | keys (ks : KeyboardState)
  | call
  | access

namespace KeyboardState

/-- The flags in the order in which `buffer_is_empty` reads them. -/
def cursorFlags (ks : KeyboardState) : List Bool := [ks.up, ks.down, ks.left, ks.right]

/-- `CURSOR_UP`, `CURSOR_DOWN`, `CURSOR_LEFT`, `CURSOR_RIGHT` or `EOF`. -/
def cursorKey (ks : KeyboardState) : Int :=
  if ks.up then keycodesExtStart
  else if ks.down then keycodesExtStart + 3
  else if ks.left then keycodesExtStart + 1
  else if ks.right then keycodesExtStart + 2
  else eof

end KeyboardState

namespace KeyWait

def start : KeyWait := ⟨.start, .idle, false, [], []⟩

/-- The next access of `wait_key`. The shift behind a backspace is made with interrupts off. -/
def access (s : KeyWait) : Option KeyWait :=
  let k := s.input.keyboard
  match s.phase with
  | .idle => none
  | .pollHead => some { s with phase := .pollTail k.bufferHead }
  | .pollTail h =>
    some { s with phase := if h = k.bufferTail then .pollKeys 0 else .getHead true }
  | .pollKeys i =>
    some { s with
      phase :=
        if s.input.ks.cursorFlags.getD i false then .getHead false
        else if i < 3 then .pollKeys (i + 1) else .pollHead }
  | .getHead seen => some { s with phase := .getTail seen k.bufferHead }
  | .getTail _ h => some { s with phase := if h = k.bufferTail then .took eof else .getByte }
  | .getByte => some { s with phase := .advance (k.buffer k.bufferTail) }
  | .advance c =>
    some { s with
      input.keyboard.bufferTail := (k.bufferTail + 1) % bufferSize
      phase := if c ≠ backspace then .took (signed8 c) else .shift c }
  | .shift c => some { s with input.keyboard := k.shiftLeft.1, phase := .took (signed8 c) }
  | .took c =>
    some { s with
      masked := true
      phase := .idle
      input.ks := if c ≠ eof then s.input.ks else KeyInput.takeCursor s.input.ks
      results := s.results ++ [if c ≠ eof then c else s.input.ks.cursorKey] }

def step (s : KeyWait) : WaitEvent → Option KeyWait
  | .put c =>
    if s.masked then none
    else
      let put := s.input.keyboard.bufferPutC c
      some { s with
        input.keyboard := put.1
        accepted := if put.2 = [] then s.accepted else s.accepted ++ [c] }
  | .keys ks => if s.masked then none else some { s with input.ks := ks }
  | .call =>
    match s.phase with
    | .idle => some { s with masked := false, phase := .pollHead }
    | _ => none
  | .access => s.access

/-- The results that are characters. -/
def chars (results : List Int) : List Int := results.filter fun c => 0 ≤ c ∧ c < keycodesExtStart

/-- The bytes behind a backspace stand in one piece, and two places further back are there. -/
def ShiftFits (k : Keyboard) : WaitPhase → Prop
  | .shift _ => 2 ≤ k.bufferTail ∧ k.bufferTail ≤ k.bufferHead
  | _ => True

instance (k : Keyboard) : (w : WaitPhase) → Decidable (ShiftFits k w)
  | .shift _ => inferInstanceAs (Decidable (_ ∧ _))
  | .idle | .pollHead | .pollTail _ | .pollKeys _ | .getHead _ | .getTail _ _ | .getByte
  | .advance _ | .took _ => .isTrue trivial

/-- The bytes are characters, and a backspace is only taken where the shift can be made. -/
def Fits (s : KeyWait) : WaitEvent → Prop
  | .put c => 1 ≤ c.toNat ∧ c.toNat ≤ 127
  | .access => ShiftFits s.input.keyboard s.phase
  | _ => True

instance (s : KeyWait) : (e : WaitEvent) → Decidable (s.Fits e)
  | .put _ => inferInstanceAs (Decidable (_ ∧ _))
  | .access => inferInstanceAs (Decidable (ShiftFits _ _))
  | .keys _ | .call => .isTrue trivial

/-- A byte that has left the buffer and is not returned yet. -/
def inFlight : WaitPhase → List Int
  | .shift c => [(c.toNat : Int)]
  | .took c => if c = eof then [] else [c]
  | _ => []

/-- The head `h` stood behind the first `n` of the pending bytes `q` when it was read. -/
def ReadHead (k : Keyboard) (q : List UInt8) (h n : Nat) : Prop :=
  n ≤ q.length ∧ h = (k.bufferTail + n) % bufferSize

/-- What `wait_key` knows of the pending bytes. -/
def Knows (k : Keyboard) (q : List UInt8) : WaitPhase → Prop
  | .pollTail h => ∃ n, ReadHead k q h n
  | .getHead seen => seen = true → q ≠ []
  | .getTail seen h => ∃ n, ReadHead k q h n ∧ (seen = true → n ≠ 0)
  | .getByte => q ≠ []
  | .advance c => q.head? = some c
  | .shift c => c = backspace
  | .took c => c = eof ∨ 0 ≤ c ∧ c < keycodesExtStart
  | _ => True

def values (q : List UInt8) : List Int := q.map fun c => (c.toNat : Int)

/-- The bytes `q` are pending, and all that has been accepted before them is returned or in flight.
-/
structure Queues (s : KeyWait) (q : List UInt8) : Prop where
  holds : s.input.keyboard.Holds q
  knows : Knows s.input.keyboard q s.phase
  order : values s.accepted = chars s.results ++ inFlight s.phase ++ values q
  plain : ∀ c ∈ q, c.toNat ≤ 127

variable {s s' : KeyWait} {w : WaitPhase} {k k' : Keyboard} {q : List UInt8}

theorem signed8_plain (h : c.toNat ≤ 127) : signed8 c = c.toNat := by
  rw [signed8, if_pos]
  rw [UInt8.lt_iff_toNat_lt]
  exact Nat.lt_succ_of_le h

theorem ReadHead.ne_tail_iff (h : k.Holds q) (hr : ReadHead k q i n) :
    i ≠ k.bufferTail ↔ n ≠ 0 := by
  obtain ⟨hn, rfl⟩ := hr
  have ht := h.tail
  have hl := h.length
  simp only [bufferSize] at *
  omega

theorem holds_first (h : k.Holds (c :: q)) : k.buffer k.bufferTail = c := by
  have hq := h.bytes
  rw [List.length_cons, queued_cons _ _ _ h.tail] at hq
  exact (List.cons.inj hq).1

theorem holds_rest (h : k.Holds (c :: q)) :
    Keyboard.Holds { k with bufferTail := (k.bufferTail + 1) % bufferSize } q := by
  have hq := h.bytes
  rw [List.length_cons, queued_cons _ _ _ h.tail] at hq
  refine ⟨Nat.mod_lt _ (by decide), Nat.lt_of_succ_lt h.length, ?_, (List.cons.inj hq).2⟩
  rw [h.head, Nat.mod_add_mod, List.length_cons, Nat.add_assoc, Nat.add_comm 1]

theorem Knows.put (h : Knows k q w) (htail : k'.bufferTail = k.bufferTail) :
    Knows k' (q ++ [c]) w := by
  have hread : ∀ i n, ReadHead k q i n → ReadHead k' (q ++ [c]) i n := by
    rintro i n ⟨hn, rfl⟩
    refine ⟨?_, by rw [htail]⟩
    rw [List.length_append]
    exact Nat.le_add_right_of_le hn
  cases w with
  | pollTail i =>
    obtain ⟨n, hr⟩ := h
    exact ⟨n, hread i n hr⟩
  | getTail seen i =>
    obtain ⟨n, hr, hs⟩ := h
    exact ⟨n, hread i n hr, hs⟩
  | getHead seen => exact fun _ => List.append_ne_nil_of_right_ne_nil _ (List.cons_ne_nil _ _)
  | getByte => exact List.append_ne_nil_of_right_ne_nil _ (List.cons_ne_nil _ _)
  | advance b =>
    cases q with
    | nil => cases h
    | cons a q => exact h
  | shift b => exact h
  | took v => exact h
  | idle => trivial
  | pollHead => trivial
  | pollKeys i => trivial

theorem Queues.put (h : s.Queues q) (hc : c.toNat ≤ 127) (hs : s.step (.put c) = some s') :
    ∃ q', s'.Queues q' := by
  rw [step] at hs
  split at hs
  · cases hs
  obtain rfl := Option.some.inj hs
  by_cases hl : q.length = 255
  · refine ⟨q, ?_, ?_, ?_, h.plain⟩
    · simpa only [h.holds.put_full hl] using h.holds
    · simpa only [h.holds.put_full hl] using h.knows
    · simpa only [h.holds.put_full hl, if_pos] using h.order
  · obtain ⟨hk, ht⟩ := h.holds.put (c := c) hl
    refine ⟨q ++ [c], hk, h.knows.put ?_, ?_, ?_⟩
    · simp only [Keyboard.bufferPutC]
      split <;> rfl
    · simp only [if_neg ht, values, List.map_append]
      rw [← values, h.order, List.append_assoc]
      rfl
    · exact List.forall_mem_append.mpr ⟨h.plain, List.forall_mem_singleton.mpr hc⟩

theorem chars_append : chars (l ++ l') = chars l ++ chars l' := List.filter_append ..

/-- A result is the character that was in flight, or a cursor key or `EOF`, which are none. -/
theorem chars_result (ks : KeyboardState) (h : c = eof ∨ 0 ≤ c ∧ c < keycodesExtStart) :
    chars [if c ≠ eof then c else ks.cursorKey] = inFlight (.took c) := by
  have hkey : ¬ (0 ≤ ks.cursorKey ∧ ks.cursorKey < keycodesExtStart) := by
    rw [KeyboardState.cursorKey]
    split_ifs <;> decide
  rw [chars, inFlight]
  by_cases he : c = eof
  · rw [if_pos he, if_neg (not_not.mpr he), List.filter_cons_of_neg (by simpa using hkey),
      List.filter_nil]
  · rw [if_neg he, if_pos he, List.filter_cons_of_pos (by simpa using h.resolve_left he),
      List.filter_nil]

theorem holds_shiftLeft (h : k.Holds q) (htail : 2 ≤ k.bufferTail)
    (hpiece : k.bufferTail ≤ k.bufferHead) : k.shiftLeft.1.Holds q := by
  obtain ⟨ht, hl, hh, hq⟩ := h
  have hhead : k.bufferHead = k.bufferTail + q.length ∧ k.bufferTail + q.length < bufferSize := by
    simp only [bufferSize] at *
    omega
  obtain ⟨hhead, hlt⟩ := hhead
  have htail' : k.shiftLeft.1.bufferTail = k.bufferTail - 2 := KeyTrace.back_eq htail ht
  have hhead' : k.shiftLeft.1.bufferHead = k.bufferHead - 2 :=
    KeyTrace.back_eq (htail.trans hpiece) (hhead ▸ hlt)
  refine ⟨by omega, hl, ?_, ?_⟩
  · rw [htail', hhead', hhead, Nat.mod_eq_of_lt (by omega)]
    omega
  · refine Eq.trans (List.map_congr_left ?_) hq
    intro j hj
    have hj := List.mem_range.mp hj
    rw [htail', Nat.mod_eq_of_lt (by omega), Nat.mod_eq_of_lt (by omega)]
    have hsub : ((k.bufferTail - 2 + j : Nat) : Int) - (k.bufferTail - 2) = j := by omega
    have hlen : j < bufferSize - (k.bufferTail + 1) := by omega
    show memcpy k.buffer (k.bufferTail - 2) _ _ _ = _
    rw [memcpy, if_pos (by omega), hsub, memcpy, if_pos (by omega)]
    exact congrArg k.buffer (by omega)

theorem Queues.access (h : s.Queues q) (hfit : s.Fits .access) (hs : s.access = some s') :
    ∃ q', s'.Queues q' := by
  obtain ⟨⟨k, ks⟩, w, masked, accepted, results⟩ := s
  obtain ⟨hholds, hknows, horder, hplain⟩ := h
  dsimp only at hholds hknows horder
  cases w with
  | idle => cases hs
  | pollHead =>
    cases hs
    exact ⟨q, hholds, ⟨q.length, Nat.le_refl _, hholds.head⟩, horder, hplain⟩
  | pollTail i =>
    obtain ⟨n, hr⟩ := hknows
    obtain rfl := Option.some.inj hs
    refine ⟨q, hholds, ?_, ?_, hplain⟩
    · dsimp only
      split
      · trivial
      · rename_i hne
        rintro - rfl
        exact (hr.ne_tail_iff hholds).mp hne (Nat.le_zero.mp hr.1)
    · dsimp only
      split <;> exact horder
  | pollKeys i =>
    obtain rfl := Option.some.inj hs
    refine ⟨q, hholds, ?_, ?_, hplain⟩
    · dsimp only
      split
      · exact fun h => by cases h
      · split <;> trivial
    · dsimp only
      split
      · exact horder
      · split <;> exact horder
  | getHead seen =>
    cases hs
    refine ⟨q, hholds, ⟨q.length, ⟨Nat.le_refl _, hholds.head⟩, ?_⟩, horder, hplain⟩
    intro h hn
    exact hknows h (List.length_eq_zero_iff.mp hn)
  | getTail seen i =>
    obtain ⟨n, hr, _⟩ := hknows
    obtain rfl := Option.some.inj hs
    refine ⟨q, hholds, ?_, ?_, hplain⟩
    · dsimp only
      split
      · exact .inl rfl
      · rename_i hne
        rintro rfl
        exact (hr.ne_tail_iff hholds).mp hne (Nat.le_zero.mp hr.1)
    · dsimp only
      split <;> exact horder
  | getByte =>
    cases hs
    cases q with
    | nil => exact absurd rfl hknows
    | cons c q =>
      refine ⟨c :: q, hholds, ?_, horder, hplain⟩
      exact congrArg some (holds_first hholds).symm
  | advance c =>
    obtain rfl := Option.some.inj hs
    cases q with
    | nil => cases hknows
    | cons a q =>
      cases hknows
      obtain ⟨hc, hplain⟩ := List.forall_mem_cons.mp hplain
      have hvalue : signed8 c = c.toNat := signed8_plain hc
      have hne : (c.toNat : Int) ≠ eof := KeyLog.natCast_ne_eof _
      refine ⟨q, holds_rest hholds, ?_, ?_, hplain⟩
      · dsimp only
        split
        · refine .inr ?_
          rw [hvalue, keycodesExtStart]
          omega
        · rename_i hb
          exact not_not.mp hb
      · have hflight : inFlight (if c ≠ backspace then .took (signed8 c) else .shift c) =
            [(c.toNat : Int)] := by
          split
          · rw [hvalue, inFlight, if_neg hne]
          · rfl
        have horder : values accepted = chars results ++ values (c :: q) := by
          rw [horder]
          exact congrArg (· ++ _) (List.append_nil _)
        rw [hflight, horder, List.append_assoc]
        rfl
  | shift c =>
    obtain rfl := Option.some.inj hs
    obtain ⟨htail, hpiece⟩ := hfit
    cases hknows
    exact ⟨q, holds_shiftLeft hholds htail hpiece, .inr (by decide), horder, hplain⟩
  | took c =>
    obtain rfl := Option.some.inj hs
    refine ⟨q, hholds, trivial, ?_, hplain⟩
    show values accepted =
      chars (results ++ [if c ≠ eof then c else ks.cursorKey]) ++ [] ++ values q
    rw [chars_append, chars_result ks hknows, List.append_nil]
    exact horder

theorem Queues.step (h : s.Queues q) (hfit : s.Fits e) (hs : s.step e = some s') :
    ∃ q', s'.Queues q' := by
  cases e with
  | put c => exact h.put hfit.2 hs
  | keys ks =>
    rw [KeyWait.step] at hs
    split at hs
    · cases hs
    cases hs
    exact ⟨q, h.holds, h.knows, h.order, h.plain⟩
  | call =>
    obtain ⟨input, w, masked, accepted, results⟩ := s
    cases w with
    | idle =>
      cases hs
      exact ⟨q, h.holds, trivial, h.order, h.plain⟩
    | _ => cases hs
  | access => exact h.access hfit hs

theorem queues_start : start.Queues [] :=
  ⟨Keyboard.empty_holds, trivial, rfl, List.forall_mem_nil _⟩

theorem queues_run (hm : Meets step Fits start es) (h : run step start es = some s) :
    ∃ q, s.Queues q := by
  refine run_invariant (I := fun s : KeyWait => ∃ q, s.Queues q) ?_ ⟨[], queues_start⟩ hm h
  rintro s e s' ⟨q, hq⟩ hfit hs
  exact hq.step hfit hs

end KeyWait
end BiosKernel
