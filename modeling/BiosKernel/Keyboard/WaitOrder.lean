import BiosKernel.Keyboard.WaitKey

namespace BiosKernel
open MachineInt Runs
set_option autoImplicit true

namespace KeyWait

variable {s s' : KeyWait} {q : List UInt8}

/-- A call that has left its loop has found or will find a byte. -/
def Sure : WaitPhase → Prop
  | .getHead seen => seen = true
  | .getTail seen _ => seen = true
  | .took c => c ≠ eof
  | _ => True

/-- No cursor key is pending, and no call has returned `EOF` or will. -/
structure Plain (s : KeyWait) : Prop where
  released : s.input.ks.cursor = false
  sure : Sure s.phase
  results : eof ∉ s.results

theorem released_flags {ks : KeyboardState} (h : ks.cursor = false) (i : Nat) :
    ks.cursorFlags.getD i false = false := by
  simp only [KeyboardState.cursor, Bool.or_eq_false_iff] at h
  obtain ⟨⟨⟨hup, hleft⟩, hdown⟩, hright⟩ := h
  match i with
  | 0 => exact hup
  | 1 => exact hdown
  | 2 => exact hleft
  | 3 => exact hright
  | i + 4 => rfl

theorem Plain.access (h : s.Plain) (hq : s.Queues q) (hs : s.access = some s') : s'.Plain := by
  obtain ⟨⟨k, ks⟩, w, masked, accepted, results⟩ := s
  obtain ⟨hreleased, hsure, hresults⟩ := h
  obtain ⟨hholds, hknows, -, hplain⟩ := hq
  cases w with
  | idle => cases hs
  | pollHead =>
    cases hs
    exact ⟨hreleased, trivial, hresults⟩
  | pollTail i =>
    obtain rfl := Option.some.inj hs
    refine ⟨hreleased, ?_, hresults⟩
    dsimp only
    split
    · trivial
    · rfl
  | pollKeys i =>
    obtain rfl := Option.some.inj hs
    refine ⟨hreleased, ?_, hresults⟩
    simp only [released_flags hreleased, Bool.false_eq_true, if_false]
    split <;> trivial
  | getHead seen =>
    cases hs
    exact ⟨hreleased, hsure, hresults⟩
  | getTail seen i =>
    obtain ⟨n, hr, hn⟩ := hknows
    have hne : i ≠ k.bufferTail := (hr.ne_tail_iff hholds).mpr (hn hsure)
    obtain rfl := Option.some.inj hs
    refine ⟨hreleased, ?_, hresults⟩
    dsimp only
    rw [if_neg hne]
    trivial
  | getByte =>
    cases hs
    exact ⟨hreleased, trivial, hresults⟩
  | advance c =>
    have hc : signed8 c ≠ eof := by
      rw [signed8_plain (hplain c (List.mem_of_head? hknows))]
      exact KeyLog.natCast_ne_eof _
    obtain rfl := Option.some.inj hs
    refine ⟨hreleased, ?_, hresults⟩
    dsimp only
    split
    · exact hc
    · trivial
  | shift c =>
    obtain rfl := Option.some.inj hs
    cases hknows
    exact ⟨hreleased, (by decide : signed8 backspace ≠ eof), hresults⟩
  | took c =>
    have hc : c ≠ eof := hsure
    obtain rfl := Option.some.inj hs
    refine ⟨?_, trivial, ?_⟩
    · dsimp only
      rw [if_pos hc]
      exact hreleased
    · dsimp only
      rw [if_pos hc, List.mem_append, List.mem_singleton]
      rintro (h | h)
      · exact hresults h
      · exact hc h.symm

theorem Plain.step (h : s.Plain) (hq : s.Queues q) (he : ∀ ks, e = .keys ks → ks.cursor = false)
    (hs : s.step e = some s') : s'.Plain := by
  cases e with
  | put c =>
    rw [KeyWait.step] at hs
    split at hs
    · cases hs
    obtain rfl := Option.some.inj hs
    exact ⟨h.released, h.sure, h.results⟩
  | keys ks =>
    rw [KeyWait.step] at hs
    split at hs
    · cases hs
    cases hs
    exact ⟨he ks rfl, h.sure, h.results⟩
  | call =>
    obtain ⟨input, w, masked, accepted, results⟩ := s
    cases w with
    | idle =>
      cases hs
      exact ⟨h.released, trivial, h.results⟩
    | _ => cases hs
  | access => exact h.access hq hs

/-- At whatever accesses of `wait_key` the interrupt comes: the characters that the calls have
returned, the one in flight and the pending bytes are those that `buffer_put_c` has stored, in their
order. With no cursor key no call returns `EOF`. -/
theorem waitKey_fifo (hm : Meets step Fits start es) (h : run step start es = some s) :
    (∃ q, s.input.keyboard.Holds q ∧
      values s.accepted = chars s.results ++ inFlight s.phase ++ values q) ∧
      ((∀ ks, .keys ks ∈ es → ks.cursor = false) → eof ∉ s.results) := by
  obtain ⟨q, hq⟩ := queues_run hm h
  refine ⟨⟨q, hq.holds, hq.order⟩, ?_⟩
  intro hkeys
  have hm' : Meets step (fun s e => s.Fits e ∧ ∀ ks, e = .keys ks → ks.cursor = false) start
      es := by
    refine hm.and (Meets.of_forall_mem ?_)
    rintro e he ks rfl
    exact hkeys ks he
  have hplain : (∃ q, s.Queues q) ∧ s.Plain := by
    refine run_invariant (I := fun s : KeyWait => (∃ q, s.Queues q) ∧ s.Plain) ?_
      ⟨⟨[], queues_start⟩, rfl, trivial, List.not_mem_nil⟩ hm' h
    rintro s e s' ⟨⟨q, hq⟩, hp⟩ ⟨hfit, he⟩ hs
    exact ⟨hq.step hfit hs, hp.step hq he hs⟩
  exact hplain.2.results

/-- A key, then a backspace that comes while the second call looks at the buffer, and two more keys
while the call takes it. -/
def typedAhead : List WaitEvent :=
  [.put 97, .call, .access, .access, .access, .access, .access, .access, .access, .call, .access,
    .put backspace, .access, .access, .access, .put 98, .access, .access, .access, .access, .access,
    .access, .put 99, .access, .access, .access, .access]

theorem waitKey_fifo_typedAhead : ∃ s q, run step start typedAhead = some s ∧ s.results = [97, 8] ∧
    s.input.keyboard.Holds q ∧
    values s.accepted = chars s.results ++ inFlight s.phase ++ values q := by
  have hm : Meets step Fits start typedAhead := by decide +kernel
  have hr : (run step start typedAhead).map results = some [97, 8] := by decide +kernel
  obtain ⟨s, hs, hr⟩ := Option.map_eq_some_iff.mp hr
  obtain ⟨⟨q, hq⟩, _⟩ := waitKey_fifo hm hs
  exact ⟨s, q, hs, hr, hq⟩

end KeyWait
end BiosKernel
