import BiosKernel.Lib.Runs
import BiosKernel.Net.Transmit

namespace BiosKernel
open ByteMem Runs
set_option autoImplicit true

/-- The card and the calls of `send_packet`: one of the code that interrupts can stop, and one of
the interrupt handler, which answers ARP requests. The last field is no data of either: the packets
that the calls have begun to hand over. -/
structure SendState where
  nic : Transmitter
  task : Option SendPacket
  handler : Option SendPacket
  begun : List (List UInt8)

/-- What happens next: a call with the packet in memory, an interrupt whose handler makes one, an
access of either, or the card has its turn. -/
inductive SendEvent where
  | call (m : Mem) (packet packetLen : Nat)
  | interrupt (m : Mem) (packet packetLen : Nat)
  | task
  | handler
  | card

namespace SendState

def start (m : Mem) : SendState := ⟨.reset m, none, none, []⟩

/-- The handler runs with interrupts off, so the task goes on only when the handler's call has
returned. -/
def step (s : SendState) : SendEvent → Option SendState
  | .call m packet len =>
    match s.task, s.handler with
    | none, none =>
      some { s with nic := { s.nic with mem := m }, task := some ⟨packet, len, .entry⟩ }
    | _, _ => none
  | .interrupt m packet len =>
    match s.handler with
    | none => some { s with nic := { s.nic with mem := m }, handler := some ⟨packet, len, .entry⟩ }
    | some _ => none
  | .task =>
    match s.task, s.handler with
    | some p, none =>
      some { s with
        nic := (s.nic.send p).1
        task := (s.nic.send p).2
        begun := s.begun ++ p.handsOver s.nic.mem }
    | _, _ => none
  | .handler =>
    match s.handler with
    | some p =>
      some { s with
        nic := (s.nic.send p).1
        handler := (s.nic.send p).2
        begun := s.begun ++ p.handsOver s.nic.mem }
    | none => none
  | .card => some { s with nic := s.nic.fetch }

/-- The packets fit the descriptors, and no interrupt stops a call of `send_packet` behind its first
access. -/
def Apart (s : SendState) : SendEvent → Prop
  | .call _ packet len => packet < 2 ^ 32 ∧ len < 2 ^ 13
  | .interrupt _ packet len =>
    (packet < 2 ^ 32 ∧ len < 2 ^ 13) ∧ ∀ p, s.task = some p → p.phase = .entry
  | _ => True

/-- The call that is under way. -/
def active (s : SendState) : Option SendPacket :=
  match s.handler with
  | some q => some q
  | none => s.task

/-- The access that the call under way makes next. -/
def turn (s : SendState) : SendEvent :=
  match s.handler with
  | some _ => .handler
  | none => .task

structure Inv (s : SendState) : Prop where
  holds : s.nic.Holds s.begun s.active
  fits : ∀ p, s.task = some p → p.packet < 2 ^ 32 ∧ p.packetLen < 2 ^ 13
  unnested : s.handler ≠ none → ∀ p, s.task = some p → p.phase = .entry

variable {s s' : SendState} {p q : SendPacket}

theorem Inv.ready (h : s.Inv) (hidle : s.handler = none)
    (htask : ∀ p, s.task = some p → p.phase = .entry) : s.nic.Ready s.begun := by
  have hholds := h.holds
  rw [active, hidle] at hholds
  cases hs : s.task with
  | none => rwa [hs] at hholds
  | some p =>
    rw [hs] at hholds
    obtain ⟨_, hduring⟩ := hholds
    rw [Transmitter.During, htask p hs] at hduring
    exact hduring.1

theorem Inv.call (h : s.Inv) (hfit : packet < 2 ^ 32 ∧ len < 2 ^ 13)
    (hs : s.step (.call m packet len) = some s') : s'.Inv := by
  obtain ⟨nic, task, handler, begun⟩ := s
  cases task with
  | some p => cases hs
  | none =>
    cases handler with
    | some q => cases hs
    | none =>
      cases hs
      have hready : nic.Ready begun := h.ready rfl fun p hp => by cases hp
      refine ⟨hready.entry m hfit.1 hfit.2, ?_, fun hn => absurd rfl hn⟩
      intro p hp
      cases hp
      exact hfit

theorem Inv.interrupt (h : s.Inv) (hfit : packet < 2 ^ 32 ∧ len < 2 ^ 13)
    (hapart : ∀ p, s.task = some p → p.phase = .entry)
    (hs : s.step (.interrupt m packet len) = some s') : s'.Inv := by
  obtain ⟨nic, task, handler, begun⟩ := s
  cases handler with
  | some q => cases hs
  | none =>
    cases hs
    have hready : nic.Ready begun := h.ready rfl hapart
    exact ⟨hready.entry m hfit.1 hfit.2, h.fits, fun _ => hapart⟩

theorem Inv.task (h : s.Inv) (hs : s.step .task = some s') : s'.Inv := by
  obtain ⟨nic, task, handler, begun⟩ := s
  cases task with
  | none => cases hs
  | some p =>
    cases handler with
    | some q => cases hs
    | none =>
      cases hs
      refine ⟨Transmitter.Holds.send h.holds, ?_, fun hn => absurd rfl hn⟩
      intro p' hp'
      obtain ⟨⟨hpacket, hlen⟩, _⟩ := Transmitter.send_next hp'
      rw [hpacket, hlen]
      exact h.fits p rfl

theorem Inv.handler (h : s.Inv) (hs : s.step .handler = some s') : s'.Inv := by
  obtain ⟨nic, task, handler, begun⟩ := s
  cases handler with
  | none => cases hs
  | some q =>
    cases hs
    have htask : ∀ p, task = some p → p.phase = .entry := h.unnested (by rintro ⟨⟩)
    have hsend := Transmitter.Holds.send h.holds
    refine ⟨?_, h.fits, fun _ => htask⟩
    show Transmitter.Holds _ _ (active ⟨_, task, (nic.send q).2, _⟩)
    cases hq : (nic.send q).2 with
    | some q' => rwa [hq] at hsend
    | none =>
      -- The task stands before its first access or makes no call, so it finds all sent.
      rw [hq] at hsend
      cases ht : task with
      | none => exact hsend
      | some p =>
        have hphase := htask p ht
        obtain ⟨packet, len, phase⟩ := p
        cases hphase
        obtain ⟨hpacket, hlen⟩ := h.fits _ ht
        exact ⟨hlen, hsend, hpacket⟩

theorem Inv.step (h : s.Inv) (hapart : s.Apart e) (hs : s.step e = some s') : s'.Inv := by
  cases e with
  | call m packet len => exact h.call hapart hs
  | interrupt m packet len => exact h.interrupt hapart.1 hapart.2 hs
  | task => exact h.task hs
  | handler => exact h.handler hs
  | card =>
    cases hs
    exact ⟨h.holds.fetch, h.fits, h.unnested⟩

theorem inv_start : (start m).Inv :=
  ⟨Transmitter.ready_reset, fun _ hp => (by cases hp), fun hn => absurd rfl hn⟩

theorem inv_run (hm : Meets step Apart (start m) es) (h : run step (start m) es = some s) : s.Inv :=
  run_invariant (fun _ _ _ => Inv.step) inv_start hm h

theorem Inv.returns (h : s.Inv) (hp : s.active = some p) (hphase : p.phase = .started) :
    ∃ s', run SendState.step s [.card, s.turn, s.turn] = some s' ∧ s'.nic.wire = s.begun ∧
      s'.handler = none ∧ (s.handler = none → s'.task = none) := by
  obtain ⟨nic, task, handler, begun⟩ := s
  have hholds : nic.Holds begun (some p) := hp ▸ h.holds
  obtain ⟨hsend, hsame⟩ := hholds.returns hphase
  have hwire : nic.fetch.wire = begun := by
    have hsent := hholds.fetch.send
    rw [hsend, hsame, SendPacket.handsOver, if_neg (by rw [hphase]; rintro ⟨⟩),
      List.append_nil] at hsent
    exact Transmitter.Sent.sent hsent.2
  let nic' := { nic.fetch with trrc := (nic.fetch.trrc + 1) % transmitRegisterCount }
  let begun' := begun ++ p.handsOver nic.fetch.mem ++
    SendPacket.handsOver { p with phase := .acknowledged } nic.fetch.mem
  cases handler with
  | some q =>
    cases hp
    refine ⟨⟨nic', task, none, begun'⟩, ?_, hwire, rfl, fun hn => by cases hn⟩
    simp only [run, turn, SendState.step, Option.bind_some, hsend, hsame]
    rfl
  | none =>
    cases hp
    refine ⟨⟨nic', none, none, begun'⟩, ?_, hwire, rfl, fun _ => rfl⟩
    simp only [run, turn, SendState.step, Option.bind_some, hsend, hsame]
    rfl

/-- However the card and interrupts come between the accesses, as long as no call is stopped behind
its first access: every packet is sent once and in the order in which they are handed over,
`send_packet` does not return before its packet is sent, also where it returns to a call that has
not made its first access, and it returns when the card has had its turn. -/
theorem sends_in_order (hm : Meets step Apart (start m) es) (h : run step (start m) es = some s) :
    (∃ fs, fs.length ≤ 1 ∧ s.nic.wire ++ fs = s.begun) ∧
      ((∀ p, s.active = some p → p.phase = .entry) → s.nic.wire = s.begun) ∧
      ∀ p, s.active = some p → p.phase = .started →
        ∃ s', run step s [.card, s.turn, s.turn] = some s' ∧ s'.nic.wire = s.begun ∧
          s'.handler = none ∧ (s.handler = none → s'.task = none) := by
  have hinv := inv_run hm h
  exact ⟨hinv.holds.wire, hinv.holds.wire_eq, fun p hp hphase => hinv.returns hp hphase⟩

/-- The task's first call, up to where it waits for the card. -/
theorem sends_in_order_first : ∃ s, run step (start fun _ => 0)
      [.call (fun _ => 0) 0x1000 42, .task, .card, .task] = some s ∧
    ∃ s', run step s [.card, s.turn, s.turn] = some s' ∧ s'.nic.wire = s.begun := by
  have hm : Meets step Apart (start fun _ => 0)
      [.call (fun _ => 0) 0x1000 42, .task, .card, .task] := by
    simp [Meets, Apart]
  obtain ⟨_, _, hreturns⟩ := sends_in_order hm rfl
  obtain ⟨s', h, hwire, _⟩ := hreturns _ rfl rfl
  exact ⟨_, rfl, s', h, hwire⟩

end SendState
end BiosKernel
