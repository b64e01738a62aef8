import BiosKernel.Net.SendOrder

namespace BiosKernel
open ByteMem Runs
set_option autoImplicit true

namespace SendState

/-- The handler's call with the arguments `packet` and `len`, while a call is stopped in its loop or
behind it: `w` was on the wire and `n` packets had been handed over. -/
inductive Overtakes (w : List (List UInt8)) (n : Nat) (m : Mem) (packet len : Nat) :
    Transmitter → Option SendPacket → Prop where
  /-- The card has gone on from the descriptor of the task's packet, to which the handler's goes. -/
  | stuck {phase : SendPhase} (hcur : t.cur ≠ t.trrc) (howned : t.Owned [t.trrc])
      (hwire : t.wire.length = n) (hphase : phase ≠ .acknowledged)
      (hstarted : phase = .started → t.tsd t.trrc = BitVec.ofNat 32 len) :
      Overtakes w n m packet len t (some ⟨packet, len, phase⟩)
  /-- The task's packet is not sent, and its descriptor is written over. -/
  | waiting {phase : SendPhase} (hturn : t.trrc < transmitRegisterCount) (hcur : t.cur = t.trrc)
      (howned : t.Owned [t.trrc]) (hmem : t.mem = m) (hwire : t.wire = w) (hn : w.length + 1 = n)
      (hgiven : (t.tsd t.trrc).getLsbD transmitOwn = false) (hphase : phase ≠ .acknowledged)
      (haddressed : phase ≠ .entry → t.tsad t.trrc = packet)
      (hstarted : phase = .started → t.tsd t.trrc = BitVec.ofNat 32 len) :
      Overtakes w n m packet len t (some ⟨packet, len, phase⟩)
  | sent {phase : SendPhase} (h : t.Sent (w ++ [bytes m packet len])) (hn : w.length + 1 = n)
      (hphase : phase = .started ∨ phase = .acknowledged) :
      Overtakes w n m packet len t (some ⟨packet, len, phase⟩)
  | returned (h : t.Ready (w ++ [bytes m packet len])) (hn : w.length + 1 = n) :
      Overtakes w n m packet len t none

variable {s s' : SendState} {p q : SendPacket} {t : Transmitter} {o o' : Option SendPacket}

theorem Overtakes.fetch (h : Overtakes w n m packet len t o) (hlen : len < 2 ^ 13) :
    Overtakes w n m packet len t.fetch o := by
  cases h with
  | stuck hcur howned hwire hphase hstarted =>
    rw [Transmitter.fetch_owned (howned _ (by simpa using hcur))]
    exact .stuck hcur howned hwire hphase hstarted
  | @waiting phase hturn hcur howned hmem hwire hn hgiven hphase haddressed hstarted =>
    have hsent := Transmitter.fetch_given (by rw [hcur]; exact hgiven) hcur hturn howned
    by_cases hs : phase = .started
    · rw [hmem, hwire, haddressed (by rw [hs]; rintro ⟨⟩), hstarted hs,
        Transmitter.size_ofNat hlen] at hsent
      exact .sent hsent hn (.inl hs)
    · refine .stuck hsent.cur_ne hsent.owned.apart ?_ hphase fun h => absurd h hs
      rw [hsent.sent, List.length_append, hwire]
      exact hn
  | sent h hn hphase =>
    rw [h.owned.fetch]
    exact .sent h hn hphase
  | returned h hn =>
    rw [h.owned.fetch]
    exact .returned h hn

theorem Overtakes.send (h : Overtakes w n m packet len t (some q)) (hpacket : packet < 2 ^ 32)
    (hlen : len < 2 ^ 13) : Overtakes w n m packet len (t.send q).1 (t.send q).2 := by
  cases h with
  | @stuck phase hcur howned hwire hphase hstarted =>
    cases phase with
    | entry => exact .stuck hcur howned hwire (by rintro ⟨⟩) (by rintro ⟨⟩)
    | addressed =>
      exact .stuck hcur (howned.start _) hwire (by rintro ⟨⟩) fun _ => Function.update_self ..
    | started =>
      rw [Transmitter.send, if_neg (by rw [hstarted rfl, Transmitter.ok_ofNat hlen]; decide)]
      exact .stuck hcur howned hwire hphase hstarted
    | acknowledged => exact absurd rfl hphase
  | @waiting phase hturn hcur howned hmem hwire hn hgiven hphase haddressed hstarted =>
    cases phase with
    | entry =>
      refine .waiting hturn hcur howned hmem hwire hn hgiven (by rintro ⟨⟩) (fun _ => ?_)
        (by rintro ⟨⟩)
      exact (Function.update_self ..).trans (Nat.mod_eq_of_lt hpacket)
    | addressed =>
      have hself : Function.update t.tsd t.trrc (BitVec.ofNat 32 len) t.trrc =
          BitVec.ofNat 32 len := Function.update_self ..
      refine .waiting hturn hcur (howned.start _) hmem hwire hn ?_ (by rintro ⟨⟩)
        (fun _ => haddressed (by rintro ⟨⟩)) fun _ => hself
      exact (congrArg (BitVec.getLsbD · transmitOwn) hself).trans (Transmitter.own_ofNat hlen)
    | started =>
      rw [Transmitter.send, if_neg (by rw [hstarted rfl, Transmitter.ok_ofNat hlen]; decide)]
      exact .waiting hturn hcur howned hmem hwire hn hgiven hphase haddressed hstarted
    | acknowledged => exact absurd rfl hphase
  | sent h hn hphase =>
    rcases hphase with rfl | rfl
    · rw [Transmitter.send, if_pos h.ok]
      exact .sent h hn (.inr rfl)
    · exact .returned ⟨Nat.mod_lt _ (by decide), h.ahead, h.owned, h.sent⟩ hn

theorem Overtakes.run (hpacket : packet < 2 ^ 32) (hlen : len < 2 ^ 13)
    (hes : ∀ e ∈ es, e = .handler ∨ e = .card) (h : Overtakes w n m packet len s.nic s.handler)
    (hrun : Runs.run step s es = some s') : Overtakes w n m packet len s'.nic s'.handler := by
  induction es generalizing s with
  | nil =>
    cases hrun
    exact h
  | cons e es ih =>
    obtain ⟨u, hstep, hrun⟩ := run_cons hrun
    obtain ⟨he, hes⟩ := List.forall_mem_cons.mp hes
    refine ih hes ?_ hrun
    rcases he with rfl | rfl
    · obtain ⟨nic, task, handler, begun⟩ := s
      cases handler with
      | none => cases hstep
      | some q =>
        cases hstep
        exact h.send hpacket hlen
    · cases hstep
      exact h.fetch hlen

theorem Inv.overtakes (h : s.Inv) (m : Mem) (packet len : Nat) (hp : s.task = some p)
    (hidle : s.handler = none) (hphase : p.phase = .started ∨ p.phase = .acknowledged) :
    Overtakes s.nic.wire s.begun.length m packet len { s.nic with mem := m }
      (some ⟨packet, len, .entry⟩) := by
  have hholds := h.holds
  rw [active, hidle, hp] at hholds
  obtain ⟨hlen, hduring⟩ := hholds
  have hsent : s.nic.Sent s.begun → Overtakes s.nic.wire s.begun.length m packet len
      { s.nic with mem := m } (some ⟨packet, len, .entry⟩) := fun hs =>
    .stuck hs.cur_ne hs.owned.apart (congrArg List.length hs.sent) (by rintro ⟨⟩) (by rintro ⟨⟩)
  rcases hphase with hphase | hphase
  · rw [Transmitter.During, hphase] at hduring
    rcases hduring with ⟨hu, hs⟩ | hs
    · refine .waiting hu.turn hu.same hu.owned rfl rfl ?_ ?_ (by rintro ⟨⟩)
        (fun hn => absurd rfl hn) (by rintro ⟨⟩)
      · rw [← hu.unsent, List.length_append]
        rfl
      · exact (congrArg (BitVec.getLsbD · transmitOwn) hs).trans (Transmitter.own_ofNat hlen)
    · exact hsent hs
  · rw [Transmitter.During, hphase] at hduring
    exact hsent hduring

/-- An interrupt whose handler calls `send_packet` while a call waits in its loop, or has left it:
no more than one of both packets is sent. The handler's call never returns if the stopped one's
packet has been sent, and if it returns, its packet has been sent in place of the other. -/
theorem nested_send_loses (hm : Meets step Apart (start m) es)
    (h : run step (start m) es = some s) (hp : s.task = some p)
    (hphase : p.phase = .started ∨ p.phase = .acknowledged) (hidle : s.handler = none)
    (hpacket : packet < 2 ^ 32) (hlen : len < 2 ^ 13)
    (hes : ∀ e ∈ es', e = .handler ∨ e = .card)
    (h' : run step s (.interrupt m' packet len :: es') = some s') :
    s'.nic.wire.length ≤ s.begun.length ∧ (s.nic.wire = s.begun → s'.handler ≠ none) ∧
      (s'.handler = none → s'.nic.wire = s.nic.wire ++ [bytes m' packet len]) := by
  obtain ⟨nic, task, handler, begun⟩ := s
  cases hidle
  have hstart := (inv_run hm h).overtakes m' packet len hp rfl hphase
  have hend := Overtakes.run hpacket hlen hes hstart h'
  generalize s'.nic = t, s'.handler = o at hend ⊢
  cases hend with
  | stuck hcur howned hwire hphase hstarted =>
    exact ⟨hwire.le, fun _ => (by rintro ⟨⟩), fun hn => (by cases hn)⟩
  | waiting hturn hcur howned hmem hwire hn hgiven hphase haddressed hstarted =>
    refine ⟨?_, fun _ => (by rintro ⟨⟩), fun hn => (by cases hn)⟩
    rw [hwire, ← hn]
    exact Nat.le_succ _
  | sent h hn hphase =>
    refine ⟨?_, fun _ => (by rintro ⟨⟩), fun hn => (by cases hn)⟩
    rw [h.sent, List.length_append, ← hn]
    exact Nat.le_refl _
  | returned h hn =>
    refine ⟨?_, fun hw => ?_, fun _ => h.sent⟩
    · rw [h.sent, List.length_append, ← hn]
      exact Nat.le_refl _
    · rw [hw] at hn
      omega

/-- Interrupted while it waits for the card, the task's first packet is lost. -/
theorem nested_send_loses_first : ∃ s s', run step (start fun _ => 0)
      [.call (fun _ => 0) 0x1000 42, .task, .task] = some s ∧
    run step s [.interrupt (fun _ => 1) 0x2000 42, .handler, .handler, .card, .handler, .handler] =
      some s' ∧ s'.nic.wire = [bytes (fun _ => 1) 0x2000 42] := by
  have hm : Meets step Apart (start fun _ => 0)
      [.call (fun _ => 0) 0x1000 42, .task, .task] := by
    simp [Meets, Apart]
  have hes : ∀ e ∈ ([.handler, .handler, .card, .handler, .handler] : List SendEvent),
      e = .handler ∨ e = .card := by
    simp
  refine ⟨_, _, rfl, rfl, ?_⟩
  exact (nested_send_loses hm rfl rfl (.inl rfl) rfl (by decide) (by decide) hes rfl).2.2 rfl

/-- The handler's call with the arguments `packet` and `len` when it has stopped the call `p`
between its two writes at descriptor `r`, and `p` afterwards, at the next descriptor, which still
has the address `stale`. -/
inductive Crossed (w : List (List UInt8)) (m : Mem) (packet len stale r : Nat) (p : SendPacket) :
    Transmitter → Option SendPacket → Option SendPacket → Prop where
  | stopped {t : Transmitter} {phase : SendPhase} (hturn : t.trrc = r)
      (hstale : t.tsad ((r + 1) % transmitRegisterCount) = stale) (hmem : t.mem = m)
      (h : t.Holds (w ++ if phase = .entry then [] else [bytes m packet len])
        (some ⟨packet, len, phase⟩)) :
      Crossed w m packet len stale r p t (some p) (some ⟨packet, len, phase⟩)
  | resumed {t : Transmitter} {task : Option SendPacket}
      (hphase : ∀ p', task = some p' → p'.phase ≠ .entry)
      (h : t.Holds (w ++ [bytes m packet len, bytes m stale p.packetLen]) task) :
      Crossed w m packet len stale r p t task none

theorem Crossed.fetch (h : Crossed w m packet len stale r p t o o') :
    Crossed w m packet len stale r p t.fetch o o' := by
  cases h with
  | stopped hturn hstale hmem h =>
    exact .stopped (t.fetch_trrc.trans hturn) (by rw [t.fetch_tsad, hstale])
      (t.fetch_mem.trans hmem) h.fetch
  | resumed hphase h => exact .resumed hphase h.fetch

/-- The handler's call goes as ever. When it returns, the stopped call stands before its second
access at the next descriptor. -/
theorem Crossed.handler (h : Crossed w m packet len stale r p t o (some q))
    (hp : p.phase = .addressed) (hlen : p.packetLen < 2 ^ 13) :
    Crossed w m packet len stale r p (t.send q).1 o (t.send q).2 := by
  cases h with
  | @stopped phase hturn hstale hmem h =>
    have hsend := h.send
    have hover : (w ++ if phase = .entry then [] else [bytes m packet len]) ++
        SendPacket.handsOver ⟨packet, len, phase⟩ m = w ++ [bytes m packet len] := by
      cases phase <;> simp [SendPacket.handsOver, SendPacket.frame]
    have hr : r < transmitRegisterCount := hturn ▸ h.turn
    rw [hmem, hover] at hsend
    cases phase with
    | entry =>
      refine .stopped hturn ?_ hmem hsend
      show Function.update t.tsad t.trrc _ _ = _
      rw [Function.update_of_ne, hstale]
      simp only [transmitRegisterCount] at hr ⊢
      omega
    | addressed => exact .stopped hturn hstale hmem hsend
    | started =>
      by_cases hok : (t.tsd t.trrc).getLsbD transmitOk
      · simp only [Transmitter.send, if_pos hok] at hsend ⊢
        exact .stopped hturn hstale hmem hsend
      · simp only [Transmitter.send, if_neg hok]
        exact .stopped hturn hstale hmem h
    | acknowledged =>
      obtain ⟨hturn', hsame, howned, hsent⟩ : Transmitter.Ready _ _ := hsend
      refine .resumed (fun p' hp' => ?_) ⟨hlen, ?_⟩
      · cases hp'
        rw [hp]
        rintro ⟨⟩
      · rw [Transmitter.During, hp]
        refine ⟨⟨hturn', hsame, howned.apart, ?_⟩, howned⟩
        have hnext : (t.trrc + 1) % transmitRegisterCount = (r + 1) % transmitRegisterCount := by
          rw [hturn]
        show t.wire ++ [bytes t.mem (t.tsad ((t.trrc + 1) % transmitRegisterCount)) _] = _
        rw [hnext, hstale, hmem, show t.wire = _ from hsent, List.append_assoc]
        rfl

theorem Crossed.task (h : Crossed w m packet len stale r p t (some q) none) :
    Crossed w m packet len stale r p (t.send q).1 (t.send q).2 none := by
  cases h with
  | resumed hphase h =>
    have hq := hphase q rfl
    have hsend := h.send
    rw [SendPacket.handsOver, if_neg hq, List.append_nil] at hsend
    exact .resumed (fun p' hp' => (Transmitter.send_next hp').2) hsend

theorem Crossed.run (hp : p.phase = .addressed) (hlen : p.packetLen < 2 ^ 13)
    (hes : ∀ e ∈ es, e = .task ∨ e = .handler ∨ e = .card)
    (h : Crossed w m packet len stale r p s.nic s.task s.handler)
    (hrun : Runs.run step s es = some s') :
    Crossed w m packet len stale r p s'.nic s'.task s'.handler := by
  induction es generalizing s with
  | nil =>
    cases hrun
    exact h
  | cons e es ih =>
    obtain ⟨u, hstep, hrun⟩ := run_cons hrun
    obtain ⟨he, hes⟩ := List.forall_mem_cons.mp hes
    refine ih hes ?_ hrun
    obtain ⟨nic, task, handler, begun⟩ := s
    rcases he with rfl | rfl | rfl
    · cases task with
      | none => cases hstep
      | some q =>
        cases handler with
        | some _ => cases hstep
        | none =>
          cases hstep
          exact Crossed.task h
    · cases handler with
      | none => cases hstep
      | some q =>
        cases hstep
        exact Crossed.handler h hp hlen
    · cases hstep
      exact Crossed.fetch h

/-- An interrupt whose handler calls `send_packet` when a call stands between its two writes: the
handler's packet is sent, and for the stopped call, when it has returned, the bytes at the address
that the next descriptor had before. -/
theorem crossed_send_stale (hm : Meets step Apart (start m) es)
    (h : run step (start m) es = some s) (hp : s.task = some p) (hphase : p.phase = .addressed)
    (hidle : s.handler = none) (hpacket : packet < 2 ^ 32) (hlen : len < 2 ^ 13)
    (hes : ∀ e ∈ es', e = .task ∨ e = .handler ∨ e = .card)
    (h' : run step s (.interrupt m' packet len :: es') = some s') (hend : s'.active = none) :
    s'.nic.wire = s.nic.wire ++ [bytes m' packet len, bytes m'
      (s.nic.tsad ((s.nic.trrc + 1) % transmitRegisterCount)) p.packetLen] := by
  obtain ⟨nic, task, handler, begun⟩ := s
  cases hidle
  cases hp
  have hinv := inv_run hm h
  obtain ⟨hlenp, hduring⟩ : nic.Holds begun (some p) := hinv.holds
  rw [Transmitter.During, hphase] at hduring
  obtain ⟨hu, howned⟩ := hduring
  have hready : nic.Ready nic.wire := ⟨hu.turn, hu.same, howned, rfl⟩
  have hstart : Crossed nic.wire m' packet len
      (nic.tsad ((nic.trrc + 1) % transmitRegisterCount)) nic.trrc p { nic with mem := m' } (some p)
      (some ⟨packet, len, .entry⟩) := by
    refine .stopped rfl rfl rfl ?_
    rw [if_pos rfl, List.append_nil]
    exact hready.entry m' hpacket hlen
  have hcrossed := Crossed.run hphase hlenp hes hstart h'
  obtain ⟨nic', task', handler', begun'⟩ := s'
  cases handler' with
  | some q => cases hend
  | none =>
    cases hend
    cases hcrossed with
    | resumed _ hholds => exact Transmitter.Ready.sent hholds

/-- Interrupted between the two writes, the task's first call sends 42 bytes from address 0. -/
theorem crossed_send_stale_first : ∃ s s', run step (start fun _ => 0)
      [.call (fun _ => 0) 0x1000 42, .task] = some s ∧
    run step s [.interrupt (fun _ => 1) 0x2000 42, .handler, .handler, .card, .handler, .handler,
      .task, .card, .task, .task] = some s' ∧
    s'.nic.wire = [bytes (fun _ => 1) 0x2000 42, bytes (fun _ => 1) 0 42] := by
  have hm : Meets step Apart (start fun _ => 0) [.call (fun _ => 0) 0x1000 42, .task] := by
    simp [Meets, Apart]
  have hes : ∀ e ∈ ([.handler, .handler, .card, .handler, .handler, .task, .card, .task, .task] :
      List SendEvent), e = .task ∨ e = .handler ∨ e = .card := by
    simp
  refine ⟨_, _, rfl, rfl, ?_⟩
  exact crossed_send_stale hm rfl rfl rfl rfl (by decide) (by decide) hes rfl rfl

end SendState
end BiosKernel
