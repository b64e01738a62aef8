import BiosKernel.Net.Rtl8139

namespace BiosKernel
open ByteMem
set_option autoImplicit true

/-- `RTL8139_OFFSET_TRANSMIT_OK`: the bit of a descriptor's status by which the card reports that
its frame has been sent. -/
def transmitOk : Nat := 15

/-- The bit of a descriptor's status that is clear while the descriptor belongs to the card. -/
def transmitOwn : Nat := 13

/-- `RTL8139_TRANSMIT_REGISTER_COUNT`. -/
def transmitRegisterCount : Nat := 4

/-- The transmitting half of the card with what `send_packet` shares with it. `tsad` and `tsd` are
the registers at `RTL8139_OFFSET_TRANSMIT_BUF_0` and `RTL8139_OFFSET_TRANSMIT_CMD_0`, `cur` is the
descriptor that the card serves next, and `wire` what it has sent. -/
structure Transmitter where
  tsad : Nat → Nat
  tsd : Nat → BitVec 32
  cur : Nat
  wire : List (List UInt8)
  mem : Mem
  trrc : Nat

/-- Where a call of `send_packet` stands: before its first `outl`, before its second one, in the
loop, and behind the loop. -/
inductive SendPhase where
  | entry
  | addressed
  | started
  | acknowledged
  deriving DecidableEq

structure SendPacket where
  packet : Nat
  packetLen : Nat
  phase : SendPhase

def SendPacket.frame (p : SendPacket) (m : Mem) : List UInt8 := bytes m p.packet p.packetLen

/-- What the next access of the call begins to hand over. -/
def SendPacket.handsOver (p : SendPacket) (m : Mem) : List (List UInt8) :=
  if p.phase = .entry then [p.frame m] else []

namespace Transmitter

def reset (mem : Mem) : Transmitter where
  tsad := fun _ => 0
  tsd := fun _ => 0x2000
  cur := 0
  wire := []
  mem := mem
  trrc := 0

/-- The card serves its descriptors in turn. It reads the frame of the next one from memory as soon
as that descriptor is its own, sends it, and gives the descriptor back. -/
def fetch (t : Transmitter) : Transmitter :=
  if (t.tsd t.cur).getLsbD transmitOwn then t
  else
    { t with
      wire := t.wire ++ [bytes t.mem (t.tsad t.cur) ((t.tsd t.cur).toNat % 2 ^ 13)]
      tsd := Function.update t.tsd t.cur (t.tsd t.cur ||| 0xA000)
      cur := (t.cur + 1) % transmitRegisterCount }

/-- One access of `send_packet`. The compiler keeps nothing over an `outl` or `inl`, so `g_nic.trrc`
is read anew for each. The call has returned when there is none left. -/
def send (t : Transmitter) (p : SendPacket) : Transmitter × Option SendPacket :=
  match p.phase with
  | .entry =>
    ({ t with tsad := Function.update t.tsad t.trrc (p.packet % 2 ^ 32) },
      some { p with phase := .addressed })
  | .addressed =>
    ({ t with tsd := Function.update t.tsd t.trrc (BitVec.ofNat 32 p.packetLen) },
      some { p with phase := .started })
  | .started =>
    if (t.tsd t.trrc).getLsbD transmitOk then (t, some { p with phase := .acknowledged })
    else (t, some p)
  | .acknowledged => ({ t with trrc := (t.trrc + 1) % transmitRegisterCount }, none)

theorem fetch_trrc (t : Transmitter) : t.fetch.trrc = t.trrc := by
  unfold fetch
  split <;> rfl

theorem fetch_tsad (t : Transmitter) : t.fetch.tsad = t.tsad := by
  unfold fetch
  split <;> rfl

theorem fetch_mem (t : Transmitter) : t.fetch.mem = t.mem := by
  unfold fetch
  split <;> rfl

theorem send_next (h : (send t p).2 = some q) :
    (q.packet = p.packet ∧ q.packetLen = p.packetLen) ∧ q.phase ≠ .entry := by
  obtain ⟨packet, len, phase⟩ := p
  cases phase with
  | entry =>
    cases h
    exact ⟨⟨rfl, rfl⟩, by rintro ⟨⟩⟩
  | addressed =>
    cases h
    exact ⟨⟨rfl, rfl⟩, by rintro ⟨⟩⟩
  | started =>
    simp only [send] at h
    split at h
    all_goals
      cases h
      exact ⟨⟨rfl, rfl⟩, by rintro ⟨⟩⟩
  | acknowledged => cases h

/-- No descriptor is the card's, but for those in `is`. -/
def Owned (t : Transmitter) (is : List Nat) : Prop :=
  ∀ i, i ∉ is → (t.tsd i).getLsbD transmitOwn = true

/-- The frames `b` are sent, and the driver and the card go on at the same descriptor. -/
structure Ready (t : Transmitter) (b : List (List UInt8)) : Prop where
  turn : t.trrc < transmitRegisterCount
  same : t.cur = t.trrc
  owned : t.Owned []
  sent : t.wire = b

/-- The address of the last of the frames `b` is in the descriptor at which both stand, and it is
the only one not sent. -/
structure Unsent (t : Transmitter) (b : List (List UInt8)) (packetLen : Nat) : Prop where
  turn : t.trrc < transmitRegisterCount
  same : t.cur = t.trrc
  owned : t.Owned [t.trrc]
  unsent : t.wire ++ [bytes t.mem (t.tsad t.trrc) packetLen] = b

/-- The frames `b` are sent, and the driver has not gone on from the descriptor of the last one. -/
structure Sent (t : Transmitter) (b : List (List UInt8)) : Prop where
  turn : t.trrc < transmitRegisterCount
  ahead : t.cur = (t.trrc + 1) % transmitRegisterCount
  owned : t.Owned []
  ok : (t.tsd t.trrc).getLsbD transmitOk = true
  sent : t.wire = b

/-- What holds while `p` is the call of `send_packet` that is under way, with `b` handed over. -/
def During (t : Transmitter) (b : List (List UInt8)) (p : SendPacket) : Prop :=
  match p.phase with
  | .entry => t.Ready b ∧ p.packet < 2 ^ 32
  | .addressed => t.Unsent b p.packetLen ∧ t.Owned []
  | .started => t.Unsent b p.packetLen ∧ t.tsd t.trrc = BitVec.ofNat 32 p.packetLen ∨ t.Sent b
  | .acknowledged => t.Sent b

/-- What holds between two calls, and during one. -/
def Holds (t : Transmitter) (b : List (List UInt8)) : Option SendPacket → Prop
  | none => t.Ready b
  | some p => p.packetLen < 2 ^ 13 ∧ t.During b p

variable {t : Transmitter} {b : List (List UInt8)} {p : SendPacket} {o : Option SendPacket}

theorem ready_reset : (reset m).Ready [] :=
  ⟨Nat.zero_lt_succ 3, rfl,
    fun _ _ => (by decide : (0x2000 : BitVec 32).getLsbD transmitOwn = true), rfl⟩

theorem own_ofNat (h : n < 2 ^ 13) : (BitVec.ofNat 32 n).getLsbD transmitOwn = false := by
  rw [BitVec.getLsbD_ofNat, transmitOwn, Nat.testBit_lt_two_pow h, Bool.and_false]

theorem ok_ofNat (h : n < 2 ^ 13) : (BitVec.ofNat 32 n).getLsbD transmitOk = false := by
  rw [BitVec.getLsbD_ofNat, transmitOk, Nat.testBit_lt_two_pow (h.trans (by decide)),
    Bool.and_false]

theorem size_ofNat (h : n < 2 ^ 13) : (BitVec.ofNat 32 n).toNat % 2 ^ 13 = n := by
  rw [BitVec.toNat_ofNat, Nat.mod_eq_of_lt (h.trans (by decide)), Nat.mod_eq_of_lt h]

theorem own_report (x : BitVec 32) : (x ||| 0xA000).getLsbD transmitOwn = true := by
  rw [BitVec.getLsbD_or, show (0xA000 : BitVec 32).getLsbD transmitOwn = true from rfl,
    Bool.or_true]

theorem ok_report (x : BitVec 32) : (x ||| 0xA000).getLsbD transmitOk = true := by
  rw [BitVec.getLsbD_or, show (0xA000 : BitVec 32).getLsbD transmitOk = true from rfl, Bool.or_true]

theorem fetch_owned (h : (t.tsd t.cur).getLsbD transmitOwn = true) : t.fetch = t := by
  rw [fetch, if_pos h]

theorem fetch_given (h : (t.tsd t.cur).getLsbD transmitOwn = false) (hcur : t.cur = t.trrc)
    (hturn : t.trrc < transmitRegisterCount) (howned : t.Owned [t.trrc]) :
    t.fetch.Sent (t.wire ++ [bytes t.mem (t.tsad t.trrc) ((t.tsd t.trrc).toNat % 2 ^ 13)]) := by
  rw [fetch, if_neg (by rw [h]; decide), hcur]
  refine ⟨hturn, rfl, ?_, ?_, rfl⟩
  · intro i _
    show (Function.update t.tsd t.trrc _ i).getLsbD transmitOwn = true
    by_cases hi : i = t.trrc
    · rw [hi, Function.update_self, own_report]
    · rw [Function.update_of_ne hi]
      exact howned i (by simpa using hi)
  · show (Function.update t.tsd t.trrc _ t.trrc).getLsbD transmitOk = true
    rw [Function.update_self, ok_report]

theorem Owned.fetch (h : t.Owned []) : t.fetch = t := fetch_owned (h _ List.not_mem_nil)

theorem Owned.apart (h : t.Owned []) : t.Owned is := fun i _ => h i List.not_mem_nil

theorem Sent.cur_ne (h : t.Sent b) : t.cur ≠ t.trrc := by
  obtain ⟨hturn, hahead, _⟩ := h
  simp only [transmitRegisterCount] at hturn hahead
  omega

theorem Owned.start (h : t.Owned [t.trrc]) (x : BitVec 32) :
    Owned { t with tsd := Function.update t.tsd t.trrc x } [t.trrc] := by
  intro i hi
  show (Function.update t.tsd t.trrc x i).getLsbD transmitOwn = true
  rw [Function.update_of_ne (by simpa using hi)]
  exact h i hi

theorem Unsent.fetch (h : t.Unsent b len) (hlen : len < 2 ^ 13)
    (hs : t.tsd t.trrc = BitVec.ofNat 32 len) : t.fetch.Sent b := by
  have hown : (t.tsd t.cur).getLsbD transmitOwn = false := by
    rw [h.same, hs, own_ofNat hlen]
  have hsent := fetch_given hown h.same h.turn h.owned
  rwa [hs, size_ofNat hlen, h.unsent] at hsent

theorem Holds.fetch (h : t.Holds b o) : t.fetch.Holds b o := by
  cases o with
  | none => exact (Owned.fetch h.owned).symm ▸ h
  | some p =>
    obtain ⟨packet, len, phase⟩ := p
    obtain ⟨hlen, h⟩ := h
    refine ⟨hlen, ?_⟩
    cases phase with
    | entry => exact (Owned.fetch h.1.owned).symm ▸ h
    | addressed => exact (Owned.fetch h.2).symm ▸ h
    | started =>
      rcases h with ⟨hu, hs⟩ | hs
      · exact .inr (hu.fetch hlen hs)
      · exact .inr ((Owned.fetch hs.owned).symm ▸ hs)
    | acknowledged => exact (Owned.fetch (Sent.owned h)).symm ▸ h

theorem Holds.send (h : t.Holds b (some p)) :
    (t.send p).1.Holds (b ++ p.handsOver t.mem) (t.send p).2 := by
  obtain ⟨packet, len, phase⟩ := p
  obtain ⟨hlen, h⟩ := h
  cases phase with
  | entry =>
    obtain ⟨⟨hturn, hsame, howned, hsent⟩, hpacket⟩ := h
    refine ⟨hlen, ⟨hturn, hsame, howned.apart, ?_⟩, howned⟩
    show t.wire ++ [bytes t.mem (Function.update t.tsad t.trrc (packet % 2 ^ 32) t.trrc) len] = _
    rw [Function.update_self, Nat.mod_eq_of_lt hpacket, hsent]
    rfl
  | addressed =>
    rw [SendPacket.handsOver, if_neg (by rintro ⟨⟩), List.append_nil]
    obtain ⟨⟨hturn, hsame, howned, hunsent⟩, _⟩ := h
    exact ⟨hlen, .inl ⟨⟨hturn, hsame, howned.start _, hunsent⟩, Function.update_self ..⟩⟩
  | started =>
    rw [SendPacket.handsOver, if_neg (by rintro ⟨⟩), List.append_nil]
    rcases h with ⟨hu, hs⟩ | hs
    · rw [Transmitter.send, if_neg (by rw [hs, ok_ofNat hlen]; decide)]
      exact ⟨hlen, .inl ⟨hu, hs⟩⟩
    · rw [Transmitter.send, if_pos hs.ok]
      exact ⟨hlen, hs⟩
  | acknowledged =>
    rw [SendPacket.handsOver, if_neg (by rintro ⟨⟩), List.append_nil]
    obtain ⟨_, hahead, howned, _, hsent⟩ : t.Sent b := h
    exact ⟨Nat.mod_lt _ (by decide), hahead, howned, hsent⟩

theorem Holds.turn (h : t.Holds b o) : t.trrc < transmitRegisterCount := by
  cases o with
  | none => exact Ready.turn h
  | some p =>
    obtain ⟨packet, len, phase⟩ := p
    obtain ⟨_, h⟩ := h
    cases phase with
    | entry => exact h.1.turn
    | addressed => exact h.1.turn
    | started =>
      rcases h with ⟨hu, _⟩ | hs
      · exact hu.turn
      · exact hs.turn
    | acknowledged => exact Sent.turn h

theorem Ready.entry (h : t.Ready b) (m : Mem) (hp : packet < 2 ^ 32) (hlen : len < 2 ^ 13) :
    Holds { t with mem := m } b (some ⟨packet, len, .entry⟩) :=
  ⟨hlen, ⟨h.turn, h.same, h.owned, h.sent⟩, hp⟩

theorem Holds.wire (h : t.Holds b o) : ∃ fs, fs.length ≤ 1 ∧ t.wire ++ fs = b := by
  cases o with
  | none => exact ⟨[], Nat.zero_le 1, (List.append_nil _).trans h.sent⟩
  | some p =>
    obtain ⟨packet, len, phase⟩ := p
    obtain ⟨_, h⟩ := h
    cases phase with
    | entry => exact ⟨[], Nat.zero_le 1, (List.append_nil _).trans h.1.sent⟩
    | addressed => exact ⟨[_], Nat.le_refl 1, h.1.unsent⟩
    | started =>
      rcases h with ⟨hu, _⟩ | hs
      · exact ⟨[_], Nat.le_refl 1, hu.unsent⟩
      · exact ⟨[], Nat.zero_le 1, (List.append_nil _).trans hs.sent⟩
    | acknowledged => exact ⟨[], Nat.zero_le 1, (List.append_nil _).trans (Sent.sent h)⟩

theorem Holds.wire_eq (h : t.Holds b o) (ho : ∀ p, o = some p → p.phase = .entry) :
    t.wire = b := by
  cases o with
  | none => exact h.sent
  | some p =>
    obtain ⟨_, h⟩ := h
    rw [During, ho p rfl] at h
    exact h.1.sent

theorem Holds.returns (h : t.Holds b (some p)) (hp : p.phase = .started) :
    (t.fetch.send p).2 = some { p with phase := .acknowledged } ∧
      (t.fetch.send p).1 = t.fetch := by
  have hsent : t.fetch.Sent b := by
    obtain ⟨hlen, h⟩ := h
    rw [During, hp] at h
    rcases h with ⟨hu, hs⟩ | hs
    · exact hu.fetch hlen hs
    · exact (Owned.fetch hs.owned).symm ▸ hs
  rw [Transmitter.send, hp]
  show (if (t.fetch.tsd t.fetch.trrc).getLsbD transmitOk then _ else _ : _ × _).2 = _ ∧ _
  rw [if_pos hsent.ok]
  exact ⟨rfl, rfl⟩

end Transmitter
end BiosKernel
