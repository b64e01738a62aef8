import BiosKernel.Net.Rtl8139

namespace BiosKernel
open ByteMem MachineInt RingBuffer Runs
set_option autoImplicit true

/-- The frame without its CRC, as `handle_packet` is to see it. -/
def payload (f : Frame) : List UInt8 := f.take (f.length - rxCrcLen)

/-- The lengths that the receive ring is made for. -/
def ValidLength (f : Frame) : Prop := 8 < f.length ∧ f.length < 8000

instance (f : Frame) : Decidable (ValidLength f) := inferInstanceAs (Decidable (_ ∧ _))

namespace Rtl8139

/-- The driver has moved past the frames `old`, has passed on those of `cur`, of which there is one
behind `handle_packet` and none elsewhere, and finds the frames `new` in the ring. -/
structure Synced (s : Rtl8139) (old cur new : List Frame) : Prop where
  arrived : s.arrived = old ++ cur ++ new
  lengths : ∀ f ∈ s.arrived, ValidLength f
  cbr : s.cbr = extent frameSlot s.arrived % rxBufferSize
  rxOffset : s.rxOffset = extent frameSlot old % rxBufferSize
  capr : s.capr = (s.rxOffset + 2 ^ 16 - 16) % 2 ^ 16
  room : extent frameSlot (cur ++ new) < rxBufferSize
  stored : ∀ x ∈ placed frameSlot (extent frameSlot (old ++ cur)) new,
    StoredAt s.buf (x.1 % rxBufferSize) x.2
  passed : s.passed = (old ++ cur).map payload
  receiveCnt : s.receiveCnt = (old ++ cur).length
  phase : match s.phase with
    | .handled len => ∃ f, cur = [f] ∧ len = f.length - rxCrcLen
    | _ => cur = []

variable {s s' : Rtl8139} {old cur new : List Frame}

theorem synced_reset (buf : Mem) : (reset buf).Synced [] [] [] where
  arrived := rfl
  lengths f hf := absurd hf List.not_mem_nil
  cbr := rfl
  rxOffset := rfl
  capr := by
    show (2 ^ 16 - 16 : Nat) = (0 + 2 ^ 16 - 16) % 2 ^ 16
    decide
  room := by decide
  stored x hx := absurd hx List.not_mem_nil
  passed := rfl
  receiveCnt := rfl
  phase := rfl

theorem Synced.extent_arrived (h : s.Synced old cur new) : extent frameSlot s.arrived =
    extent frameSlot old + extent frameSlot (cur ++ new) := by
  rw [h.arrived, List.append_assoc, extent_append]

theorem Synced.room_of_fits (h : s.Synced old cur new) (hv : ValidLength f) (hf : s.Fits f) :
    extent frameSlot (cur ++ new) + frameSlot f < rxBufferSize := by
  have hroom := h.room
  have hslot := (frameSlot_bounds f).2
  have hlt := hv.2
  rw [Fits, h.capr, h.rxOffset, h.cbr, h.extent_arrived] at hf
  simp only [rxBufferSize] at hf hroom ⊢
  omega

theorem storedAt_put_behind (hx : x ∈ placed frameSlot v new) (hw : v + extent frameSlot new = w)
    (hroom : w + frameSlot f < v + rxBufferSize) (hs : StoredAt m (x.1 % rxBufferSize) x.2)
    (hbs : bs.length = 4 + f.length) :
    StoredAt (put m (w % rxBufferSize) bs) (x.1 % rxBufferSize) x.2 := by
  obtain ⟨hle, hend⟩ := placed_bounds hx
  have hslot := (frameSlot_bounds x.2).1
  have hslot' := (frameSlot_bounds f).1
  have hvw : x.1 ≤ w := by omega
  have hahead := mod_ahead rxBufferSize hvw (by omega)
  apply hs.put
  rw [hbs, hahead]
  split
  · right
    omega
  · left
    omega

theorem Synced.arrive_fits (h : s.Synced old cur new) (hv : ValidLength f) (hf : s.Fits f) :
    (s.arrive f).Synced old cur (new ++ [f]) := by
  have hroom := h.room_of_fits hv hf
  have hext := h.extent_arrived
  have hw : extent frameSlot (old ++ cur) + extent frameSlot new = extent frameSlot s.arrived := by
    rw [h.arrived, extent_append (old ++ cur)]
  rw [arrive, if_pos hf, write]
  refine ⟨?_, ?_, ?_, h.rxOffset, h.capr, ?_, ?_, h.passed, h.receiveCnt, h.phase⟩
  · dsimp only
    rw [h.arrived, List.append_assoc]
  · intro g hg
    rcases List.mem_append.mp hg with hg | hg
    · exact h.lengths g hg
    · rw [List.mem_singleton.mp hg]
      exact hv
  · dsimp only
    rw [h.cbr, nextRingOffset_mod (extent_dvd frameSlot_dvd _), extent_append, extent_cons,
      extent_nil, Nat.add_zero]
  · rw [← List.append_assoc, extent_append, extent_cons, extent_nil, Nat.add_zero]
    exact hroom
  · intro x hx
    dsimp only
    rw [placed_append, hw] at hx
    rw [h.cbr]
    rcases List.mem_append.mp hx with hx | hx
    · refine storedAt_put_behind hx hw (f := f) ?_ (h.stored x hx) ?_
      · rw [hext, extent_append old cur]
        omega
      · rw [List.length_append]
        rfl
    · rw [List.mem_singleton.mp hx]
      exact storedAt_put _ _ f hv.2

theorem Synced.arrive (h : s.Synced old cur new) (hv : ValidLength f) :
    ∃ new', (s.arrive f).Synced old cur new' := by
  by_cases hf : s.Fits f
  · exact ⟨_, h.arrive_fits hv hf⟩
  · rw [Rtl8139.arrive, if_neg hf]
    exact ⟨new, h⟩

theorem Synced.congr (h : s.Synced old [] new) (isr : Nat) (phase : HandlerPhase) (quiet : Bool)
    (hp : ∀ len, phase ≠ .handled len) : Synced { s with isr, phase, quiet } old [] new := by
  refine ⟨h.arrived, h.lengths, h.cbr, h.rxOffset, h.capr, h.room, h.stored, h.passed,
    h.receiveCnt, ?_⟩
  cases phase with
  | handled len => exact absurd rfl (hp len)
  | idle => rfl
  | statusRead status => rfl
  | acknowledged status => rfl

theorem Synced.head_stored (h : s.Synced old [] (f :: new)) : StoredAt s.buf s.rxOffset f := by
  have hs := h.stored (extent frameSlot old, f) (by rw [List.append_nil]; exact List.mem_cons_self)
  rw [h.rxOffset]
  exact hs

theorem Synced.packetLen_eq (h : s.Synced old [] (f :: new)) :
    s.packetLen = (f.length - rxCrcLen : Nat) ∧ 4 < f.length - rxCrcLen := by
  have hv : ValidLength f := h.lengths f (by rw [h.arrived]; simp)
  rw [packetLen, h.head_stored.length, rxCrcLen]
  obtain ⟨hlo, hhi⟩ := hv
  exact ⟨by omega, by omega⟩

/-- The type that `handle_packet` rewrites is no part of what lies behind the frame, the first two
bytes of the next header apart. -/
theorem storedAt_handlePacket (hv : ValidLength f)
    (hx : x ∈ placed frameSlot (v + frameSlot f) new) (hdvd : 4 ∣ v)
    (hroom : frameSlot f + extent frameSlot new < rxBufferSize)
    (hs : StoredAt m (x.1 % rxBufferSize) x.2) :
    StoredAt (handlePacket m (v % rxBufferSize + 4)) (x.1 % rxBufferSize) x.2 := by
  obtain ⟨hle, hend⟩ := placed_bounds hx
  have hslot := (frameSlot_bounds x.2).1
  have hslot' := (frameSlot_bounds f).1
  have hd := placed_dvd frameSlot_dvd hx
  have hvx : v ≤ x.1 := by omega
  have hahead := mod_ahead rxBufferSize hvx (by omega)
  have hlen (n : Nat) : (le16 n).length = 2 := rfl
  have hmod : v % rxBufferSize < rxBufferSize := Nat.mod_lt _ (by decide)
  have hv9 := hv.1
  have hfd := frameSlot_dvd f
  apply hs.put
  rw [hlen, hahead]
  split
  · left
    omega
  · right
    omega

theorem and_not_three (h : n < 2 ^ 32) : n &&& (2 ^ 32 - 1 - 3) = n / 4 * 4 := by
  have hmask : (2 ^ 32 - 1 - 3 : Nat) = (2 ^ 30 - 1) <<< 2 := by decide
  have hround : n / 4 * 4 = n >>> 2 <<< 2 := by rw [Nat.shiftLeft_eq, Nat.shiftRight_eq_div_pow]
  rw [hmask, hround]
  apply Nat.eq_of_testBit_eq
  intro i
  rw [Nat.testBit_and, Nat.testBit_shiftLeft, Nat.testBit_shiftLeft, Nat.testBit_two_pow_sub_one,
    Nat.testBit_shiftRight]
  by_cases hi : 2 ≤ i
  · rw [Nat.add_sub_cancel' hi]
    by_cases hbit : i - 2 < 30
    · simp [hi, hbit]
    · have hn : n.testBit i = false :=
        Nat.testBit_lt_two_pow (Nat.lt_of_lt_of_le h (Nat.pow_le_pow_right (by decide) (by omega)))
      simp [hn]
  · simp [hi]

theorem capr_eq (offset : Nat) :
    u32 (offset + 2 ^ 32 - 16) &&& 0xFFFF = (offset + 2 ^ 16 - 16) % 2 ^ 16 := by
  rw [show 0xFFFF = 2 ^ 16 - 1 from rfl, Nat.and_two_pow_sub_one_eq_mod, u32]
  omega

/-- A call of `receive_packet`, counted as the handler counts it. -/
def callReceivePacket (s : Rtl8139) : Rtl8139 :=
  { s with receiveCnt := s.receiveCnt + 1 }.receivePacket

theorem callReceivePacket_eq (hlen : s.packetLen = (len : Nat)) (hlt : 4 < len) :
    s.callReceivePacket =
      { s with
        receiveCnt := s.receiveCnt + 1
        buf := handlePacket s.buf (s.rxOffset + 4)
        passed := s.passed ++ [bytes s.buf (s.rxOffset + 4) len]
        phase := .handled len } := by
  have hpacket : Rtl8139.packetLen { s with receiveCnt := s.receiveCnt + 1 } = (len : Nat) := hlen
  rw [callReceivePacket, receivePacket, hpacket, if_neg (by omega)]
  rfl

theorem Synced.callReceivePacket (h : s.Synced old [] (f :: new)) :
    s.callReceivePacket.Synced old [f] new := by
  obtain ⟨hlen, hlt⟩ := h.packetLen_eq
  have hv : ValidLength f := h.lengths f (by rw [h.arrived]; simp)
  have hstored := h.stored
  rw [List.append_nil] at hstored
  have hroom := h.room
  rw [List.nil_append, extent_cons] at hroom
  rw [callReceivePacket_eq hlen hlt]
  refine ⟨?_, h.lengths, h.cbr, h.rxOffset, h.capr, h.room, ?_, ?_, ?_, ⟨f, rfl, rfl⟩⟩
  · dsimp only
    rw [h.arrived, List.append_nil, List.append_assoc]
    rfl
  · intro x hx
    rw [extent_append, extent_cons, extent_nil, Nat.add_zero] at hx
    dsimp only
    rw [h.rxOffset]
    exact storedAt_handlePacket hv hx (extent_dvd frameSlot_dvd old) hroom
      (hstored x (List.mem_cons_of_mem _ hx))
  · dsimp only
    rw [h.passed, List.append_nil, List.map_append, List.map_singleton, payload,
      ← bytes_take _ _ (Nat.sub_le f.length rxCrcLen), h.head_stored.data]
  · dsimp only
    rw [h.receiveCnt]
    simp

theorem Synced.advance (h : s.Synced old cur new) (hp : s.phase = .handled len) :
    (s.advance len).Synced (old ++ cur) [] new := by
  have hph := h.phase
  rw [hp] at hph
  obtain ⟨f, rfl, rfl⟩ := hph
  have hv : ValidLength f := h.lengths f (by rw [h.arrived]; simp)
  have hoff : s.rxOffset < rxBufferSize := by
    rw [h.rxOffset]
    exact Nat.mod_lt _ (by decide)
  have hdvd : 4 ∣ s.rxOffset := by
    rw [h.rxOffset]
    exact (Nat.dvd_mod_iff (by decide)).mpr (extent_dvd frameSlot_dvd old)
  obtain ⟨hlo, hhi⟩ := hv
  -- The driver takes the CRC off and adds it back with the header and the rounding.
  have hround : u32 (s.rxOffset + (f.length - rxCrcLen) + (8 + 3)) &&& (2 ^ 32 - 1 - 3) =
      s.rxOffset + frameSlot f := by
    rw [rxBufferSize] at hoff
    rw [u32, Nat.mod_eq_of_lt (by omega), and_not_three (by omega), frameSlot, rxCrcLen]
    omega
  have hnext : s.rxOffset + frameSlot f - (if s.rxOffset + frameSlot f ≥ rxBufferSize
      then rxBufferSize else 0) = extent frameSlot (old ++ [f]) % rxBufferSize := by
    have hslot := (frameSlot_bounds f).2
    have hlt : s.rxOffset + frameSlot f < 2 * rxBufferSize := by
      rw [rxBufferSize] at hoff ⊢
      omega
    rw [extent_append, extent_cons, extent_nil, Nat.add_zero, ← Nat.mod_add_mod, ← h.rxOffset,
      wrap_once hlt]
    split
    · rw [if_neg (by omega)]
    · rw [if_pos (by omega), Nat.sub_zero]
  rw [Rtl8139.advance, hround, hnext]
  refine ⟨?_, h.lengths, h.cbr, rfl, ?_, ?_, ?_, ?_, ?_, rfl⟩
  · rw [List.append_nil]
    exact h.arrived
  · exact capr_eq _
  · have hroom := h.room
    rw [extent_append] at hroom
    rw [List.nil_append]
    omega
  · rw [List.append_nil]
    exact h.stored
  · rw [List.append_nil]
    exact h.passed
  · rw [List.append_nil]
    exact h.receiveCnt

theorem Synced.cur_eq_nil (h : s.Synced old cur new) (hp : ∀ len, s.phase ≠ .handled len) :
    cur = [] := by
  have hph := h.phase
  split at hph
  · next len hlen => exact absurd hlen (hp len)
  · exact hph

theorem Synced.take_receiveCnt (h : s.Synced old [] new) : s.arrived.take s.receiveCnt = old := by
  rw [h.arrived, h.receiveCnt, List.append_nil]
  exact List.take_left

end Rtl8139

/-- A frame arrives, `receive_packet` is called, or it goes on behind `handle_packet`. -/
inductive RingOp where
  | arrive (f : Frame)
  | call
  | goOn

namespace Rtl8139

variable {s s' : Rtl8139} {old cur new : List Frame}

/-- A call does not begin inside another one. -/
def ringStep (s : Rtl8139) : RingOp → Option Rtl8139
  | .arrive f => some (s.arrive f)
  | .call =>
    match s.phase with
    | .handled _ => none
    | _ => some s.callReceivePacket
  | .goOn =>
    match s.phase with
    | .handled len => some (s.advance len)
    | _ => none

/-- The frames have a length that the ring is made for, and there is a frame for every call. -/
def HasFrame (s : Rtl8139) : RingOp → Prop
  | .arrive f => ValidLength f
  | .call => s.receiveCnt < s.arrived.length
  | .goOn => True

instance (s : Rtl8139) : (op : RingOp) → Decidable (s.HasFrame op)
  | .arrive f => inferInstanceAs (Decidable (ValidLength f))
  | .call => inferInstanceAs (Decidable (s.receiveCnt < s.arrived.length))
  | .goOn => inferInstanceAs (Decidable True)

theorem Synced.ringStep (h : s.Synced old cur new) (hf : s.HasFrame op)
    (hs : s.ringStep op = some s') : ∃ old' cur' new', s'.Synced old' cur' new' := by
  cases op with
  | arrive f =>
    cases hs
    exact ⟨old, cur, h.arrive hf⟩
  | call =>
    rw [Rtl8139.ringStep] at hs
    split at hs
    · cases hs
    · next hp =>
      cases hs
      cases h.cur_eq_nil hp
      cases new with
      | nil =>
        rw [HasFrame, h.receiveCnt, h.arrived, List.append_nil, List.append_nil] at hf
        exact absurd hf (Nat.lt_irrefl old.length)
      | cons f new => exact ⟨_, _, _, h.callReceivePacket⟩
  | goOn =>
    rw [Rtl8139.ringStep] at hs
    split at hs
    · next len hp =>
      cases hs
      exact ⟨_, _, _, h.advance hp⟩
    · cases hs

/-- Whenever `receive_packet` may be called, the driver's place in the ring is that of the frame
which it has not been called for yet, and the card has been told. -/
theorem ring_position (buf : Mem) (ops : List RingOp)
    (hframes : Meets Rtl8139.ringStep HasFrame (reset buf) ops)
    (hrun : run Rtl8139.ringStep (reset buf) ops = some s)
    (hphase : ∀ len, s.phase ≠ .handled len) :
    s.rxOffset = ringOffset (s.arrived.take s.receiveCnt) ∧
    4 ∣ s.rxOffset ∧ s.rxOffset < rxBufferSize ∧
    s.capr = (s.rxOffset + 2 ^ 16 - 16) % 2 ^ 16 := by
  have hinv : ∃ old cur new, s.Synced old cur new :=
    run_invariant (I := fun s => ∃ old cur new, Synced s old cur new)
      (fun _ _ _ ⟨_, _, _, h⟩ hf hs => h.ringStep hf hs) ⟨[], [], [], synced_reset buf⟩ hframes hrun
  obtain ⟨old, cur, new, h⟩ := hinv
  cases h.cur_eq_nil hphase
  refine ⟨?_, ?_, ?_, h.capr⟩
  · rw [h.take_receiveCnt, ringOffset_eq]
    exact h.rxOffset
  · rw [h.rxOffset]
    exact (Nat.dvd_mod_iff (by decide)).mpr (extent_dvd frameSlot_dvd old)
  · rw [h.rxOffset]
    exact Nat.mod_lt _ (by decide)

def twoFrames : List RingOp :=
  [.arrive (List.replicate 61 7), .arrive (List.replicate 64 9), .call, .goOn]

/-- The second of two frames is at place 68 when it is read. -/
theorem ring_position_two :
    ∃ s, run Rtl8139.ringStep (reset fun _ => 0) twoFrames = some s ∧ s.rxOffset = 68 ∧
      s.rxOffset = ringOffset (s.arrived.take s.receiveCnt) := by
  have hend : (run Rtl8139.ringStep (reset fun _ => 0) twoFrames).map
      (fun s => (s.rxOffset, s.phase)) = some (68, .idle) := by decide +kernel
  obtain ⟨s, hrun, hs⟩ := Option.map_eq_some_iff.mp hend
  obtain ⟨hoff, hphase⟩ := Prod.mk.injEq .. ▸ hs
  refine ⟨s, hrun, hoff, (ring_position _ twoFrames (by decide +kernel) hrun ?_).1⟩
  rw [hphase]
  exact fun len => HandlerPhase.noConfusion

/-- A card that writes every frame, whether there is room for it or not. -/
def writingStep (s : Rtl8139) : RingOp → Option Rtl8139
  | .arrive f => some (s.write f)
  | op => s.ringStep op

/-- Ten frames of 1000 bytes and two calls. -/
def tenFrames : List RingOp :=
  List.replicate 10 (.arrive (List.replicate 1000 7)) ++ [.call, .goOn, .call, .goOn]

/-- A call before the first frame, and then two frames. -/
def earlyCall : List RingOp :=
  [.call, .arrive (List.replicate 61 7), .arrive (List.replicate 64 9)]

/-- The tenth of ten frames is written over the header of the second, and the driver looks for the
third at 2808 instead of 2008. A call before there is a frame leaves the driver at place 0, where it
looks for the second frame then. -/
theorem ring_position_lost :
    (run writingStep (reset fun _ => 0) tenFrames).map
      (fun s => (s.rxOffset, ringOffset (s.arrived.take s.receiveCnt), s.phase)) =
        some (2808, 2008, .idle) ∧
    (run writingStep (reset fun _ => 0) earlyCall).map
      (fun s => (s.rxOffset, ringOffset (s.arrived.take s.receiveCnt), s.phase)) =
        some (0, 68, .idle) := by
  constructor
  · decide +kernel
  · decide +kernel

end Rtl8139

end BiosKernel
