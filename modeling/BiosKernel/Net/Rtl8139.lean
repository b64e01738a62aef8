import BiosKernel.Lib.RingBuffer
import BiosKernel.Net.Encapsulate

namespace BiosKernel
open ByteMem MachineInt RingBuffer Runs
set_option autoImplicit true

/-- `RX_BUFFER_SIZE`. -/
def rxBufferSize : Nat := 8 * 1024

/-- `ROK`: a frame has been received. -/
def rok : Nat := 0b01

/-- `TOK`: a frame has been sent. -/
def tok : Nat := 0b100

/-- `RTL8139_RX_CRC_LEN`. -/
def rxCrcLen : Nat := 4

/-- The bytes of a frame with its CRC. -/
abbrev Frame := List UInt8

/-- Where the handler is between two accesses to the card: before the status register is read,
before the interrupt is acknowledged, before `receive_packet`, and in it behind `handle_packet`. -/
inductive HandlerPhase where
  | idle
  | statusRead (status : Nat)
  | acknowledged (status : Nat)
  | handled (len : Nat)
  deriving DecidableEq

/-- The card and its driver. The bytes of the receive buffer are counted from `rx_buf`. The last
three fields are no data of either: the frames that the card has written, what `handle_packet` has
been given, and whether no frame has come since the handler last read the status register. -/
structure Rtl8139 where
  buf : Mem
  cbr : Nat
  capr : Nat
  isr : Nat
  rxOffset : Nat
  receiveCnt : Nat
  phase : HandlerPhase
  arrived : List Frame
  passed : List (List UInt8)
  quiet : Bool

/-- What the card does to its place in the ring: on to the next multiple of 4 behind the header and
the frame. -/
def nextRingOffset (offset length : Nat) : Nat := (offset + 4 + length + 3) / 4 * 4 % rxBufferSize

/-- The place of the frame that comes behind the frames `fs`. -/
def ringOffset (fs : List Frame) : Nat :=
  fs.foldl (fun offset f => nextRingOffset offset f.length) 0

def frameSlot (f : Frame) : Nat := (f.length + 7) / 4 * 4

namespace Rtl8139

def reset (buf : Mem) : Rtl8139 where
  buf := buf
  cbr := 0
  capr := 2 ^ 16 - 16
  isr := 0
  rxOffset := 0
  receiveCnt := 0
  phase := .idle
  arrived := []
  passed := []
  quiet := false

/-- The card compares the room up to the frame that the driver reads next with what the new frame
takes. No distance means that all has been read. -/
def Fits (s : Rtl8139) (f : Frame) : Prop :=
  let avail := (s.capr + 16 + rxBufferSize - s.cbr) % rxBufferSize
  avail = 0 ∨ frameSlot f < avail

instance (s : Rtl8139) (f : Frame) : Decidable (s.Fits f) :=
  inferInstanceAs (Decidable (_ ∨ _))

/-- The card writes a header with the length, then the frame. A frame at the end of the ring goes on
behind it. -/
def write (s : Rtl8139) (f : Frame) : Rtl8139 :=
  { s with
    buf := put s.buf s.cbr (le16 rok ++ le16 f.length ++ f)
    cbr := nextRingOffset s.cbr f.length
    isr := s.isr ||| rok
    arrived := s.arrived ++ [f]
    quiet := false }

/-- A frame that does not fit is dropped. -/
def arrive (s : Rtl8139) (f : Frame) : Rtl8139 := if s.Fits f then s.write f else s

/-- What `handle_packet` does to the buffer: the type of the frame is put into host order. -/
def handlePacket (buf : Mem) (data : Nat) : Mem :=
  put buf (data + 12) (le16 (be16toh (load buf (data + 12) 2)))

/-- The `int16_t` length of the packet at `rx_offset`, without the CRC. -/
def packetLen (s : Rtl8139) : Int :=
  let len : Int := load s.buf (s.rxOffset + 2) 2 - rxCrcLen
  (len + 2 ^ 15) % 2 ^ 16 - 2 ^ 15

/-- `receive_packet` up to the call of `handle_packet`. -/
def receivePacket (s : Rtl8139) : Rtl8139 :=
  let len := s.packetLen
  if len ≤ 4 then { s with phase := .idle }
  else
    let data := s.rxOffset + 4
    { s with
      buf := handlePacket s.buf data
      passed := s.passed ++ [bytes s.buf data len.toNat]
      phase := .handled len.toNat }

/-- The rest of `receive_packet`. -/
def advance (s : Rtl8139) (len : Nat) : Rtl8139 :=
  let rxOffset := u32 (s.rxOffset + len + (8 + 3)) &&& (2 ^ 32 - 1 - 3)
  let rxOffset := rxOffset - if rxOffset ≥ rxBufferSize then rxBufferSize else 0
  { s with rxOffset, capr := u32 (rxOffset + 2 ^ 32 - 16) &&& 0xFFFF, phase := .idle }

/-- `rtl8139_handler` up to its next access to the card. -/
def handlerStep (s : Rtl8139) : Rtl8139 :=
  match s.phase with
  | .idle => { s with phase := .statusRead s.isr, quiet := true }
  | .statusRead status =>
    { s with isr := s.isr &&& (2 ^ 16 - 1 - (tok + rok)), phase := .acknowledged status }
  | .acknowledged status =>
    if status &&& rok ≠ 0 then { s with receiveCnt := s.receiveCnt + 1 }.receivePacket
    else { s with phase := .idle }
  | .handled len => s.advance len

end Rtl8139

/-- A frame arrives, a frame has been sent, or the handler goes on. -/
inductive NetOp where
  | arrive (f : Frame)
  | sent
  | handler

namespace Rtl8139

def step (s : Rtl8139) : NetOp → Option Rtl8139
  | .arrive f => some (s.arrive f)
  | .sent => some { s with isr := s.isr ||| tok }
  | .handler => some s.handlerStep

end Rtl8139

theorem frameSlot_bounds (f : Frame) : f.length + 4 ≤ frameSlot f ∧ frameSlot f ≤ f.length + 7 := by
  rw [frameSlot]
  omega

theorem frameSlot_dvd (f : Frame) : 4 ∣ frameSlot f := Nat.dvd_mul_left 4 _

theorem nextRingOffset_mod (h : 4 ∣ v) (f : Frame) :
    nextRingOffset (v % rxBufferSize) f.length = (v + frameSlot f) % rxBufferSize := by
  rw [nextRingOffset, frameSlot, rxBufferSize]
  omega

theorem foldl_ringOffset (h : 4 ∣ v) (fs : List Frame) :
    fs.foldl (fun offset f => nextRingOffset offset f.length) (v % rxBufferSize) =
      (v + extent frameSlot fs) % rxBufferSize := by
  induction fs generalizing v with
  | nil => rfl
  | cons f fs ih =>
    rw [List.foldl_cons, nextRingOffset_mod h, ih (Nat.dvd_add h (frameSlot_dvd f)), extent_cons,
      Nat.add_assoc]

theorem ringOffset_eq (fs : List Frame) : ringOffset fs = extent frameSlot fs % rxBufferSize := by
  have h := foldl_ringOffset (Nat.dvd_zero 4) fs
  rwa [Nat.zero_add] at h

/-- A frame with its length before it. -/
structure StoredAt (buf : Mem) (offset : Nat) (f : Frame) : Prop where
  length : load buf (offset + 2) 2 = f.length
  data : bytes buf (offset + 4) f.length = f

theorem load_two (m : Mem) (a : Nat) : load m a 2 = (m a).toNat + 256 * (m (a + 1)).toNat := by
  rw [load, load, load]
  omega

theorem storedAt_put (buf : Mem) (offset : Nat) (f : Frame) (h : f.length < 8000) :
    StoredAt (put buf offset (le16 rok ++ le16 f.length ++ f)) offset f := by
  have hlen : (le16 rok ++ le16 f.length ++ f).length = 4 + f.length := by
    rw [List.length_append]
    rfl
  refine ⟨?_, bytes_put_right buf offset (le16 rok ++ le16 f.length) f⟩
  have hlow : (le16 rok ++ le16 f.length ++ f).getD 2 0 = UInt8.ofNat f.length := rfl
  have hhigh : (le16 rok ++ le16 f.length ++ f).getD 3 0 = UInt8.ofNat (f.length / 256) := rfl
  rw [load_two, put_apply _ _ (by omega), Nat.add_assoc, put_apply _ _ (by omega), hlow, hhigh,
    UInt8.toNat_ofNat', UInt8.toNat_ofNat']
  omega

theorem StoredAt.put (hs : StoredAt buf offset f)
    (h : p + bs.length ≤ offset + 2 ∨ offset + 4 + f.length ≤ p) :
    StoredAt (put buf p bs) offset f := by
  constructor
  · rw [load_two, put_apart _ (by omega), put_apart _ (by omega), ← load_two]
    exact hs.length
  · rw [bytes_put_apart _ (by omega)]
    exact hs.data

end BiosKernel
