import BiosKernel.Heap.Malloc
import BiosKernel.Lib.Copy
import Mathlib.Algebra.Group.Int.Defs

namespace BiosKernel
open ByteMem MachineInt
set_option autoImplicit true

def memmove (m : Mem) (dst src size : Nat) : Mem :=
  if dst < src then copyUp m dst src size else copyDown m dst src size

def swap16 (value : Nat) : Nat := u16 (value <<< 8 ||| value >>> 8)

/-- `is_little_endian` finds the x86 to be so. -/
def htobe16 (host16bits : Nat) : Nat := swap16 (u16 host16bits)

def be16toh (bigEndian16bits : Nat) : Nat := htobe16 bigEndian16bits

/-- A `uint16_t` in memory. -/
def le16 (v : Nat) : List UInt8 := [UInt8.ofNat v, UInt8.ofNat (v / 256)]

/-- A 16-bit number in network byte order. -/
def be16 (v : Nat) : List UInt8 := [UInt8.ofNat (v / 256), UInt8.ofNat v]

abbrev MacAddr := Vector UInt8 6

abbrev Ipv4Addr := Vector UInt8 4

structure UdpHeader where
  (srcPort dstPort length checksum : Nat)

structure Ipv4Header where
  (versionIhl dscpEcn totalLength identification flagsFragmentOffset ttl protocol : Nat)
  headerChecksum : Nat
  (srcAddr dstAddr : Ipv4Addr)

structure EthernetHeader where
  (hwdst hwsrc : MacAddr)
  type : Nat

-- The headers in memory. None of the structures has padding.

def UdpHeader.bytes (h : UdpHeader) : List UInt8 :=
  le16 h.srcPort ++ le16 h.dstPort ++ le16 h.length ++ le16 h.checksum

def Ipv4Header.bytes (h : Ipv4Header) : List UInt8 :=
  [UInt8.ofNat h.versionIhl, UInt8.ofNat h.dscpEcn] ++ le16 h.totalLength ++
    le16 h.identification ++ le16 h.flagsFragmentOffset ++
    [UInt8.ofNat h.ttl, UInt8.ofNat h.protocol] ++ le16 h.headerChecksum ++
    h.srcAddr.toList ++ h.dstAddr.toList

def EthernetHeader.bytes (h : EthernetHeader) : List UInt8 :=
  h.hwdst.toList ++ h.hwsrc.toList ++ le16 h.type

def sizeofUdpHeader : Nat := 8

def sizeofIpv4Header : Nat := 20

def sizeofEthernetHeader : Nat := 14

/-- `ETH_FRAME_MIN_SIZE`. -/
def ethFrameMinSize : Nat := 60

/-- Add a number to the running sum and fold the carry back in. -/
def addFold (sum n : Nat) : Nat :=
  let sum := sum + n
  if sum > 0xFFFF then (sum &&& 0xFFFF) + sum >>> 16 else sum

/-- The loop over little-endian words, and the odd byte behind them. -/
def checksumLoop : Nat → List UInt8 → Nat
  | sum, lo :: hi :: data => checksumLoop (addFold sum (lo.toNat + 256 * hi.toNat)) data
  | sum, [b] => addFold sum b.toNat
  | sum, [] => sum

/-- The complement of the sum, as a `uint16_t`. -/
def ipv4Checksum (data : List UInt8) : Nat := u16 (2 ^ 32 - 1 - checksumLoop 0 data)

/-- Move `size` bytes of the packet up and copy a header before them, as each layer does. -/
def prependHeader (m : Mem) (packet size : Nat) (header : List UInt8) : Mem :=
  put (memmove m (packet + header.length) packet size) packet header

/-- The memory and `*lenp` afterwards. -/
def encapsulateUdp (m : Mem) (packet len : Nat) (srcPort dstPort : Int) : Mem × Nat :=
  let len := len + sizeofUdpHeader
  let udpHeader : UdpHeader :=
    { srcPort := be16toh (toU16 srcPort)
      dstPort := be16toh (toU16 dstPort)
      length := be16toh len
      checksum := be16toh 0 }
  (prependHeader m packet len udpHeader.bytes, len)

def encapsulateIpv4 (m : Mem) (packet len : Nat) (protocol : Int) (srcIp dstIp : Ipv4Addr) :
    Mem × Nat :=
  let ipv4Header : Ipv4Header :=
    { versionIhl := 0x4 <<< 4 ||| sizeofIpv4Header / 4
      dscpEcn := 0
      totalLength := htobe16 (sizeofIpv4Header + len)
      identification := htobe16 0
      flagsFragmentOffset := htobe16 (0b010 <<< 13 ||| 0)
      ttl := 0x40
      protocol := toU8 protocol
      headerChecksum := htobe16 0
      srcAddr := srcIp
      dstAddr := dstIp }
  let ipv4Header :=
    { ipv4Header with headerChecksum := htobe16 (ipv4Checksum ipv4Header.bytes) }
  (prependHeader m packet len ipv4Header.bytes, len + sizeofIpv4Header)

def encapsulateEthernet (m : Mem) (packet len : Nat) (hwdst hwsrc : MacAddr) (type : Nat) :
    Mem × Nat :=
  let ethHeader : EthernetHeader := { hwdst, hwsrc, type := htobe16 type }
  let m := prependHeader m packet len ethHeader.bytes
  let len := len + sizeofEthernetHeader
  let m := fill m (packet + len) 0 ethFrameMinSize
  (m, if len < ethFrameMinSize then ethFrameMinSize else len)

theorem memmove_eq (m : Mem) (dst src size : Nat) :
    memmove m dst src size = moved m dst src size := by
  rw [memmove]
  split
  · next h => exact copyUp_eq m (Nat.le_of_lt h) size
  · next h => exact copyDown_eq m (Nat.le_of_not_lt h) size

/-- However the two ranges overlap, the bytes arrive as they were, and no other byte changes. -/
theorem memmove_copies (m : Mem) (dst src size : Nat) :
    (∀ k < size, memmove m dst src size (dst + k) = m (src + k)) ∧
      ∀ x, x < dst ∨ dst + size ≤ x → memmove m dst src size x = m x := by
  rw [memmove_eq]
  constructor
  · intro k hk
    exact moved_apply m dst src hk
  · intro x hx
    exact moved_apart m src hx

theorem bytes_prependHeader (m : Mem) (packet : Nat) (hk : header.length = k) (h : n ≤ size) :
    bytes (prependHeader m packet size header) packet (k + n) = header ++ bytes m packet n := by
  subst hk
  rw [bytes_append, prependHeader, bytes_put_self, bytes_put_apart _ (.inr (Nat.le_refl _)),
    memmove_eq, bytes_moved m _ _ h]

theorem prependHeader_apart (m : Mem) (header : List UInt8)
    (h : x < packet ∨ packet + header.length + size ≤ x) :
    prependHeader m packet size header x = m x := by
  rw [prependHeader, put_apart _ (by omega), memmove_eq, moved_apart _ _ (by omega)]

theorem le16_htobe16 (v : Nat) : le16 (htobe16 v) = be16 v := by
  have hor : u16 v <<< 8 ||| u16 v >>> 8 = u16 v * 256 + u16 v / 256 := by
    have hlt : u16 v >>> 8 < 2 ^ 8 := by
      rw [Nat.shiftRight_eq_div_pow, u16]
      omega
    rw [← Nat.shiftLeft_add_eq_or_of_lt hlt, Nat.shiftLeft_eq, Nat.shiftRight_eq_div_pow]
  have hbyte (a b : Nat) (h : a % 256 = b % 256) : UInt8.ofNat a = UInt8.ofNat b := by
    apply UInt8.toNat_inj.mp
    rw [UInt8.toNat_ofNat', UInt8.toNat_ofNat']
    exact h
  have hswap : htobe16 v = u16 v % 256 * 256 + u16 v / 256 := by
    have hv : u16 v < 65536 := Nat.mod_lt _ (by decide)
    rw [htobe16, swap16, hor, u16]
    omega
  have hlow : u16 v / 256 < 256 := by
    rw [u16]
    omega
  rw [hswap, le16, be16, Nat.add_comm]
  refine congrArg₂ (fun a b => [a, b]) (hbyte _ _ ?_) (hbyte _ _ ?_)
  · rw [Nat.add_mul_mod_self_right, u16]
    omega
  · rw [Nat.add_mul_div_right _ _ (by decide), Nat.div_eq_of_lt hlow, u16]
    omega

/-- The headers as they go over the wire, every number in network byte order. -/
def udpWire (srcPort dstPort : Int) (length : Nat) : List UInt8 :=
  be16 (toU16 srcPort) ++ be16 (toU16 dstPort) ++ be16 length ++ be16 0

def ipv4Wire (totalLength : Nat) (protocol : Int) (checksum : Nat) (srcIp dstIp : Ipv4Addr) :
    List UInt8 :=
  [0x45, 0] ++ be16 totalLength ++ be16 0 ++ be16 0x4000 ++ [0x40, UInt8.ofNat (toU8 protocol)] ++
    be16 checksum ++ srcIp.toList ++ dstIp.toList

def ethernetWire (hwdst hwsrc : MacAddr) (type : Nat) : List UInt8 :=
  hwdst.toList ++ hwsrc.toList ++ be16 type

@[simp] theorem length_udpWire (srcPort dstPort : Int) (length : Nat) :
    (udpWire srcPort dstPort length).length = 8 := rfl

@[simp] theorem length_ipv4Wire (totalLength : Nat) (protocol : Int) (checksum : Nat)
    (srcIp dstIp : Ipv4Addr) :
    (ipv4Wire totalLength protocol checksum srcIp dstIp).length = 20 := by
  simp only [ipv4Wire, be16, List.length_append, List.length_cons, List.length_nil,
    Vector.length_toList]

@[simp] theorem length_ethernetWire (hwdst hwsrc : MacAddr) (type : Nat) :
    (ethernetWire hwdst hwsrc type).length = 14 := by
  simp only [ethernetWire, be16, List.length_append, List.length_cons, List.length_nil,
    Vector.length_toList]

theorem encapsulateUdp_eq (m : Mem) (packet len : Nat) (srcPort dstPort : Int) :
    encapsulateUdp m packet len srcPort dstPort =
      (prependHeader m packet (len + 8) (udpWire srcPort dstPort (len + 8)), len + 8) := by
  simp only [encapsulateUdp, UdpHeader.bytes, be16toh, le16_htobe16, udpWire, sizeofUdpHeader]

theorem encapsulateIpv4_eq (m : Mem) (packet len : Nat) (protocol : Int) (srcIp dstIp : Ipv4Addr) :
    encapsulateIpv4 m packet len protocol srcIp dstIp =
      (prependHeader m packet len (ipv4Wire (20 + len) protocol
        (ipv4Checksum (ipv4Wire (20 + len) protocol 0 srcIp dstIp)) srcIp dstIp), len + 20) := by
  simp only [encapsulateIpv4, Ipv4Header.bytes, le16_htobe16, ipv4Wire, sizeofIpv4Header]
  rfl

theorem encapsulateEthernet_eq (m : Mem) (packet len : Nat) (hwdst hwsrc : MacAddr) (type : Nat) :
    encapsulateEthernet m packet len hwdst hwsrc type =
      (fill (prependHeader m packet len (ethernetWire hwdst hwsrc type)) (packet + (len + 14)) 0 60,
        max 60 (len + 14)) := by
  have hlen : (if len + sizeofEthernetHeader < ethFrameMinSize then ethFrameMinSize
      else len + sizeofEthernetHeader) = max 60 (len + 14) := by
    rw [sizeofEthernetHeader, ethFrameMinSize]
    split
    · omega
    · omega
  rw [encapsulateEthernet, hlen, EthernetHeader.bytes, le16_htobe16]
  rfl

/-- The three layers put their headers before the payload and zeros behind it. The checksum is the
number that `ipv4_checksum` returns, with its upper byte first. -/
theorem encapsulate_frame (m : Mem) (packet : Nat) (payload : List UInt8)
    (hlen : payload.length + 8 + 20 + 14 + 60 ≤ 1500)
    (hm : bytes m packet payload.length = payload) (srcPort dstPort protocol : Int)
    (srcIp dstIp : Ipv4Addr) (hwdst hwsrc : MacAddr) (type : Nat) :
    let udp := encapsulateUdp m packet payload.length srcPort dstPort
    let ip := encapsulateIpv4 udp.1 packet udp.2 protocol srcIp dstIp
    let eth := encapsulateEthernet ip.1 packet ip.2 hwdst hwsrc type
    eth.2 = max 60 (payload.length + 42) ∧
    bytes eth.1 packet eth.2 =
      ethernetWire hwdst hwsrc type ++
      (ipv4Wire (payload.length + 28) protocol
        (ipv4Checksum (ipv4Wire (payload.length + 28) protocol 0 srcIp dstIp)) srcIp dstIp ++
      (udpWire srcPort dstPort (payload.length + 8) ++
      (payload ++ List.replicate (60 - (payload.length + 42)) 0))) ∧
    ∀ x, x < packet ∨ packet + 1500 ≤ x → eth.1 x = m x := by
  intro udp ip eth
  have hudp : udp = _ := encapsulateUdp_eq ..
  have hip : ip = _ := encapsulateIpv4_eq ..
  have heth : eth = _ := encapsulateEthernet_eq ..
  clear_value udp ip eth
  subst heth
  subst hip
  subst hudp
  dsimp only
  have hlenp : 20 + (payload.length + 8) = payload.length + 28 := by omega
  rw [hlenp]
  refine ⟨rfl, ?_, ?_⟩
  · have hframe : max 60 (payload.length + 8 + 20 + 14) =
        14 + (20 + (8 + payload.length)) + (60 - (payload.length + 42)) := by omega
    have hpad : packet + (payload.length + 8 + 20 + 14) =
        packet + (14 + (20 + (8 + payload.length))) := by omega
    rw [hframe, bytes_append, bytes_fill_apart _ _ (by omega), hpad, bytes_fill _ _ _ (by omega)]
    rw [bytes_prependHeader _ _ (length_ethernetWire ..) (by omega),
      bytes_prependHeader _ _ (length_ipv4Wire ..) (by omega),
      bytes_prependHeader _ _ (length_udpWire ..) (by omega), hm]
    simp only [List.append_assoc]
  · intro x hx
    rw [fill_apply, if_neg (by omega), prependHeader_apart, prependHeader_apart,
      prependHeader_apart]
    · rw [length_udpWire]
      omega
    · rw [length_ipv4Wire]
      omega
    · rw [length_ethernetWire]
      omega

end BiosKernel
