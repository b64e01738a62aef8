import BiosKernel.Net.ArpCache
import BiosKernel.Net.Rtl8139

namespace BiosKernel
open ByteMem
set_option autoImplicit true

/-- `ARP_HTYPE_ETH`. -/
def arpHtypeEth : Nat := 1

/-- `PTYPE_IPV4` and `PTYPE_ARP`. -/
def ptypeIpv4 : Nat := 0x0800

def ptypeArp : Nat := 0x0806

/-- `ARP_HLEN_ETH` and `ARP_PLEN_IPV4`. -/
def arpHlenEth : Nat := 6

def arpPlenIpv4 : Nat := 4

/-- `ARP_OPER_REQUEST` and `ARP_OPER_REPLY`. -/
def arpOperRequest : Nat := 1

def arpOperReply : Nat := 2

structure ArpHeader where
  (htype ptype hlen plen oper : Nat)
  sha : MacAddr
  spa : Ipv4Addr
  tha : MacAddr
  tpa : Ipv4Addr

def ArpHeader.bytes (h : ArpHeader) : List UInt8 :=
  le16 h.htype ++ le16 h.ptype ++ [UInt8.ofNat h.hlen, UInt8.ofNat h.plen] ++ le16 h.oper ++
    h.sha.toList ++ h.spa.toList ++ h.tha.toList ++ h.tpa.toList

def sizeofArpHeader : Nat := 28

/-- An array of bytes in a structure. -/
def arrayAt (m : Mem) (a n : Nat) : Vector UInt8 n :=
  ⟨(bytes m a n).toArray, by rw [List.size_toArray, length_bytes]⟩

/-- The header at a pointer. -/
def arpAt (m : Mem) (a : Nat) : ArpHeader where
  htype := load m a 2
  ptype := load m (a + 2) 2
  hlen := load m (a + 4) 1
  plen := load m (a + 5) 1
  oper := load m (a + 6) 2
  sha := arrayAt m (a + 8) 6
  spa := arrayAt m (a + 14) 4
  tha := arrayAt m (a + 18) 6
  tpa := arrayAt m (a + 24) 4

def ethBroadcast : MacAddr := .replicate 6 0xFF

/-- The frame that `send_arp` sends, built in the array at `packet`. -/
def sendArp (m : Mem) (packet oper : Nat) (sha : MacAddr) (spa : Ipv4Addr) (tha : MacAddr)
    (tpa : Ipv4Addr) : List UInt8 :=
  let arp : ArpHeader :=
    { htype := htobe16 arpHtypeEth
      ptype := htobe16 ptypeIpv4
      hlen := arpHlenEth
      plen := arpPlenIpv4
      oper := htobe16 oper
      sha, spa, tha, tpa }
  let packetLen := sizeofArpHeader
  let m := put m packet arp.bytes
  let (m, packetLen) :=
    if oper = arpOperRequest then encapsulateEthernet m packet packetLen ethBroadcast sha ptypeArp
    else if oper = arpOperReply then encapsulateEthernet m packet packetLen tha sha ptypeArp
    else (m, packetLen)
  bytes m packet packetLen

/-- `g_nic` without the registers: the addresses, and the bytes of the structure that follow `ipv4`,
which are padding. -/
structure Nic where
  mac : MacAddr
  ipv4 : Ipv4Addr
  padding : Vector UInt8 2

namespace Nic

/-- The cache afterwards and the frames that are sent. -/
def handlePacketArp (nic : Nic) (m : Mem) (data packet : Nat) (now : UInt64) (cache : ArpCache) :
    ArpCache × List (List UInt8) :=
  let a := data + sizeofEthernetHeader
  let arp := arpAt m a
  if htobe16 arp.oper = arpOperReply then
    ((cache.cacheArpEntry arp.spa arp.sha now).getD cache, [])
  else if htobe16 arp.oper = arpOperRequest then
    -- Six bytes are compared, from the addresses of four on.
    let own := nic.ipv4.toList ++ nic.padding.toList
    if memcmp (bytes m (a + 24) 6) own 6 = 0 ∨ memcmp (bytes m (a + 14) 6) own 6 = 0 then
      (cache, [sendArp m packet arpOperReply nic.mac nic.ipv4 arp.sha arp.spa])
    else (cache, [])
  else (cache, [])

/-- `handle_packet` with a frame of `len` bytes. -/
def handlePacket (nic : Nic) (m : Mem) (data : Nat) (len : Int) (packet : Nat) (now : UInt64)
    (cache : ArpCache) : ArpCache × List (List UInt8) :=
  if len ≤ 0 then (cache, [])
  else
    let m := Rtl8139.handlePacket m data
    if load m (data + 12) 2 = ptypeArp then nic.handlePacketArp m data packet now cache
    else (cache, [])

end Nic

@[simp] theorem toList_arrayAt (m : Mem) (a n : Nat) : (arrayAt m a n).toList = bytes m a n := rfl

theorem arrayAt_eq_iff {v : Vector UInt8 n} : arrayAt m a n = v ↔ bytes m a n = v.toList := by
  rw [← Vector.toList_inj, toList_arrayAt]

theorem ArpHeader.length_bytes (h : ArpHeader) : h.bytes.length = 28 := by
  simp only [ArpHeader.bytes, le16, List.length_append, List.length_cons, List.length_nil,
    Vector.length_toList]

theorem load_of_bytes_le16 (h : bytes m a 2 = le16 v) (hv : v < 2 ^ 16) : load m a 2 = v := by
  have hbytes : [m a, m (a + 1)] = [UInt8.ofNat v, UInt8.ofNat (v / 256)] := h
  obtain ⟨hlow, htail⟩ := List.cons.inj hbytes
  rw [load_two, hlow, (List.cons.inj htail).1, UInt8.toNat_ofNat', UInt8.toNat_ofNat']
  omega

theorem load_of_bytes_singleton (h : m a = UInt8.ofNat v) (hv : v < 2 ^ 8) : load m a 1 = v := by
  rw [load, load, h, UInt8.toNat_ofNat']
  omega

theorem arpAt_of_bytes {h : ArpHeader} (hm : bytes m a 28 = h.bytes) (htype : h.htype < 2 ^ 16)
    (hptype : h.ptype < 2 ^ 16) (hhlen : h.hlen < 2 ^ 8) (hplen : h.plen < 2 ^ 8)
    (hoper : h.oper < 2 ^ 16) : arpAt m a = h := by
  simp only [ArpHeader.bytes, List.append_assoc] at hm
  obtain ⟨h0, hm⟩ := (bytes_eq_append_iff (n := 2) (k := 26) rfl).mp hm
  obtain ⟨h2, hm⟩ := (bytes_eq_append_iff (n := 2) (k := 24) rfl).mp hm
  obtain ⟨h4, hm⟩ := (bytes_eq_append_iff (n := 2) (k := 22) rfl).mp hm
  obtain ⟨h6, hm⟩ := (bytes_eq_append_iff (n := 2) (k := 20) rfl).mp hm
  obtain ⟨h8, hm⟩ := (bytes_eq_append_iff (k := 14) h.sha.length_toList).mp hm
  obtain ⟨h14, hm⟩ := (bytes_eq_append_iff (k := 10) h.spa.length_toList).mp hm
  obtain ⟨h18, h24⟩ := (bytes_eq_append_iff (k := 4) h.tha.length_toList).mp hm
  obtain ⟨h4, h5⟩ := List.cons.inj h4
  have h5 : m (a + 2 + 2 + 1) = UInt8.ofNat h.plen := (List.cons.inj h5).1
  rw [arpAt, load_of_bytes_le16 h0 htype, load_of_bytes_le16 h2 hptype,
    load_of_bytes_singleton h4 hhlen, load_of_bytes_singleton h5 hplen, load_of_bytes_le16 h6 hoper,
    arrayAt_eq_iff.mpr h8, arrayAt_eq_iff.mpr h14, arrayAt_eq_iff.mpr h18, arrayAt_eq_iff.mpr h24]

/-- The header that `send_arp` puts in a reply. -/
def replyHeader (sha : MacAddr) (spa : Ipv4Addr) (tha : MacAddr) (tpa : Ipv4Addr) : ArpHeader where
  htype := htobe16 arpHtypeEth
  ptype := htobe16 ptypeIpv4
  hlen := arpHlenEth
  plen := arpPlenIpv4
  oper := htobe16 arpOperReply
  sha := sha
  spa := spa
  tha := tha
  tpa := tpa

theorem sendArp_reply (m : Mem) (packet : Nat) (sha : MacAddr) (spa : Ipv4Addr) (tha : MacAddr)
    (tpa : Ipv4Addr) :
    sendArp m packet arpOperReply sha spa tha tpa =
      ethernetWire tha sha ptypeArp ++
        ((replyHeader sha spa tha tpa).bytes ++ List.replicate 18 0) := by
  have hhead := (replyHeader sha spa tha tpa).length_bytes
  let eth := encapsulateEthernet (put m packet (replyHeader sha spa tha tpa).bytes) packet 28 tha
    sha ptypeArp
  have heth : eth = _ := encapsulateEthernet_eq ..
  have hsend : sendArp m packet arpOperReply sha spa tha tpa = bytes eth.1 packet eth.2 := rfl
  rw [hsend, heth]
  change bytes _ packet (14 + 28 + 18) = _
  rw [bytes_append, bytes_fill_apart _ _ (by omega), bytes_fill _ _ _ (by omega),
    bytes_prependHeader _ _ (length_ethernetWire ..) (Nat.le_refl 28), ← hhead, bytes_put_self,
    List.append_assoc]

theorem load_handlePacket (h : bytes m (data + 12) 2 = be16 ptypeArp) :
    load (Rtl8139.handlePacket m data) (data + 12) 2 = ptypeArp := by
  rw [← le16_htobe16] at h
  have hload := load_of_bytes_le16 h (by decide)
  rw [Rtl8139.handlePacket, hload]
  exact load_of_bytes_le16 (bytes_put_self _ _ (le16 ptypeArp)) (by decide)

theorem arrayAt_handlePacket (m : Mem) (data : Nat) (h : data + 14 ≤ a) :
    arrayAt (Rtl8139.handlePacket m data) a n = arrayAt m a n := by
  refine arrayAt_eq_iff.mpr (bytes_put_apart _ (.inr ?_))
  change data + 12 + 2 ≤ a
  omega

theorem arpAt_congr (h : ∀ x, a ≤ x → x < a + 28 → m' x = m x) : arpAt m' a = arpAt m a := by
  have hload (k n : Nat) (hk : k + n ≤ 28) : load m' (a + k) n = load m (a + k) n :=
    load_congr fun x hx hx' => h x (by omega) (by omega)
  have harray (k n : Nat) (hk : k + n ≤ 28) : arrayAt m' (a + k) n = arrayAt m (a + k) n :=
    arrayAt_eq_iff.mpr (bytes_congr fun i hi => h _ (by omega) (by omega))
  rw [arpAt, arpAt, hload 2 2 (by decide), hload 4 1 (by decide), hload 5 1 (by decide),
    hload 6 2 (by decide), harray 8 6 (by decide), harray 14 4 (by decide),
    harray 18 6 (by decide), harray 24 4 (by decide), load_congr (m := m') (n := 2)
      fun x hx hx' => h x hx (by omega)]

theorem arpAt_handlePacket (m : Mem) (data : Nat) :
    arpAt (Rtl8139.handlePacket m data) (data + 14) = arpAt m (data + 14) := by
  refine arpAt_congr fun x hx _ => put_apart _ (.inr ?_)
  change data + 12 + 2 ≤ x
  omega

namespace Nic

theorem handlePacket_arp (nic : Nic) (hlen : 0 < len)
    (htype : bytes m (data + 12) 2 = be16 ptypeArp) (packet : Nat) (now : UInt64)
    (cache : ArpCache) :
    nic.handlePacket m data len packet now cache =
      nic.handlePacketArp (Rtl8139.handlePacket m data) data packet now cache := by
  rw [handlePacket, if_neg (by omega)]
  exact if_pos (load_handlePacket htype)

/-- The six bytes compared are an address and the two bytes behind it. -/
theorem memcmp_own_iff (nic : Nic) (m : Mem) (a : Nat) :
    memcmp (bytes m a 6) (nic.ipv4.toList ++ nic.padding.toList) 6 = 0 ↔
      arrayAt m a 4 = nic.ipv4 ∧ arrayAt m (a + 4) 2 = nic.padding := by
  have hlen : (nic.ipv4.toList ++ nic.padding.toList).length = 6 := by
    rw [List.length_append, Vector.length_toList, Vector.length_toList]
  rw [memcmp_eq_zero_iff (length_bytes ..) hlen, arrayAt_eq_iff, arrayAt_eq_iff]
  exact bytes_eq_append_iff (k := 2) nic.ipv4.length_toList

/-- The comparison with the target finds the own address. The bytes behind its address are the first
two behind the header. -/
def TargetMatches (nic : Nic) (m : Mem) (a : Nat) : Prop :=
  (arpAt m a).tpa = nic.ipv4 ∧ arrayAt m (a + 28) 2 = nic.padding

/-- The comparison with the sender does. The bytes behind its address are the first two of `tha`. -/
def SenderMatches (nic : Nic) (m : Mem) (a : Nat) : Prop :=
  (arpAt m a).spa = nic.ipv4 ∧ arrayAt m (a + 18) 2 = nic.padding

instance (nic : Nic) (m : Mem) (a : Nat) : Decidable (nic.TargetMatches m a) :=
  inferInstanceAs (Decidable (_ ∧ _))

instance (nic : Nic) (m : Mem) (a : Nat) : Decidable (nic.SenderMatches m a) :=
  inferInstanceAs (Decidable (_ ∧ _))

theorem targetMatches_handlePacket (nic : Nic) (m : Mem) (data : Nat) :
    nic.TargetMatches (Rtl8139.handlePacket m data) (data + 14) ↔
      nic.TargetMatches m (data + 14) := by
  rw [TargetMatches, TargetMatches, arpAt_handlePacket, arrayAt_handlePacket _ _ (by omega)]

theorem senderMatches_handlePacket (nic : Nic) (m : Mem) (data : Nat) :
    nic.SenderMatches (Rtl8139.handlePacket m data) (data + 14) ↔
      nic.SenderMatches m (data + 14) := by
  rw [SenderMatches, SenderMatches, arpAt_handlePacket, arrayAt_handlePacket _ _ (by omega)]

theorem handlePacketArp_reply (nic : Nic) (m : Mem) (data packet : Nat) (now : UInt64)
    (cache : ArpCache) (h : htobe16 (arpAt m (data + 14)).oper = arpOperReply) :
    nic.handlePacketArp m data packet now cache =
      ((cache.cacheArpEntry (arpAt m (data + 14)).spa (arpAt m (data + 14)).sha now).getD cache,
        []) := if_pos h

theorem handlePacketArp_request (nic : Nic) (m : Mem) (data packet : Nat) (now : UInt64)
    (cache : ArpCache) (h : htobe16 (arpAt m (data + 14)).oper = arpOperRequest) :
    nic.handlePacketArp m data packet now cache =
      (cache, if nic.TargetMatches m (data + 14) ∨ nic.SenderMatches m (data + 14) then
        [sendArp m packet arpOperReply nic.mac nic.ipv4 (arpAt m (data + 14)).sha
          (arpAt m (data + 14)).spa] else []) := by
  have hiff := or_congr (nic.memcmp_own_iff m (data + 14 + 24))
    (nic.memcmp_own_iff m (data + 14 + 14))
  unfold handlePacketArp
  change (if htobe16 (arpAt m (data + 14)).oper = arpOperReply then _ else _) = _
  rw [if_neg (by rw [h]; decide)]
  change (if htobe16 (arpAt m (data + 14)).oper = arpOperRequest then _ else _) = _
  rw [if_pos h]
  by_cases hmatch : nic.TargetMatches m (data + 14) ∨ nic.SenderMatches m (data + 14)
  · rw [if_pos hmatch]
    exact if_pos (hiff.mpr hmatch)
  · rw [if_neg hmatch]
    exact if_neg (mt hiff.mp hmatch)

end Nic

end BiosKernel
