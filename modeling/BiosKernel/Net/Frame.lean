import BiosKernel.Net.Checksum

namespace BiosKernel
open ByteMem
set_option autoImplicit true

/-- The 16-bit words of a buffer in network byte order. -/
def networkWords : List UInt8 → List Nat
  | hi :: lo :: data => (256 * hi.toNat + lo.toNat) :: networkWords data
  | [b] => [256 * b.toNat]
  | [] => []

/-- The Internet checksum: the complement of the one's-complement sum of the words, which are taken
in network byte order as every other number of the header. -/
def internetChecksum (data : List UInt8) : Nat :=
  0xFFFF - OnesComplement.sum 0xFFFF (networkWords data)

/-- The three layers, applied in turn to a buffer that begins with the payload, give the frame with
every number in network byte order, and write nothing outside the 1500 bytes. -/
def Encapsulates (m : Mem) (packet : Nat) (payload : List UInt8) (srcPort dstPort protocol : Int)
    (srcIp dstIp : Ipv4Addr) (hwdst hwsrc : MacAddr) (type : Nat) : Prop :=
  let udp := encapsulateUdp m packet payload.length srcPort dstPort
  let ip := encapsulateIpv4 udp.1 packet udp.2 protocol srcIp dstIp
  let eth := encapsulateEthernet ip.1 packet ip.2 hwdst hwsrc type
  eth.2 = max 60 (payload.length + 42) ∧
  bytes eth.1 packet eth.2 =
    ethernetWire hwdst hwsrc type ++
    (ipv4Wire (payload.length + 28) protocol
      (internetChecksum (ipv4Wire (payload.length + 28) protocol 0 srcIp dstIp)) srcIp dstIp ++
    (udpWire srcPort dstPort (payload.length + 8) ++
    (payload ++ List.replicate (60 - (payload.length + 42)) 0))) ∧
  ∀ x, x < packet ∨ packet + 1500 ≤ x → eth.1 x = m x

theorem networkWords_le (data : List UInt8) : ∀ w ∈ networkWords data, w ≤ 0xFFFF := by
  induction data using networkWords.induct with
  | case1 hi lo data ih =>
    have hlo := lo.toNat_lt
    have hhi := hi.toNat_lt
    exact List.forall_mem_cons.mpr ⟨by omega, ih⟩
  | case2 b =>
    have hb := b.toNat_lt
    exact List.forall_mem_singleton.mpr (by omega)
  | case3 => exact List.forall_mem_nil _

theorem internetChecksum_eq (data : List UInt8) : internetChecksum data =
    0xFFFF - OnesComplement.residue 0xFFFF (networkWords data).sum := by
  rw [internetChecksum, OnesComplement.sum_eq (by decide) (networkWords_le data)]

theorem sum_networkWords_ipv4Wire (totalLength : Nat) (protocol : Int) (srcIp dstIp : Ipv4Addr) :
    (networkWords (ipv4Wire totalLength protocol 0 srcIp dstIp)).sum =
      256 * evenBytes totalLength srcIp dstIp + oddBytes totalLength protocol srcIp dstIp := by
  have hprotocol := Nat.mod_eq_of_lt (toU8_lt protocol)
  simp only [ipv4Wire, be16, Ipv4Addr.toList_eq, List.cons_append, List.nil_append, networkWords,
    List.sum_cons, List.sum_nil, UInt8.toNat_ofNat', UInt8.reduceToNat, evenBytes, oddBytes]
  omega

theorem checksums_eq_iff (totalLength : Nat) (protocol : Int) (srcIp dstIp : Ipv4Addr) :
    ipv4Checksum (ipv4Wire totalLength protocol 0 srcIp dstIp) =
        internetChecksum (ipv4Wire totalLength protocol 0 srcIp dstIp) ↔
      evenBytes totalLength srcIp dstIp % 257 =
        oddBytes totalLength protocol srcIp dstIp % 257 := by
  have hsum := sum_words16_ipv4Wire totalLength protocol 0 srcIp dstIp
  have hpos : 0 < evenBytes totalLength srcIp dstIp := by
    rw [evenBytes]
    omega
  rw [ipv4Checksum_eq, checksumLoop_eq, internetChecksum_eq, hsum, sum_networkWords_ipv4Wire]
  have hle := OnesComplement.residue_le (m := 0xFFFF) (by decide)
  generalize evenBytes totalLength srcIp dstIp = e at hpos ⊢
  generalize oddBytes totalLength protocol srcIp dstIp = o
  have hcomplement (a b : Nat) : 0xFFFF - OnesComplement.residue 0xFFFF a =
      0xFFFF - OnesComplement.residue 0xFFFF b ↔
        OnesComplement.residue 0xFFFF a = OnesComplement.residue 0xFFFF b := by
    have ha := hle a
    have hb := hle b
    omega
  rw [hcomplement, OnesComplement.residue_inj (by omega) (by omega)]
  omega

theorem be16_inj (ha : a < 2 ^ 16) (hb : b < 2 ^ 16) : be16 a = be16 b ↔ a = b := by
  refine ⟨fun h => ?_, fun h => h ▸ rfl⟩
  obtain ⟨hhigh, hlow⟩ := List.cons.inj h
  have hhigh := congrArg UInt8.toNat hhigh
  have hlow := congrArg UInt8.toNat (List.cons.inj hlow).1
  rw [UInt8.toNat_ofNat', UInt8.toNat_ofNat'] at hhigh hlow
  omega

theorem ipv4Wire_inj (ha : a < 2 ^ 16) (hb : b < 2 ^ 16) :
    ipv4Wire totalLength protocol a srcIp dstIp = ipv4Wire totalLength protocol b srcIp dstIp ↔
      a = b := by
  simp only [ipv4Wire, List.append_cancel_left_eq, List.append_cancel_right_eq]
  exact be16_inj ha hb

/-- The frame is the one that a receiver expects exactly if the bytes at even places of its IPv4
header and those at odd places, the checksum left out, have the same sum modulo 257. -/
theorem encapsulates_iff (m : Mem) (packet : Nat) (payload : List UInt8)
    (hlen : payload.length + 8 + 20 + 14 + 60 ≤ 1500)
    (hm : bytes m packet payload.length = payload) (srcPort dstPort protocol : Int)
    (srcIp dstIp : Ipv4Addr) (hwdst hwsrc : MacAddr) (type : Nat) :
    Encapsulates m packet payload srcPort dstPort protocol srcIp dstIp hwdst hwsrc type ↔
      evenBytes (payload.length + 28) srcIp dstIp % 257 =
        oddBytes (payload.length + 28) protocol srcIp dstIp % 257 := by
  obtain ⟨hsize, hframe, hapart⟩ := encapsulate_frame m packet payload hlen hm srcPort dstPort
    protocol srcIp dstIp hwdst hwsrc type
  have hchecksum : ipv4Checksum (ipv4Wire (payload.length + 28) protocol 0 srcIp dstIp) < 2 ^ 16 :=
    Nat.mod_lt _ (by decide)
  have hinternet : internetChecksum (ipv4Wire (payload.length + 28) protocol 0 srcIp dstIp) <
      2 ^ 16 := Nat.lt_of_le_of_lt (Nat.sub_le _ _) (by decide)
  rw [← checksums_eq_iff, ← ipv4Wire_inj hchecksum hinternet, Encapsulates]
  constructor
  · rintro ⟨-, hwire, -⟩
    have hsame := hframe.symm.trans hwire
    rwa [List.append_cancel_left_eq, List.append_cancel_right_eq] at hsame
  · intro hsame
    rw [← hsame]
    exact ⟨hsize, hframe, hapart⟩

/-- From 10.0.0.24 to 10.0.0.146 both bytes of the checksum are the same. -/
theorem encapsulates_iff_same : Encapsulates (put (fun _ => 0xFF) 0x1000 [0x68, 0x69]) 0x1000
    [0x68, 0x69] 1234 53 17 #v[10, 0, 0, 24] #v[10, 0, 0, 146] #v[0, 1, 2, 3, 4, 5]
    #v[6, 7, 8, 9, 10, 11] 0x800 :=
  (encapsulates_iff _ _ _ (by decide) (bytes_put_self _ _ _) ..).mpr (by decide +kernel)

/-- To 10.0.0.138 the checksum is stored as 46, 38 and not as 38, 46. -/
theorem checksum_order_swapped :
    let m := put (fun _ => 0xFF) 0x1000 [0x68, 0x69]
    let udp := encapsulateUdp m 0x1000 2 1234 53
    let ip := encapsulateIpv4 udp.1 0x1000 udp.2 17 #v[10, 0, 0, 24] #v[10, 0, 0, 138]
    bytes ip.1 (0x1000 + 10) 2 = [46, 38] ∧
    be16 (internetChecksum (ipv4Wire 30 17 0 #v[10, 0, 0, 24] #v[10, 0, 0, 138])) = [38, 46] ∧
    ¬Encapsulates m 0x1000 [0x68, 0x69] 1234 53 17 #v[10, 0, 0, 24] #v[10, 0, 0, 138]
      #v[0, 1, 2, 3, 4, 5] #v[6, 7, 8, 9, 10, 11] 0x800 := by
  intro m udp ip
  refine ⟨by decide +kernel, by decide +kernel, ?_⟩
  rintro ⟨-, hwire, -⟩
  exact absurd (congrArg (fun frame => frame.getD 24 0) hwire) (by decide +kernel)

end BiosKernel
