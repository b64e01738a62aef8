import BiosKernel.Lib.OnesComplement
import BiosKernel.Net.Encapsulate

namespace BiosKernel
open ByteMem MachineInt
set_option autoImplicit true

/-- The little-endian 16-bit words of a buffer. An odd last byte is a word of its own. -/
def words16 : List UInt8 → List Nat
  | lo :: hi :: data => (lo.toNat + 256 * hi.toNat) :: words16 data
  | [b] => [b.toNat]
  | [] => []

theorem words16_le (data : List UInt8) : ∀ w ∈ words16 data, w ≤ 0xFFFF := by
  induction data using words16.induct with
  | case1 lo hi data ih =>
    have hlo := lo.toNat_lt
    have hhi := hi.toNat_lt
    exact List.forall_mem_cons.mpr ⟨by omega, ih⟩
  | case2 b =>
    have hb := b.toNat_lt
    exact List.forall_mem_singleton.mpr (by omega)
  | case3 => exact List.forall_mem_nil _

theorem words16_take (data : List UInt8) (k : Nat) :
    words16 (data.take (2 * k)) = (words16 data).take k := by
  induction k generalizing data with
  | zero => rfl
  | succ k ih =>
    rw [Nat.mul_succ]
    match data with
    | lo :: hi :: data => exact congrArg (_ :: ·) (ih data)
    | [b] => exact congrArg (b.toNat :: ·) List.take_nil.symm
    | [] => rfl

/-- Masking and shifting add the carry at the other end. -/
theorem addFold_eq (hs : s ≤ 0xFFFF) (hn : n ≤ 0xFFFF) :
    addFold s n = OnesComplement.add 0xFFFF s n := by
  rw [addFold, OnesComplement.add]
  by_cases h : s + n ≤ 0xFFFF
  · rw [if_neg (Nat.not_lt.mpr h), if_pos h]
  · have hmask : (s + n) &&& 0xFFFF = (s + n) % 2 ^ 16 := Nat.and_two_pow_sub_one_eq_mod _ 16
    rw [if_pos (Nat.lt_of_not_le h), if_neg h, hmask, Nat.shiftRight_eq_div_pow]
    omega

theorem addFold_residue (k : Nat) (hn : n ≤ 0xFFFF) :
    addFold (OnesComplement.residue 0xFFFF k) n = OnesComplement.residue 0xFFFF (k + n) := by
  have hk := OnesComplement.residue_le (m := 0xFFFF) (by decide) k
  have hadd := OnesComplement.add_residue hn (by decide) k
  rw [addFold_eq hk hn, Nat.add_comm k n, ← hadd, OnesComplement.add, OnesComplement.add,
    Nat.add_comm n]

theorem checksumLoop_residue (k : Nat) (data : List UInt8) :
    checksumLoop (OnesComplement.residue 0xFFFF k) data =
      OnesComplement.residue 0xFFFF (k + (words16 data).sum) := by
  induction data using words16.induct generalizing k with
  | case1 lo hi data ih =>
    obtain ⟨hw, -⟩ := List.forall_mem_cons.mp (words16_le (lo :: hi :: data))
    rw [checksumLoop, addFold_residue k hw, ih, words16, List.sum_cons, Nat.add_assoc]
  | case2 b =>
    obtain ⟨hw, -⟩ := List.forall_mem_cons.mp (words16_le [b])
    rw [checksumLoop, addFold_residue k hw, words16, List.sum_singleton]
  | case3 => rfl

theorem checksumLoop_eq (data : List UInt8) :
    checksumLoop 0 data = OnesComplement.residue 0xFFFF (words16 data).sum := by
  have h := checksumLoop_residue 0 data
  rwa [Nat.zero_add] at h

theorem checksumLoop_le (data : List UInt8) : checksumLoop 0 data ≤ 0xFFFF := by
  rw [checksumLoop_eq]
  exact OnesComplement.residue_le (by decide) _

theorem checksumLoop_eq_sum (data : List UInt8) :
    checksumLoop 0 data = OnesComplement.sum 0xFFFF (words16 data) := by
  rw [checksumLoop_eq, OnesComplement.sum_eq (by decide) (words16_le data)]

theorem ipv4Checksum_eq (data : List UInt8) :
    ipv4Checksum data = 0xFFFF - checksumLoop 0 data := by
  have hle := checksumLoop_le data
  rw [ipv4Checksum, u16]
  omega

/-- The checksum is the complement of the one's-complement sum of the words. The running sum behind
`k` words is that of those words and fits in 16 bits. The order of the words does not matter. -/
theorem ipv4Checksum_internet (data : List UInt8) :
    ipv4Checksum data = 0xFFFF - OnesComplement.sum 0xFFFF (words16 data) ∧
    (∀ k, checksumLoop 0 (data.take (2 * k)) =
        OnesComplement.sum 0xFFFF ((words16 data).take k) ∧
      checksumLoop 0 (data.take (2 * k)) ≤ 0xFFFF) ∧
    ∀ data', (words16 data').Perm (words16 data) → ipv4Checksum data' = ipv4Checksum data := by
  refine ⟨?_, ?_, ?_⟩
  · rw [ipv4Checksum_eq, checksumLoop_eq_sum]
  · intro k
    refine ⟨?_, checksumLoop_le _⟩
    rw [checksumLoop_eq_sum, words16_take]
  · intro data' hperm
    rw [ipv4Checksum_eq, ipv4Checksum_eq, checksumLoop_eq, checksumLoop_eq, hperm.sum_eq]

/-- The header at the front of the packet is one that a receiver accepts. -/
def HeaderVerifies (m : Mem) (packet : Nat) : Prop :=
  OnesComplement.sum 0xFFFF (words16 (bytes m packet sizeofIpv4Header)) = 0xFFFF ∧
    ipv4Checksum (bytes m packet sizeofIpv4Header) = 0

/-- The bytes at even places of the header, the checksum left out. -/
def evenBytes (totalLength : Nat) (srcIp dstIp : Ipv4Addr) : Nat :=
  0x45 + totalLength / 256 % 256 + 0x40 + 0x40 +
    (srcIp.get 0).toNat + (srcIp.get 2).toNat + (dstIp.get 0).toNat + (dstIp.get 2).toNat

/-- Those at odd places. -/
def oddBytes (totalLength : Nat) (protocol : Int) (srcIp dstIp : Ipv4Addr) : Nat :=
  totalLength % 256 + toU8 protocol +
    (srcIp.get 1).toNat + (srcIp.get 3).toNat + (dstIp.get 1).toNat + (dstIp.get 3).toNat

theorem Ipv4Addr.toList_eq (v : Ipv4Addr) : v.toList = [v.get 0, v.get 1, v.get 2, v.get 3] := by
  obtain ⟨⟨l⟩, hl⟩ := v
  match l, hl with
  | [a, b, c, d], _ => rfl

theorem toU8_lt (n : Int) : toU8 n < 256 := by
  rw [toU8]
  omega

theorem sum_words16_ipv4Wire (totalLength : Nat) (protocol : Int) (checksum : Nat)
    (srcIp dstIp : Ipv4Addr) :
    (words16 (ipv4Wire totalLength protocol checksum srcIp dstIp)).sum =
      evenBytes totalLength srcIp dstIp + 256 * oddBytes totalLength protocol srcIp dstIp +
        (checksum / 256 % 256 + 256 * (checksum % 256)) := by
  have hprotocol := Nat.mod_eq_of_lt (toU8_lt protocol)
  simp only [ipv4Wire, be16, Ipv4Addr.toList_eq, List.cons_append, List.nil_append, words16,
    List.sum_cons, List.sum_nil, UInt8.toNat_ofNat', UInt8.reduceToNat, evenBytes, oddBytes]
  omega

theorem headerVerifies_iff_sum {header : List UInt8} (h : bytes m packet 20 = header)
    (h0 : (words16 header).sum ≠ 0) :
    HeaderVerifies m packet ↔ (words16 header).sum % 0xFFFF = 0 := by
  have hle := checksumLoop_le header
  rw [HeaderVerifies, sizeofIpv4Header, h, ipv4Checksum_eq, ← checksumLoop_eq_sum,
    ← OnesComplement.residue_eq_iff (by decide) h0, ← checksumLoop_eq]
  omega

/-- The complement is stored with its bytes swapped, so it is right only where they are equal. -/
theorem swapped_complement_iff {s c : Nat} (h : s + c = 0xFFFF) :
    (s + (c / 256 % 256 + 256 * (c % 256))) % 0xFFFF = 0 ↔ s % 257 = 0 := by
  obtain ⟨a, b, hb, rfl⟩ : ∃ a b, b < 256 ∧ c = 256 * a + b :=
    ⟨c / 256, c % 256, Nat.mod_lt _ (by decide), (Nat.div_add_mod c 256).symm⟩
  have hhigh : (256 * a + b) / 256 % 256 = a := by omega
  have hlow : (256 * a + b) % 256 = b := by omega
  have ha : a < 256 := by omega
  have hsum : s + (a + 256 * b) = 255 * (257 + b - a) := by omega
  rw [hhigh, hlow, hsum, show 0xFFFF = 255 * 257 from rfl, Nat.mul_mod_mul_left]
  omega

theorem sum_swapped_mod_iff {c t : Nat} (hc : c = 0xFFFF - OnesComplement.residue 0xFFFF t) :
    (t + (c / 256 % 256 + 256 * (c % 256))) % 0xFFFF = 0 ↔ t % 257 = 0 := by
  have hle := OnesComplement.residue_le (m := 0xFFFF) (by decide) t
  have hmod := OnesComplement.residue_mod 0xFFFF t
  have h257 : t % 257 = OnesComplement.residue 0xFFFF t % 257 := by
    rw [← Nat.mod_mod_of_dvd t (by decide : 257 ∣ 0xFFFF), ← hmod,
      Nat.mod_mod_of_dvd _ (by decide : 257 ∣ 0xFFFF)]
  rw [← Nat.mod_add_mod, ← hmod, Nat.mod_add_mod, swapped_complement_iff (by omega), h257]

/-- The emitted header verifies exactly if the bytes at its even places and those at its odd places
have the same sum modulo 257. -/
theorem headerVerifies_iff (m : Mem) (packet len : Nat) (protocol : Int) (srcIp dstIp : Ipv4Addr) :
    HeaderVerifies (encapsulateIpv4 m packet len protocol srcIp dstIp).1 packet ↔
      evenBytes (20 + len) srcIp dstIp % 257 = oddBytes (20 + len) protocol srcIp dstIp % 257 := by
  let c := ipv4Checksum (ipv4Wire (20 + len) protocol 0 srcIp dstIp)
  have hc : c = 0xFFFF - OnesComplement.residue 0xFFFF
      (evenBytes (20 + len) srcIp dstIp + 256 * oddBytes (20 + len) protocol srcIp dstIp) := by
    rw [← Nat.add_zero (_ + 256 * _), ← sum_words16_ipv4Wire (20 + len) protocol 0 srcIp dstIp,
      ← checksumLoop_eq]
    exact ipv4Checksum_eq _
  have hbytes : bytes (encapsulateIpv4 m packet len protocol srcIp dstIp).1 packet 20 =
      ipv4Wire (20 + len) protocol c srcIp dstIp := by
    rw [encapsulateIpv4_eq]
    exact (bytes_prependHeader m packet (length_ipv4Wire ..) (Nat.zero_le len)).trans
      (List.append_nil _)
  have hpos : 0 < evenBytes (20 + len) srcIp dstIp := by
    rw [evenBytes]
    omega
  rw [headerVerifies_iff_sum hbytes (by rw [sum_words16_ipv4Wire]; omega), sum_words16_ipv4Wire,
    sum_swapped_mod_iff hc]
  -- 256 is -1 modulo 257
  omega

/-- The header of an empty UDP datagram from 10.0.0.24 to 10.0.0.138: a receiver computes 0x9F6
instead of 0. -/
theorem udp_header_refused :
    let m := (encapsulateIpv4 (fun _ => 0) 0x1000 8 17 #v[10, 0, 0, 24] #v[10, 0, 0, 138]).1
    ipv4Checksum (bytes m 0x1000 20) = 0x9F6 ∧ ¬HeaderVerifies m 0x1000 := by
  intro m
  have hsum : ipv4Checksum (bytes m 0x1000 20) = 0x9F6 := by decide +kernel
  refine ⟨hsum, ?_⟩
  rintro ⟨-, hzero⟩
  rw [sizeofIpv4Header, hsum] at hzero
  exact absurd hzero (by decide)

end BiosKernel
