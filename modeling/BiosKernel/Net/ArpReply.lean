import BiosKernel.Net.Arp

namespace BiosKernel
open ByteMem
set_option autoImplicit true

theorem storeEntry_of_slot (new : ArpEntry) {es : List ArpEntry}
    (h : ∃ e ∈ es, e.ip = new.ip ∨ e.isFree = true) : ∃ es', storeEntry new es = some es' := by
  induction es with
  | nil =>
    obtain ⟨e, he, -⟩ := h
    cases he
  | cons e es ih =>
    rw [storeEntry]
    by_cases htaken : (e.hasIp new.ip || e.isFree) = true
    · exact ⟨_, if_pos htaken⟩
    · rw [if_neg htaken]
      obtain ⟨e', he', hslot⟩ := h
      obtain rfl | hmem := List.mem_cons.mp he'
      · exact absurd (Bool.or_eq_true_iff.mpr (hslot.imp_left ArpEntry.hasIp_iff.mpr)) htaken
      · obtain ⟨es', hes⟩ := ih ⟨e', hmem, hslot⟩
        exact ⟨e :: es', by rw [hes]; rfl⟩

theorem ArpCache.findMacInCache_cacheArpEntry {c : ArpCache}
    (h : ∃ e ∈ c.entries, e.ip = ip ∨ e.isFree = true) (hip : ip.get 0 ≠ 0) (mac : MacAddr)
    (now : UInt64) :
    ((c.cacheArpEntry ip mac now).getD c).findMacInCache ip = some mac := by
  obtain ⟨es, hes⟩ := storeEntry_of_slot ⟨ip, mac, now⟩ h
  have hsome : ∃ c', c.cacheArpEntry ip mac now = some c' := by
    rw [cacheArpEntry]
    split
    · next hnone => exact absurd (hnone.symm.trans hes) (Option.some_ne_none _).symm
    · exact ⟨_, rfl⟩
  obtain ⟨c', hc⟩ := hsome
  have hlookup := ArpEntry.lookup_storeEntry (cacheArpEntry_eq_some hc) hip
  rw [hc, Option.getD_some, findMacInCache_eq, hlookup, if_pos rfl]
  rfl

namespace Nic

/-- A frame is the reply to a request: wherever it lies, it is an ARP frame with the own addresses
for the requester, and a requester that handles it finds the own hardware address in its cache. -/
structure Answers (nic : Nic) (request : ArpHeader) (reply : List UInt8) : Prop where
  decodes : ∀ m data, bytes m data reply.length = reply →
    bytes m (data + 12) 2 = be16 ptypeArp ∧
      htobe16 (arpAt m (data + 14)).oper = arpOperReply ∧
      (arpAt m (data + 14)).sha = nic.mac ∧ (arpAt m (data + 14)).spa = nic.ipv4 ∧
      (arpAt m (data + 14)).tha = request.sha ∧ (arpAt m (data + 14)).tpa = request.spa
  binds : ∀ (requester : Nic) m data len packet now (cache : ArpCache),
    bytes m data reply.length = reply → 0 < len → nic.ipv4.get 0 ≠ 0 →
    (∃ e ∈ cache.entries, e.ip = nic.ipv4 ∨ e.isFree = true) →
    (requester.handlePacket m data len packet now cache).1.findMacInCache nic.ipv4 = some nic.mac

/-- A request is answered with one reply if it is for the own address, and with none otherwise. -/
def AnswersOwn (nic : Nic) (m : Mem) (data : Nat) (len : Int) (packet : Nat) (now : UInt64)
    (cache : ArpCache) : Prop :=
  let sent := (nic.handlePacket m data len packet now cache).2
  ((arpAt m (data + 14)).tpa = nic.ipv4 →
      ∃ reply, sent = [reply] ∧ nic.Answers (arpAt m (data + 14)) reply) ∧
    ((arpAt m (data + 14)).tpa ≠ nic.ipv4 → sent = [])

theorem replyHeader_oper (sha : MacAddr) (spa : Ipv4Addr) (tha : MacAddr) (tpa : Ipv4Addr) :
    htobe16 (replyHeader sha spa tha tpa).oper = arpOperReply := by
  change htobe16 (htobe16 arpOperReply) = arpOperReply
  decide

theorem reply_decodes (nic : Nic) (request : ArpHeader)
    (h : bytes m data 60 = ethernetWire request.sha nic.mac ptypeArp ++
      ((replyHeader nic.mac nic.ipv4 request.sha request.spa).bytes ++ List.replicate 18 0)) :
    bytes m (data + 12) 2 = be16 ptypeArp ∧
      arpAt m (data + 14) = replyHeader nic.mac nic.ipv4 request.sha request.spa := by
  obtain ⟨heth, hrest⟩ := (bytes_eq_append_iff (k := 46) (length_ethernetWire ..)).mp h
  obtain ⟨harp, -⟩ := (bytes_eq_append_iff (k := 18) (ArpHeader.length_bytes _)).mp hrest
  have hmacs : (request.sha.toList ++ nic.mac.toList).length = 12 := by
    rw [List.length_append, Vector.length_toList, Vector.length_toList]
  have hhtype : htobe16 arpHtypeEth < 2 ^ 16 := by decide
  have hptype : htobe16 ptypeIpv4 < 2 ^ 16 := by decide
  have hhlen : arpHlenEth < 2 ^ 8 := by decide
  have hplen : arpPlenIpv4 < 2 ^ 8 := by decide
  have hoper : htobe16 arpOperReply < 2 ^ 16 := by decide
  exact ⟨((bytes_eq_append_iff (k := 2) hmacs).mp heth).2,
    arpAt_of_bytes harp hhtype hptype hhlen hplen hoper⟩

theorem sendArp_answers (nic : Nic) (request : ArpHeader) (m : Mem) (packet : Nat) :
    nic.Answers request
      (sendArp m packet arpOperReply nic.mac nic.ipv4 request.sha request.spa) := by
  have hlen : (sendArp m packet arpOperReply nic.mac nic.ipv4 request.sha request.spa).length =
      60 := by
    rw [sendArp_reply, List.length_append, length_ethernetWire, List.length_append,
      ArpHeader.length_bytes, List.length_replicate]
  constructor
  · intro m' data h
    rw [hlen, sendArp_reply] at h
    obtain ⟨htype, harp⟩ := reply_decodes nic request h
    rw [harp]
    exact ⟨htype, replyHeader_oper .., rfl, rfl, rfl, rfl⟩
  · intro requester m' data len packet' now cache h hpos hip hslot
    rw [hlen, sendArp_reply] at h
    obtain ⟨htype, harp⟩ := reply_decodes nic request h
    have hstored : (requester.handlePacket m' data len packet' now cache).1 =
        (cache.cacheArpEntry nic.ipv4 nic.mac now).getD cache := by
      have hoper : htobe16 (arpAt (Rtl8139.handlePacket m' data) (data + 14)).oper =
          arpOperReply := by
        rw [arpAt_handlePacket, harp]
        exact replyHeader_oper ..
      rw [requester.handlePacket_arp hpos htype, requester.handlePacketArp_reply _ _ _ _ _ hoper,
        arpAt_handlePacket, harp]
      rfl
    rw [hstored]
    exact ArpCache.findMacInCache_cacheArpEntry hslot hip nic.mac now

/-- A request is answered as it should be exactly if the bytes behind the addresses let the
comparisons find the own address in the target and only there. -/
theorem answersOwn_iff (nic : Nic) (m : Mem) (data : Nat) (len : Int) (packet : Nat) (now : UInt64)
    (cache : ArpCache) (hlen : 0 < len) (htype : bytes m (data + 12) 2 = be16 ptypeArp)
    (hoper : htobe16 (arpAt m (data + 14)).oper = arpOperRequest) :
    nic.AnswersOwn m data len packet now cache ↔
      ((arpAt m (data + 14)).tpa = nic.ipv4 →
          arrayAt m (data + 42) 2 = nic.padding ∨ nic.SenderMatches m (data + 14)) ∧
        ((arpAt m (data + 14)).tpa ≠ nic.ipv4 → ¬nic.SenderMatches m (data + 14)) := by
  have hsame := arpAt_handlePacket m data
  have hrequest := nic.handlePacketArp_request (Rtl8139.handlePacket m data) data packet now cache
    (by rw [hsame]; exact hoper)
  have hreply := nic.sendArp_answers (arpAt m (data + 14)) (Rtl8139.handlePacket m data) packet
  rw [AnswersOwn, nic.handlePacket_arp hlen htype, hrequest, hsame]
  simp only [targetMatches_handlePacket, senderMatches_handlePacket]
  by_cases htpa : (arpAt m (data + 14)).tpa = nic.ipv4
  · have htarget : nic.TargetMatches m (data + 14) ↔ arrayAt m (data + 42) 2 = nic.padding :=
      and_iff_right htpa
    rw [← htarget]
    by_cases hmatch : nic.TargetMatches m (data + 14) ∨ nic.SenderMatches m (data + 14)
    · rw [if_pos hmatch]
      exact iff_of_true ⟨fun _ => ⟨_, rfl, hreply⟩, fun h => absurd htpa h⟩
        ⟨fun _ => hmatch, fun h => absurd htpa h⟩
    · rw [if_neg hmatch]
      refine iff_of_false (fun h => ?_) fun h => hmatch (h.1 htpa)
      obtain ⟨reply, hnil, -⟩ := h.1 htpa
      cases hnil
  · have htarget : ¬nic.TargetMatches m (data + 14) := fun h => htpa h.1
    by_cases hsender : nic.SenderMatches m (data + 14)
    · rw [if_pos (.inr hsender)]
      refine iff_of_false (fun h => ?_) fun h => h.2 htpa hsender
      cases h.2 htpa
    · rw [if_neg (not_or.mpr ⟨htarget, hsender⟩)]
      exact iff_of_true ⟨fun h => absurd h htpa, fun _ => rfl⟩
        ⟨fun h => absurd h htpa, fun _ => hsender⟩

/-- A machine with the address 10.0.0.24 and, in memory, the request of 10.0.0.138 for an address
with two bytes behind it. -/
def sampleNic : Nic := ⟨#v[2, 0, 0, 0, 0, 1], #v[10, 0, 0, 24], #v[0, 0]⟩

def sampleRequest (spa tpa : Ipv4Addr) (behind : List UInt8) : Mem := fun x =>
  (ethernetWire ethBroadcast #v[2, 0, 0, 0, 0, 2] ptypeArp ++
    [0, 1, 8, 0, 6, 4, 0, 1, 2, 0, 0, 0, 0, 2] ++ spa.toList ++ [0, 0, 0, 0, 0, 0] ++ tpa.toList ++
    behind).getD (x - 0x1000) 0

/-- A request that is filled up with zeros is answered. -/
theorem answersOwn_zeros : sampleNic.AnswersOwn
    (sampleRequest #v[10, 0, 0, 138] #v[10, 0, 0, 24] []) 0x1000 60 0x2000 0 .zeroed :=
  (answersOwn_iff sampleNic _ 0x1000 60 0x2000 0 .zeroed (by decide) (by decide)
    (by decide +kernel)).mpr (by decide)

/-- One with other bytes behind it is not, and a request for another address that has the own one as
its sender is. -/
theorem request_unanswered :
    ¬sampleNic.AnswersOwn (sampleRequest #v[10, 0, 0, 138] #v[10, 0, 0, 24] [0x55, 0x55])
        0x1000 60 0x2000 0 .zeroed ∧
      ¬sampleNic.AnswersOwn (sampleRequest #v[10, 0, 0, 24] #v[10, 0, 0, 99] [])
        0x1000 60 0x2000 0 .zeroed := by
  constructor
  · rintro ⟨hown, -⟩
    obtain ⟨reply, hsent, -⟩ := hown (by decide)
    have hnone : (sampleNic.handlePacket
      (sampleRequest #v[10, 0, 0, 138] #v[10, 0, 0, 24] [0x55, 0x55])
      0x1000 60 0x2000 0 .zeroed).2 = [] := by decide +kernel
    rw [hnone] at hsent
    cases hsent
  · rintro ⟨-, hother⟩
    exact absurd (hother (by decide)) (by decide +kernel)

end Nic

end BiosKernel
