import BiosKernel.Lib.LengthPrefixed
import BiosKernel.Libc.Text
import BiosKernel.Net.Encapsulate

namespace BiosKernel
open ByteMem LengthPrefixed
set_option autoImplicit true

/-- `PACKET_MAX_SIZE`. -/
def packetMaxSize : Nat := 1500

/-- `DNS_QR_QUERY`, `DNS_OPCODE_QUERY` and `DNS_RCODE_NOERROR`. -/
def dnsQrQuery : Nat := 0

def dnsOpcodeQuery : Nat := 0

def dnsRcodeNoerror : Nat := 0

/-- `DNS_RR_TYPE_A` and `DNS_RR_CLASS_IN`. -/
def dnsRrTypeA : Nat := 1

def dnsRrClassIn : Nat := 1

structure DnsHeader where
  (tid flags numQ numAns numAuth numAdd : Nat)

structure DnsQuestion where
  (qtype qclass : Nat)

def DnsHeader.bytes (h : DnsHeader) : List UInt8 :=
  le16 h.tid ++ le16 h.flags ++ le16 h.numQ ++ le16 h.numAns ++ le16 h.numAuth ++ le16 h.numAdd

def DnsQuestion.bytes (q : DnsQuestion) : List UInt8 := le16 q.qtype ++ le16 q.qclass

def sizeofDnsHeader : Nat := 12

def sizeofDnsQuestion : Nat := 4

def dot : UInt8 := 46

/-- The loop over the labels from what `strtok` has returned on: the memory and `packet_len`, or
none if it takes more rounds than are given. -/
def labelLoop (packet : Nat) : Nat → Mem → Nat → Option CString × Option CString →
    Option (Mem × Nat)
  | 0, _, _, _ => none
  | _ + 1, m, packetLen, (none, _) => some (m, packetLen)
  | fuel + 1, m, packetLen, (some label, start) =>
    let m := put m (packet + packetLen) [UInt8.ofNat (strlen label)]
    let packetLen := packetLen + 1
    let m := put m (packet + packetLen) label.text
    labelLoop packet fuel m (packetLen + strlen label) (strtok start [dot])

/-- `send_dns` up to the UDP layer, with what `rand` returns: the memory and `packet_len`. -/
def dnsQuery (fuel : Nat) (m : Mem) (packet rand : Nat) (name : CString) : Option (Mem × Nat) := do
  let dnsHeader : DnsHeader :=
    { tid := htobe16 (rand % (2 ^ 16 - 1))
      flags := htobe16 (dnsQrQuery <<< 15 ||| dnsOpcodeQuery <<< 11 ||| 1 <<< 8 ||| dnsRcodeNoerror)
      numQ := htobe16 1
      numAns := 0
      numAuth := 0
      numAdd := 0 }
  let m := put m packet dnsHeader.bytes
  let (m, packetLen) ← labelLoop packet fuel m sizeofDnsHeader (strtok (some name) [dot])
  let m := put m (packet + packetLen) [0]
  let packetLen := packetLen + 1
  let dnsQuestion : DnsQuestion := { qtype := htobe16 dnsRrTypeA, qclass := htobe16 dnsRrClassIn }
  let m := put m (packet + packetLen) dnsQuestion.bytes
  return (m, packetLen + sizeofDnsQuestion)

/-- A label of a domain name. -/
structure Label where
  chars : CString
  ne_nil : chars ≠ []
  length_le : chars.length ≤ 63
  zero_not_mem : 0 ∉ chars
  dot_not_mem : dot ∉ chars

/-- The labels separated by single dots, perhaps with a dot behind them. -/
def dotted (trailing : Bool) : List Label → CString
  | [] => if trailing then [dot] else []
  | [l] => l.chars ++ if trailing then [dot] else []
  | l :: ls => l.chars ++ dot :: dotted trailing ls

/-- The header of the query as it goes over the wire. -/
def dnsWire (rand : Nat) : List UInt8 :=
  be16 (rand % 65535) ++ be16 0x0100 ++ be16 1 ++ be16 0 ++ be16 0 ++ be16 0

/-- `strtok` starts where the labels follow. -/
inductive LabelsAt : Option CString → List Label → Prop
  | done : LabelsAt none []
  | empty : LabelsAt (some []) []
  | root : LabelsAt (some [dot]) []
  | last (l : Label) : LabelsAt (some l.chars) [l]
  | cons (l : Label) : LabelsAt (some s) ls → LabelsAt (some (l.chars ++ dot :: s)) (l :: ls)

theorem labelsAt_dotted (trailing : Bool) (ls : List Label) :
    LabelsAt (some (dotted trailing ls)) ls := by
  induction ls with
  | nil =>
    cases trailing with
    | false => exact .empty
    | true => exact .root
  | cons l ls ih =>
    cases ls with
    | nil =>
      cases trailing with
      | false =>
        rw [dotted, if_neg Bool.false_ne_true, List.append_nil]
        exact .last l
      | true => exact .cons l .empty
    | cons l' ls => exact .cons l ih

theorem LabelsAt.strtok (h : LabelsAt start ls) : ∃ next,
    strtok start [dot] = (ls.head?.map Label.chars, next) ∧ LabelsAt next ls.tail := by
  cases h with
  | done => exact ⟨none, rfl, .done⟩
  | empty => exact ⟨none, rfl, .done⟩
  | root => exact ⟨none, rfl, .done⟩
  | last l => exact ⟨none, strtok_last l.dot_not_mem l.zero_not_mem l.ne_nil, .done⟩
  | cons l h =>
    exact ⟨_, strtok_word (by decide) l.dot_not_mem l.zero_not_mem l.ne_nil _, h⟩

theorem labelLoop_eq (h : LabelsAt start ls) (hfuel : ls.length < fuel) (m : Mem)
    (packet : Nat) (front : List UInt8) :
    labelLoop packet fuel (put m packet front) front.length (BiosKernel.strtok start [dot]) =
      some (put m packet (front ++ items (ls.map Label.chars)),
        (front ++ items (ls.map Label.chars)).length) := by
  induction ls generalizing fuel start front with
  | nil =>
    obtain ⟨next, hnext, -⟩ := h.strtok
    obtain ⟨fuel, rfl⟩ : ∃ k, fuel = k + 1 := ⟨fuel - 1, by omega⟩
    rw [hnext, List.map_nil, items, List.append_nil]
    rfl
  | cons l ls ih =>
    obtain ⟨next, hnext, hrest⟩ := h.strtok
    obtain ⟨fuel, rfl⟩ : ∃ k, fuel = k + 1 := ⟨fuel - 1, by omega⟩
    rw [List.length_cons] at hfuel
    have hlen : strlen l.chars = l.chars.length := strlen_eq_length l.zero_not_mem
    have htext : l.chars.text = l.chars := CString.text_eq_self l.zero_not_mem
    have hfront : (front ++ [UInt8.ofNat l.chars.length] ++ l.chars).length =
        front.length + 1 + l.chars.length := by
      rw [List.length_append, List.length_append, List.length_singleton]
    rw [hnext]
    show labelLoop packet fuel (put (put (put m packet front) (packet + front.length)
      [UInt8.ofNat (strlen l.chars)]) (packet + (front.length + 1)) l.chars.text)
      (front.length + 1 + strlen l.chars) (BiosKernel.strtok next [dot]) = _
    have hput : put (put (put m packet front) (packet + front.length) [UInt8.ofNat l.chars.length])
        (packet + (front.length + 1)) l.chars =
          put m packet (front ++ [UInt8.ofNat l.chars.length] ++ l.chars) := by
      rw [put_put_append, ← put_put_append m packet (front ++ _), List.length_append,
        List.length_singleton]
    have hitems : front ++ items ((l :: ls).map Label.chars) =
        front ++ [UInt8.ofNat l.chars.length] ++ l.chars ++ items (ls.map Label.chars) := by
      simp only [List.map_cons, items, List.append_assoc, List.cons_append, List.nil_append]
    rw [hlen, htext, hput, ← hfront, ih hrest (by omega), hitems]

theorem dnsQuery_eq (trailing : Bool) {ls : List Label} (hfuel : ls.length < fuel) (m : Mem)
    (packet rand : Nat) :
    dnsQuery fuel m packet rand (dotted trailing ls) =
      some (put m packet (dnsWire rand ++ encode (ls.map Label.chars) ++ (be16 1 ++ be16 1)),
        12 + (encode (ls.map Label.chars)).length + 4) := by
  have hloop := labelLoop_eq (labelsAt_dotted trailing ls) hfuel m packet (dnsWire rand)
  have hlen : (dnsWire rand ++ items (ls.map Label.chars) ++ [0]).length =
      (dnsWire rand ++ items (ls.map Label.chars)).length + 1 := List.length_append
  have hpacketLen : (dnsWire rand ++ items (ls.map Label.chars) ++ [0]).length =
      12 + (encode (ls.map Label.chars)).length := by
    rw [List.append_assoc, List.length_append]
    rfl
  simp only [dnsQuery, DnsHeader.bytes, DnsQuestion.bytes, le16_htobe16]
  change (labelLoop packet fuel (put m packet (dnsWire rand)) (dnsWire rand).length
    (strtok (some (dotted trailing ls)) [dot])).bind _ = _
  rw [hloop, Option.bind_some]
  dsimp only
  rw [put_put_append, ← hlen, put_put_append, hpacketLen, List.append_assoc (dnsWire rand)]
  rfl

/-- The question decodes to the labels of the name, type A and class IN, and the packet is as long
as its parts. Nothing outside the packet is written. -/
theorem dnsQuery_question (ls : List Label) (trailing : Bool) (m : Mem) (packet rand : Nat)
    (hfit : 12 + (encode (ls.map Label.chars)).length + 4 ≤ packetMaxSize)
    (hfuel : ls.length < fuel) : ∃ m' packetLen,
      dnsQuery fuel m packet rand (dotted trailing ls) = some (m', packetLen) ∧
      packetLen = 12 + (encode (ls.map Label.chars)).length + 4 ∧
      decode (bytes m' (packet + 12) (packetLen - 12)) =
        some (ls.map Label.chars, be16 dnsRrTypeA ++ be16 dnsRrClassIn) ∧
      ∀ x, x < packet ∨ packet + packetMaxSize ≤ x → m' x = m x := by
  refine ⟨_, _, dnsQuery_eq trailing hfuel m packet rand, rfl, ?_, ?_⟩
  · have hquestion := bytes_put_right m packet (dnsWire rand)
      (encode (ls.map Label.chars) ++ (be16 1 ++ be16 1))
    have hlen : (encode (ls.map Label.chars) ++ (be16 1 ++ be16 1)).length =
        12 + (encode (ls.map Label.chars)).length + 4 - 12 := by
      rw [List.length_append]
      change _ + 4 = _
      omega
    have hlabels : ∀ x ∈ ls.map Label.chars, x ≠ [] ∧ x.length < 256 := by
      intro x hx
      obtain ⟨l, -, rfl⟩ := List.mem_map.mp hx
      exact ⟨l.ne_nil, Nat.lt_of_le_of_lt l.length_le (by decide)⟩
    rw [hlen] at hquestion
    rw [List.append_assoc, show packet + 12 = packet + (dnsWire rand).length from rfl, hquestion]
    exact decode_encode hlabels _
  · intro x hx
    refine put_apart _ (hx.imp_right fun hx => ?_)
    rw [List.length_append, List.length_append]
    change packet + (12 + _ + 4) ≤ x
    omega

/-- The query for `www.org`. -/
theorem dnsQuery_question_www : ∃ m' packetLen,
    dnsQuery 3 (fun _ => 0xFF) 0x1000 7 [119, 119, 119, 46, 111, 114, 103] =
      some (m', packetLen) ∧
    packetLen = 25 ∧
    decode (bytes m' 0x100C (packetLen - 12)) =
      some ([[119, 119, 119], [111, 114, 103]], [0, 1, 0, 1]) ∧
    ∀ x, x < 0x1000 ∨ 0x1000 + packetMaxSize ≤ x → m' x = 0xFF :=
  dnsQuery_question
    [⟨[119, 119, 119], by decide, by decide, by decide, by decide⟩,
      ⟨[111, 114, 103], by decide, by decide, by decide, by decide⟩]
    false (fun _ => 0xFF) 0x1000 7 (by decide) (by decide)

end BiosKernel
