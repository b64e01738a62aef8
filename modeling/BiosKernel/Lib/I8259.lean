import Mathlib.Tactic.Common

namespace I8259
set_option autoImplicit true

abbrev Byte := BitVec 8

/-- What the next byte at the data port is taken for. -/
inductive Expects where
  | mask
  | icw2
  | icw3
  | icw4
  deriving DecidableEq

/-- An interrupt controller 8259 with fixed priorities. -/
structure Chip where
  imr : Byte
  irr : Byte
  isr : Byte
  icw2 : Byte
  icw3 : Byte
  icw4 : Byte
  expects : Expects
  single : Bool
  needsIcw4 : Bool
  readIsr : Bool
  deriving DecidableEq

/-- The input with the highest priority. -/
def first (v : Byte) : Option Nat := (List.range 8).find? v.getLsbD

namespace Chip

/-- A write to the command port. -/
def writeCommand (c : Chip) (v : Byte) : Chip :=
  if v.getLsbD 4 then
    { c with
      imr := 0, irr := 0, isr := 0, icw4 := 0, expects := .icw2, single := v.getLsbD 1
      needsIcw4 := v.getLsbD 0, readIsr := false }
  else if v.getLsbD 3 then
    if v.getLsbD 1 then { c with readIsr := v.getLsbD 0 } else c
  -- The end of an interrupt, of the one named or of the one with the highest priority.
  else if v.getLsbD 5 then
    let level := if v.getLsbD 6 then some (v &&& 7).toNat else first c.isr
    match level with
    | some i => { c with isr := c.isr &&& ~~~(1#8 <<< i) }
    | none => c
  else c

/-- A write to the data port. -/
def writeData (c : Chip) (v : Byte) : Chip :=
  let last := if c.needsIcw4 then .icw4 else .mask
  match c.expects with
  | .mask => { c with imr := v }
  | .icw2 => { c with icw2 := v, expects := if c.single then last else .icw3 }
  | .icw3 => { c with icw3 := v, expects := last }
  | .icw4 => { c with icw4 := v, expects := .mask }

def readCommand (c : Chip) : Byte := if c.readIsr then c.isr else c.irr

def readData (c : Chip) : Byte := c.imr

/-- The request that the chip passes on. What is in service holds back what has no higher
priority. -/
def pending (c : Chip) : Option Nat :=
  (first (c.irr &&& ~~~c.imr)).filter fun i => (first c.isr).all (i < ·)

def request (c : Chip) (i : Nat) : Chip := { c with irr := c.irr ||| 1#8 <<< i }

/-- Take the request of an input, which is in service from now on unless its end is automatic. -/
def take (c : Chip) (i : Nat) : Chip :=
  { c with
    irr := c.irr &&& ~~~(1#8 <<< i)
    isr := if c.icw4.getLsbD 1 then c.isr else c.isr ||| 1#8 <<< i }

def vector (c : Chip) (i : Nat) : Byte := c.icw2 &&& 0xF8 ||| BitVec.ofNat 8 i

end Chip

/-- Two chips, the output of the second at input 2 of the first. -/
structure Pair where
  master : Chip
  slave : Chip
  deriving DecidableEq

namespace Pair

/-- The first chip with what comes from the second. -/
def wired (p : Pair) : Chip := if p.slave.pending.isSome then p.master.request 2 else p.master

/-- The output to the processor. -/
def int (p : Pair) : Bool := p.wired.pending.isSome

/-- The processor acknowledges, and gets a vector. Without a request it is the one of input 7, and
on inputs with a chip that chip answers. -/
def acknowledge (p : Pair) : Byte × Pair :=
  match p.wired.pending with
  | none => (p.master.vector 7, p)
  | some i =>
    let master := p.master.take i
    if p.master.icw3.getLsbD i then
      if (p.slave.icw3 &&& 7).toNat = i then
        match p.slave.pending with
        | none => (p.slave.vector 7, { p with master })
        | some j => (p.slave.vector j, ⟨master, p.slave.take j⟩)
      else (0xFF, { p with master })
    else (p.master.vector i, { p with master })

/-- A bit of a line in a register of the chip that has it. -/
def bit (p : Pair) (reg : Chip → Byte) (l : Nat) : Bool :=
  if l < 8 then (reg p.master).getLsbD l else (reg p.slave).getLsbD (l - 8)

/-- The device on a line asks for service. -/
def request (p : Pair) (l : Nat) : Pair :=
  if l < 8 then { p with master := p.master.request l }
  else { p with slave := p.slave.request (l - 8) }

def take (p : Pair) (l : Nat) : Pair :=
  if l < 8 then { p with master := p.master.take l } else ⟨p.master.take 2, p.slave.take (l - 8)⟩

def vector (p : Pair) (l : Nat) : Byte :=
  if l < 8 then p.master.vector l else p.slave.vector (l - 8)

/-- A line whose request can reach the processor. -/
def ready (p : Pair) (l : Nat) : Bool :=
  p.bit Chip.irr l && !p.bit Chip.imr l && (l < 8 || !p.bit Chip.imr 2)

/-- The pair is set up as it is wired, and nothing is requested at the input of the slave. -/
structure Cascaded (p : Pair) : Prop where
  master_icw3 : p.master.icw3 = 4
  slave_icw3 : p.slave.icw3 = 2
  master_irr : p.master.irr.getLsbD 2 = false

/-- Nothing is in service. -/
structure Idle (p : Pair) : Prop where
  master : p.master.isr = 0
  slave : p.slave.isr = 0

end Pair

/-- The lines with a device, in the order of their priorities. -/
def order : List Nat := [0, 1] ++ (List.range 8).map (8 + ·) ++ [3, 4, 5, 6, 7]

theorem Chip.pending_of_idle {c : Chip} (h : c.isr = 0) :
    c.pending = first (c.irr &&& ~~~c.imr) := by
  rw [pending, h]
  cases first (c.irr &&& ~~~c.imr) with
  | none => rfl
  | some i => exact Option.filter_some_pos rfl

theorem getLsbD_bit (hi : i < 8) (j : Nat) : (1#8 <<< i).getLsbD j = decide (i = j) := by
  rw [← BitVec.twoPow, BitVec.getLsbD_twoPow, decide_eq_true hi, Bool.true_and]

theorem getLsbD_set (v : Byte) (hi : i < 8) (j : Nat) :
    (v ||| 1#8 <<< i).getLsbD j = if i = j then true else v.getLsbD j := by
  rw [BitVec.getLsbD_or, getLsbD_bit hi]
  by_cases h : i = j
  · rw [if_pos h, decide_eq_true h, Bool.or_true]
  · rw [if_neg h, decide_eq_false h, Bool.or_false]

theorem getLsbD_clear (v : Byte) (hi : i < 8) (j : Nat) :
    (v &&& ~~~(1#8 <<< i)).getLsbD j = if i = j then false else v.getLsbD j := by
  rw [BitVec.getLsbD_and, BitVec.getLsbD_not, getLsbD_bit hi]
  by_cases h : i = j
  · rw [if_pos h, decide_eq_true h, Bool.not_true, Bool.and_false, Bool.and_false]
  · rw [if_neg h, decide_eq_false h, Bool.not_false, Bool.and_true]
    by_cases hj : j < 8
    · rw [decide_eq_true hj, Bool.and_true]
    · rw [BitVec.getLsbD_of_ge v j (by omega), Bool.false_and]

theorem Chip.writeCommand_eoi {c : Chip} (h : c.isr = 1#8 <<< i) (hi : i < 8) :
    c.writeCommand 0x20 = { c with isr := 0 } := by
  have hfirst : ∀ i < 8, first (1#8 <<< i) = some i ∧ 1#8 <<< i &&& ~~~(1#8 <<< i) = 0 := by decide
  obtain ⟨hf, hclear⟩ := hfirst i hi
  rw [writeCommand, if_neg (by decide), if_neg (by decide), if_pos (by decide)]
  dsimp only
  rw [if_neg (by decide), h, hf]
  dsimp only
  rw [hclear]

theorem first_and_not (irr imr : Byte) :
    first (irr &&& ~~~imr) = (List.range 8).find? fun i => irr.getLsbD i && !imr.getLsbD i := by
  have h (i : Nat) : (irr &&& ~~~imr).getLsbD i = (irr.getLsbD i && !imr.getLsbD i) := by
    rw [BitVec.getLsbD_and, BitVec.getLsbD_not]
    by_cases hi : i < 8
    · rw [decide_eq_true hi, Bool.true_and]
    · rw [BitVec.getLsbD_of_ge irr i (by omega), Bool.false_and, Bool.false_and]
  rw [first, funext h]

namespace Pair

variable {p : Pair}

theorem ready_of_lt (h : l < 8) :
    p.ready l = (p.master.irr.getLsbD l && !p.master.imr.getLsbD l) := by
  simp only [ready, bit, if_pos h, decide_eq_true h, Bool.true_or, Bool.and_true]

theorem ready_add (j : Nat) : p.ready (8 + j) =
    ((p.slave.irr.getLsbD j && !p.slave.imr.getLsbD j) && !p.master.imr.getLsbD 2) := by
  have h : ¬ 8 + j < 8 := by omega
  simp only [ready, bit, if_neg h, decide_eq_false h, Nat.add_sub_cancel_left, Bool.false_or,
    if_pos (show 2 < 8 by decide)]

section bit

variable {reg : Chip → Byte}

theorem bit_of_lt (h : l < 8) : p.bit reg l = (reg p.master).getLsbD l := if_pos h

theorem bit_of_le (h : 8 ≤ l) : p.bit reg l = (reg p.slave).getLsbD (l - 8) :=
  if_neg (Nat.not_lt.mpr h)

theorem bit_update {q : Pair} {f : Byte → Nat → Byte} {b : Bool}
    (hf : ∀ (v : Byte) (i : Nat), i < 8 → ∀ j, (f v i).getLsbD j = if i = j then b else v.getLsbD j)
    (hl : l < 16) (hm : reg q.master = if l < 8 then f (reg p.master) l else reg p.master)
    (hs : reg q.slave = if l < 8 then reg p.slave else f (reg p.slave) (l - 8)) :
    q.bit reg = Function.update (p.bit reg) l b := by
  funext k
  rw [Function.update_apply]
  by_cases hk : k < 8
  · rw [bit_of_lt hk, bit_of_lt hk, hm]
    split
    · next h =>
      rw [hf _ _ h]
      simp only [eq_comm (a := k)]
    · rw [if_neg (by omega)]
  · rw [bit_of_le (by omega), bit_of_le (by omega), hs]
    split
    · rw [if_neg (by omega)]
    · rw [hf _ _ (by omega)]
      by_cases he : k = l
      · rw [if_pos he, if_pos (by omega)]
      · rw [if_neg he, if_neg (by omega)]

theorem bit_request (hl : l < 16) :
    (p.request l).bit Chip.irr = Function.update (p.bit Chip.irr) l true := by
  apply bit_update (fun v _ hi => getLsbD_set v hi) hl
  · rw [request]
    split <;> rfl
  · rw [request]
    split <;> rfl

theorem bit_take (hc : Cascaded p) (hl : l < 16) :
    (p.take l).bit Chip.irr = Function.update (p.bit Chip.irr) l false := by
  apply bit_update (fun v _ hi => getLsbD_clear v hi) hl
  · rw [take]
    split
    · rfl
    · apply BitVec.eq_of_getLsbD_eq
      intro i hi
      refine (getLsbD_clear _ (by decide) i).trans ?_
      split
      · next h2 => rw [← h2, hc.master_irr]
      · rfl
  · rw [take]
    split <;> rfl

end bit

/-- The lines of the slave come where its input comes among those of the master. -/
theorem find_order (p : Pair) : order.find? p.ready =
    (([0, 1].find? p.ready).or
      (if p.master.imr.getLsbD 2 then none
        else (first (p.slave.irr &&& ~~~p.slave.imr)).map (8 + ·))).or
      ([3, 4, 5, 6, 7].find? p.ready) := by
  rw [order, List.find?_append, List.find?_append, List.find?_map, first_and_not,
    show p.ready ∘ (8 + ·) = _ from funext ready_add]
  cases p.master.imr.getLsbD 2 with
  | true =>
    have hnone : (List.range 8).find? (fun j =>
        (p.slave.irr.getLsbD j && !p.slave.imr.getLsbD j) && !true) = none := by simp
    rw [hnone]
    rfl
  | false => simp only [Bool.not_false, Bool.and_true, Bool.false_eq_true, if_false]

theorem wired_irr (hi : Idle p) (i : Nat) : p.wired.irr.getLsbD i =
    (p.master.irr.getLsbD i ||
      ((first (p.slave.irr &&& ~~~p.slave.imr)).isSome && decide (2 = i))) := by
  rw [wired, Chip.pending_of_idle hi.slave]
  cases (first (p.slave.irr &&& ~~~p.slave.imr)).isSome with
  | true =>
    have hset : (p.master.irr ||| 1#8 <<< 2).getLsbD i = _ := BitVec.getLsbD_or
    rw [getLsbD_bit (by decide)] at hset
    exact hset
  | false => exact (Bool.or_false _).symm

theorem wired_imr (p : Pair) : p.wired.imr = p.master.imr := by
  rw [wired]
  split <;> rfl

theorem wired_isr (p : Pair) : p.wired.isr = p.master.isr := by
  rw [wired]
  split <;> rfl

theorem wired_pending (hc : Cascaded p) (hi : Idle p) : p.wired.pending =
    (([0, 1].find? p.ready).or
      (if p.master.imr.getLsbD 2 then none
        else (first (p.slave.irr &&& ~~~p.slave.imr)).map fun _ => 2)).or
      ([3, 4, 5, 6, 7].find? p.ready) := by
  have hother (l : Nat) (hl : l < 8) (h2 : 2 ≠ l) :
      (p.wired.irr.getLsbD l && !p.wired.imr.getLsbD l) = p.ready l := by
    rw [wired_irr hi, wired_imr, decide_eq_false h2, Bool.and_false, Bool.or_false, ready_of_lt hl]
  have hslave : (p.wired.irr.getLsbD 2 && !p.wired.imr.getLsbD 2) =
      ((first (p.slave.irr &&& ~~~p.slave.imr)).isSome && !p.master.imr.getLsbD 2) := by
    rw [wired_irr hi, wired_imr, hc.master_irr, Bool.false_or, decide_eq_true rfl, Bool.and_true]
  rw [Chip.pending_of_idle (p.wired_isr.trans hi.master), first_and_not,
    show List.range 8 = [0, 1] ++ [2] ++ [3, 4, 5, 6, 7] from rfl, List.find?_append,
    List.find?_append]
  simp only [List.find?_cons, List.find?_nil, hslave, hother 0 (by decide) (by decide),
    hother 1 (by decide) (by decide), hother 3 (by decide) (by decide),
    hother 4 (by decide) (by decide), hother 5 (by decide) (by decide),
    hother 6 (by decide) (by decide), hother 7 (by decide) (by decide)]
  cases first (p.slave.irr &&& ~~~p.slave.imr) with
  | none => cases p.master.imr.getLsbD 2 <;> rfl
  | some j => cases p.master.imr.getLsbD 2 <;> rfl

theorem acknowledge_master (hc : Cascaded p) (h : p.wired.pending = some l)
    (hl : l ∈ [0, 1] ++ [3, 4, 5, 6, 7]) : p.acknowledge = (p.vector l, p.take l) := by
  have hall : ∀ l ∈ [0, 1] ++ [3, 4, 5, 6, 7], l < 8 ∧ ¬ (4 : Byte).getLsbD l = true := by decide
  obtain ⟨hlt, hicw3⟩ := hall l hl
  rw [acknowledge, h]
  dsimp only
  rw [hc.master_icw3, if_neg hicw3, vector, take, if_pos hlt, if_pos hlt]

theorem acknowledge_slave (hc : Cascaded p) (h : p.wired.pending = some 2)
    (hj : p.slave.pending = some j) : p.acknowledge = (p.vector (8 + j), p.take (8 + j)) := by
  have hlt : ¬ 8 + j < 8 := by omega
  rw [acknowledge, h]
  dsimp only
  rw [hc.master_icw3, hc.slave_icw3, hj, if_pos (by decide), if_pos (by decide), vector, take,
    if_neg hlt, if_neg hlt, Nat.add_sub_cancel_left]

theorem acknowledge_of_idle (hc : Cascaded p) (hi : Idle p) :
    p.int = (order.find? p.ready).isSome ∧
      ∀ l, order.find? p.ready = some l → p.acknowledge = (p.vector l, p.take l) := by
  have hw := wired_pending hc hi
  have hs := Chip.pending_of_idle hi.slave
  rw [int, find_order]
  cases hlow : [0, 1].find? p.ready with
  | some i =>
    rw [hlow, Option.some_or, Option.some_or] at hw
    rw [hw]
    refine ⟨rfl, ?_⟩
    rintro l ⟨⟩
    exact acknowledge_master hc hw (List.mem_append_left _ (List.mem_of_find?_eq_some hlow))
  | none =>
    rw [hlow, Option.none_or] at hw
    rw [Option.none_or]
    -- The slave is behind its masked input, or it has nothing to pass on, or it comes next.
    by_cases hhigh : p.master.imr.getLsbD 2 = true ∨ first (p.slave.irr &&& ~~~p.slave.imr) = none
    · have hnone (f : Nat → Nat) : (if p.master.imr.getLsbD 2 then none
          else (first (p.slave.irr &&& ~~~p.slave.imr)).map f) = none := by
        split
        · rfl
        · next h => rw [hhigh.resolve_left h, Option.map_none]
      rw [hnone, Option.none_or] at hw ⊢
      rw [hw]
      refine ⟨rfl, ?_⟩
      intro l hl
      exact acknowledge_master hc (hw.trans hl)
        (List.mem_append_right _ (List.mem_of_find?_eq_some hl))
    · obtain ⟨hm, hj⟩ := not_or.mp hhigh
      obtain ⟨j, hj⟩ := Option.ne_none_iff_exists'.mp hj
      rw [hj, if_neg hm, Option.map_some, Option.some_or] at hw ⊢
      rw [hw]
      refine ⟨rfl, ?_⟩
      rintro l ⟨⟩
      exact acknowledge_slave hc hw (hs.trans hj)

end Pair

end I8259
