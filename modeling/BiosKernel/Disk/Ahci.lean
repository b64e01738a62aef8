import BiosKernel.Disk.Driver
import Mathlib.Algebra.Group.Int.Defs
import Mathlib.Algebra.GroupWithZero.Nat
import Mathlib.Data.List.Chain

namespace BiosKernel.Ahci
open MachineInt
set_option autoImplicit true

/-- `PRDT_READ_SIZE_PER_ENTRY` and `PRDT_WRITE_SIZE_PER_ENTRY`. -/
def prdtSizePerEntry : Nat := 16 * sectorSize

structure HbaPrdtEntry where
  dba : Nat
  dbc : Nat
  i : Nat
  deriving DecidableEq

structure FisRegH2d where
  fisType : Nat
  c : Nat
  command : Nat
  lba0 : UInt8
  lba1 : UInt8
  lba2 : UInt8
  device : Nat
  lba3 : UInt8
  lba4 : UInt8
  lba5 : UInt8
  count : Nat
  deriving DecidableEq

/-- A command as it is issued: what is set in its header and in its table. -/
structure Command where
  cfl : Nat
  w : Nat
  prdtl : Nat
  prdtEntry : List HbaPrdtEntry
  cfis : FisRegH2d
  deriving DecidableEq

/-- What the two transfers set differently. A write leaves its last entry without an interrupt. -/
structure Direction where
  w : Nat
  command : Nat
  lastInterrupt : Nat
  deriving DecidableEq

/-- With `ATA_CMD_READ_DMA_EX`. -/
def reading : Direction := ⟨0, 0x25, 1⟩

/-- With `ATA_CMD_WRITE_DMA_EX`. -/
def writing : Direction := ⟨1, 0x35, 0⟩

/-- The loop over all entries but the last, with `buf` and `count_temp` behind it. -/
def prdtLoop : Nat → Nat → Int → List HbaPrdtEntry × Nat × Int
  | 0, buf, countTemp => ([], buf, countTemp)
  | n + 1, buf, countTemp =>
    let (entries, rest) := prdtLoop n (u64 (buf + prdtSizePerEntry))
      (countTemp - (prdtSizePerEntry / sectorSize : Nat))
    (⟨buf, prdtSizePerEntry - 1, 1⟩ :: entries, rest)

/-- `prdtl`, which is a `uint16_t`. -/
def prdtLength (count : Nat) : Nat :=
  u32 (count + prdtSizePerEntry / sectorSize - 1) / (prdtSizePerEntry / sectorSize) % 2 ^ 16

def fisRegH2d (d : Direction) (start count : Nat) : FisRegH2d where
  fisType := 0x27
  c := 1
  command := d.command
  lba0 := .ofNat start
  lba1 := .ofNat (start >>> 8)
  lba2 := .ofNat (start >>> 16)
  device := 1 <<< 6
  lba3 := .ofNat (start >>> 24)
  lba4 := .ofNat (start >>> 32)
  lba5 := .ofNat (start >>> 40)
  count := count % 2 ^ 16

/-- The command for one attempt, and `buf` as it stands behind it. A byte count has 22 bits. -/
def setupCommand (d : Direction) (start count buf : Nat) : Command × Nat :=
  let (entries, buf, countTemp) := prdtLoop (prdtLength count - 1) buf count
  let last : HbaPrdtEntry := ⟨buf, ((countTemp * 2 ^ 9 - 1) % 2 ^ 22).toNat, d.lastInterrupt⟩
  (⟨5, d.w, prdtLength count, entries ++ [last], fisRegH2d d start count⟩, buf)

/-- How the port answers an attempt. -/
inductive Attempt where
  | noSlot
  | completed
  | taskFileError
  | timeout
  deriving DecidableEq

/-- The commands issued and what is returned, none where the port has not answered yet. -/
structure Transfer where
  issued : List Command
  returned : Option Bool
  deriving DecidableEq

/-- `read_ahci` or `write_ahci`. After a time-out it calls itself with the `buf` it has moved. -/
def transfer (d : Direction) (start count : Nat) : Nat → List Attempt → Transfer
  | _, [] => ⟨[], none⟩
  | buf, attempt :: attempts =>
    match attempt with
    | .noSlot => ⟨[], some false⟩
    | .completed => ⟨[(setupCommand d start count buf).1], some true⟩
    | .taskFileError => ⟨[(setupCommand d start count buf).1], some false⟩
    | .timeout =>
      let (command, buf) := setupCommand d start count buf
      let rest := transfer d start count buf attempts
      ⟨command :: rest.issued, rest.returned⟩

def readAhci : Nat → Nat → Nat → List Attempt → Transfer := transfer reading

def writeAhci : Nat → Nat → Nat → List Attempt → Transfer := transfer writing

/-- The sector that the six bytes name. -/
def FisRegH2d.lba (fis : FisRegH2d) : Nat :=
  fis.lba0.toNat + fis.lba1.toNat * 2 ^ 8 + fis.lba2.toNat * 2 ^ 16 + fis.lba3.toNat * 2 ^ 24 +
    fis.lba4.toNat * 2 ^ 32 + fis.lba5.toNat * 2 ^ 40

/-- The entries of a command are the buffer `b`, and its address is the sector `start`. -/
structure Command.Describes (c : Command) (b start count : Nat) : Prop where
  length : c.prdtl = c.prdtEntry.length
  room : c.prdtEntry.length ≤ 8
  begins : c.prdtEntry.head?.map (·.dba) = some b
  contiguous : c.prdtEntry.IsChain fun e e' => e'.dba = u64 (e.dba + (e.dbc + 1))
  bytes : (c.prdtEntry.map (·.dbc + 1)).sum = sectorSize * count
  sector : c.cfis.lba = start

theorem prdtLoop_spec (n buf : Nat) (countTemp : Int) (hbuf : buf < 2 ^ 64) :
    (prdtLoop n buf countTemp).1.length = n ∧
    (prdtLoop n buf countTemp).2 = (u64 (buf + prdtSizePerEntry * n), countTemp - 16 * n) := by
  induction n generalizing buf countTemp with
  | zero =>
    refine ⟨rfl, ?_⟩
    simp only [prdtLoop, u64]
    rw [Prod.mk.injEq]
    omega
  | succ n ih =>
    obtain ⟨hlen, hrest⟩ := ih (u64 (buf + prdtSizePerEntry))
      (countTemp - (prdtSizePerEntry / sectorSize : Nat)) (u64_lt _)
    refine ⟨congrArg (· + 1) hlen, hrest.trans ?_⟩
    rw [Prod.mk.injEq, u64, u64, u64, prdtSizePerEntry, sectorSize]
    omega

theorem prdtLoop_entries (n buf : Nat) (countTemp : Int) (dbc i : Nat) :
    let entries := (prdtLoop n buf countTemp).1 ++ [⟨(prdtLoop n buf countTemp).2.1, dbc, i⟩]
    entries.head?.map (·.dba) = some buf ∧
    (entries.IsChain fun e e' => e'.dba = u64 (e.dba + (e.dbc + 1))) ∧
    (entries.map (·.dbc + 1)).sum = prdtSizePerEntry * n + (dbc + 1) := by
  induction n generalizing buf countTemp with
  | zero => exact ⟨rfl, .singleton _, by simp [prdtLoop]⟩
  | succ n ih =>
    obtain ⟨hhead, hchain, hsum⟩ := ih (u64 (buf + prdtSizePerEntry))
      (countTemp - (prdtSizePerEntry / sectorSize : Nat))
    refine ⟨rfl, List.isChain_cons.mpr ⟨fun e he => ?_, hchain⟩, ?_⟩
    · obtain ⟨f, hf, hdba⟩ := Option.map_eq_some_iff.mp hhead
      cases Option.some.inj (he.symm.trans hf)
      exact hdba
    · rw [prdtLoop, List.cons_append, List.map_cons, List.sum_cons]
      rw [hsum]
      simp only [prdtSizePerEntry, sectorSize]
      omega

theorem lba_fisRegH2d (d : Direction) (start count : Nat) :
    (fisRegH2d d start count).lba = start % 2 ^ 48 := by
  simp only [FisRegH2d.lba, fisRegH2d, UInt8.toNat_ofNat', Nat.shiftRight_eq_div_pow]
  omega

section Command

variable (d : Direction) (start : Nat) (hcount : 1 ≤ count ∧ count ≤ 128) (hbuf : buf < 2 ^ 64)
include hcount

theorem prdtLength_eq : prdtLength count = (count - 1) / 16 + 1 := by
  have hentry : prdtSizePerEntry / sectorSize = 16 := rfl
  rw [prdtLength, hentry, u32]
  omega

include hbuf

/-- An attempt leaves `buf` at its last entry. -/
theorem setupCommand_buf : (setupCommand d start count buf).2 =
    u64 (buf + prdtSizePerEntry * ((count - 1) / 16)) := by
  have hrest := (prdtLoop_spec (prdtLength count - 1) buf count hbuf).2
  rw [prdtLength_eq hcount, Nat.add_sub_cancel] at hrest
  rw [setupCommand, prdtLength_eq hcount, Nat.add_sub_cancel]
  exact congrArg Prod.fst hrest

/-- The command of an attempt describes the buffer at `buf`, which need not be the caller's. -/
theorem setupCommand_describes :
    (setupCommand d start count buf).1.Describes buf (start % 2 ^ 48) count := by
  obtain ⟨hlen, hrest⟩ := prdtLoop_spec (prdtLength count - 1) buf count hbuf
  have hlength := prdtLength_eq hcount
  obtain ⟨hhead, hchain, hsum⟩ := prdtLoop_entries (prdtLength count - 1) buf count
    (((prdtLoop (prdtLength count - 1) buf count).2.2 * 2 ^ 9 - 1) % 2 ^ 22).toNat d.lastInterrupt
  refine ⟨?_, ?_, hhead, hchain, hsum.trans ?_, lba_fisRegH2d d start count⟩
  · show prdtLength count = (_ ++ [_]).length
    rw [List.length_append, hlen, List.length_singleton]
    omega
  · show (_ ++ [_]).length ≤ 8
    rw [List.length_append, hlen, List.length_singleton]
    omega
  · rw [hrest, prdtSizePerEntry, sectorSize]
    omega

/-- Each time-out moves the buffer on. -/
theorem transfer_last (k : Nat) :
    (transfer d start count buf (List.replicate k .timeout ++ [.completed])).issued.getLast? =
      some (setupCommand d start count
        (u64 (buf + prdtSizePerEntry * ((count - 1) / 16 * k)))).1 := by
  induction k generalizing buf with
  | zero =>
    have hself : u64 (buf + prdtSizePerEntry * ((count - 1) / 16 * 0)) = buf :=
      Nat.mod_eq_of_lt hbuf
    rw [hself]
    rfl
  | succ k ih =>
    have hmoved := setupCommand_buf d start hcount hbuf
    have hlast := ih (u64_lt (buf + prdtSizePerEntry * ((count - 1) / 16)))
    rw [List.replicate_succ, List.cons_append, transfer]
    dsimp only
    rw [hmoved, List.getLast?_cons, hlast, Option.getD_some]
    congr 3
    rw [u64, u64, u64, Nat.mul_succ]
    generalize (count - 1) / 16 * k = moved
    generalize (count - 1) / 16 = n
    rw [prdtSizePerEntry, sectorSize]
    omega

end Command

/-- The command that completes after `k` time-outs is one for the caller's buffer. -/
def DescribesFinally (io : Nat → Nat → Nat → List Attempt → Transfer) (b start count k : Nat) :
    Prop :=
  ∃ c, (io start count b (List.replicate k .timeout ++ [.completed])).issued.getLast? = some c ∧
    c.Describes b start count

theorem transfer_describes_iff (d : Direction) (start : Nat) (hcount : 1 ≤ count ∧ count ≤ 128)
    (hb : b < 2 ^ 64) (k : Nat) : DescribesFinally (transfer d) b start count k ↔
      start < 2 ^ 48 ∧ (count - 1) / 16 * k % 2 ^ 51 = 0 := by
  have hlast := transfer_last d start hcount hb k
  have hmoved : u64 (b + prdtSizePerEntry * ((count - 1) / 16 * k)) = b ↔
      (count - 1) / 16 * k % 2 ^ 51 = 0 := by
    rw [u64, prdtSizePerEntry, sectorSize]
    omega
  have hdescribes := setupCommand_describes d start hcount
    (u64_lt (b + prdtSizePerEntry * ((count - 1) / 16 * k)))
  constructor
  · rintro ⟨c, hc, h⟩
    cases Option.some.inj (hlast.symm.trans hc)
    refine ⟨?_, hmoved.mp (Option.some.inj (hdescribes.begins.symm.trans h.begins))⟩
    have hsector : start % 2 ^ 48 = start := hdescribes.sector.symm.trans h.sector
    omega
  · rintro ⟨hstart, hk⟩
    rw [hmoved.mpr hk] at hlast hdescribes
    rw [Nat.mod_eq_of_lt hstart] at hdescribes
    exact ⟨_, hlast, hdescribes⟩

/-- A transfer is described right exactly where no time-out has moved the buffer: where one entry is
enough, or there has been none. More than `2 ^ 48` time-outs would bring the address round. -/
theorem describesFinally_iff (start : Nat) (hcount : 1 ≤ count ∧ count ≤ 128) (hb : b < 2 ^ 64)
    (k : Nat) :
    (DescribesFinally readAhci b start count k ↔
      start < 2 ^ 48 ∧ (count - 1) / 16 * k % 2 ^ 51 = 0) ∧
    (DescribesFinally writeAhci b start count k ↔
      start < 2 ^ 48 ∧ (count - 1) / 16 * k % 2 ^ 51 = 0) :=
  ⟨transfer_describes_iff reading start hcount hb k,
    transfer_describes_iff writing start hcount hb k⟩

/-- 16 sectors after three time-outs, and 128 sectors without one. -/
theorem describesFinally_first :
    (DescribesFinally readAhci 0x100000 7 16 3 ∧ DescribesFinally writeAhci 0x100000 7 16 3) ∧
    DescribesFinally readAhci 0x100000 7 128 0 ∧ DescribesFinally writeAhci 0x100000 7 128 0 := by
  have hone := @describesFinally_iff 16 0x100000 7 (by decide) (by decide) 3
  have hmany := @describesFinally_iff 128 0x100000 7 (by decide) (by decide) 0
  exact ⟨⟨hone.1.mpr (by decide), hone.2.mpr (by decide)⟩, hmany.1.mpr (by decide),
    hmany.2.mpr (by decide)⟩

/-- 32 sectors after one time-out: the first entry is 8 KiB behind the buffer. -/
theorem retry_moves_buffer :
    ((readAhci 7 32 0x100000 [.timeout, .completed]).issued.getLast?.map
      (·.prdtEntry.map fun e => (e.dba, e.dbc + 1))) =
        some [(0x102000, 0x2000), (0x104000, 0x2000)] ∧
    ¬ DescribesFinally readAhci 0x100000 7 32 1 ∧ ¬ DescribesFinally writeAhci 0x100000 7 32 1 := by
  refine ⟨by decide, ?_, ?_⟩
  · rintro ⟨c, hc, h⟩
    cases hc
    exact absurd h.begins (by decide)
  · rintro ⟨c, hc, h⟩
    cases hc
    exact absurd h.begins (by decide)

end BiosKernel.Ahci
