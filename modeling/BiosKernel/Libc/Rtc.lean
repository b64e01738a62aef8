import BiosKernel.Lib.DoubleRead
import BiosKernel.Libc.Time

namespace BiosKernel
open DoubleRead MachineInt
set_option autoImplicit true

/-- The registers of the clock chip by their numbers. -/
abbrev Cmos := Nat → BitVec 8

/-- The variables that `read_rtc` fills. -/
structure RtcDate where
  (second minute hour day month year : Nat)
  deriving DecidableEq

/-- The registers that `read_rtc` reads, in their order. No code sets `century_register`, so it
reads no century. -/
def rtcRegisters : List Nat := [0x00, 0x02, 0x04, 0x07, 0x08, 0x09]

def getRtcRegister (reg : Nat) (cmos : Cmos) : Nat := (cmos reg).toNat

def currentYear : Nat := 2024

/-- A number of two decimal digits. -/
def bcdToBinary (n : Nat) : Nat := (n &&& 0x0F) + n / 16 * 10

/-- `Convert BCD to binary values if necessary`, for the variables of one byte but the hour. -/
def toBinary (registerB n : Nat) : Nat := if registerB &&& 0x04 = 0 then u8 (bcdToBinary n) else n

def hourToBinary (registerB hour : Nat) : Nat :=
  if registerB &&& 0x04 = 0 then
    u8 ((hour &&& 0x0F) + (hour &&& 0x70) / 16 * 10 ||| hour &&& 0x80)
  else hour

def yearToBinary (registerB year : Nat) : Nat :=
  if registerB &&& 0x04 = 0 then bcdToBinary year else year

/-- `Convert 12-hour clock to 24-hour clock if necessary`. -/
def to24Hours (registerB hour : Nat) : Nat :=
  if registerB &&& 0x02 = 0 ∧ hour &&& 0x80 ≠ 0 then ((hour &&& 0x7F) + 12) % 24 else hour

/-- `Calculate the full (4-digit) year`. -/
def fullYear (year : Nat) : Nat :=
  let year := year + currentYear / 100 * 100
  if year < currentYear then year + 100 else year

/-- `s` is what the chip shows at each access, and whether an update is in progress. The numbers
bound the accesses of each wait and the passes over the registers, and count the accesses. -/
def readRtc (s : Nat → Sample Cmos) (wait passes t : Nat) : Option RtcDate :=
  (read s (rtcRegisters.map getRtcRegister) wait passes t).bind fun
    | ([second, minute, hour, day, month, year], t) =>
      let registerB := getRtcRegister 0x0B (s t).value
      some
        { second := toBinary registerB second
          minute := toBinary registerB minute
          hour := to24Hours registerB (hourToBinary registerB hour)
          day := toBinary registerB day
          month := toBinary registerB month
          year := fullYear (yearToBinary registerB year) }
    | _ => none

/-- How the chip is set up: numbers in binary or in decimal digits, and hours to 24 or to 12. -/
structure RtcMode where
  binary : Bool
  hours24 : Bool
  deriving DecidableEq

namespace RtcMode

def registerB (m : RtcMode) : Nat := (if m.binary then 0x04 else 0) + if m.hours24 then 0x02 else 0

def number (m : RtcMode) (n : Nat) : Nat := if m.binary then n else n / 10 * 16 + n % 10

/-- With 12 hours, those of the afternoon have the highest bit. -/
def hour (m : RtcMode) (h : Nat) : Nat :=
  if m.hours24 then m.number h
  else m.number (if h % 12 = 0 then 12 else h % 12) + if 12 ≤ h then 0x80 else 0

/-- What the registers that `read_rtc` reads hold at a date. -/
def dateRegisters (m : RtcMode) (c : Clock) : List Nat :=
  [m.number c.second, m.number c.minute, m.hour c.hour, m.number c.day, m.number c.month,
    m.number (c.year % 100)]

/-- The chip shows a date. Its other registers hold anything. -/
def Shows (m : RtcMode) (c : Clock) (cmos : Cmos) : Prop :=
  (rtcRegisters.map fun reg => getRtcRegister reg cmos) = m.dateRegisters c

instance (m : RtcMode) (c : Clock) (cmos : Cmos) : Decidable (m.Shows c cmos) :=
  inferInstanceAs (Decidable (_ = _))

/-- Register B has the two bits of the mode. Its other bits are anything. -/
structure SetUp (m : RtcMode) (cmos : Cmos) : Prop where
  binary : getRtcRegister 0x0B cmos &&& 0x04 = m.registerB &&& 0x04
  hours24 : getRtcRegister 0x0B cmos &&& 0x02 = m.registerB &&& 0x02

theorem SetUp.toBinary (h : SetUp m cmos) (n : Nat) :
    toBinary (getRtcRegister 0x0B cmos) n = BiosKernel.toBinary m.registerB n ∧
      yearToBinary (getRtcRegister 0x0B cmos) n = yearToBinary m.registerB n := by
  rw [BiosKernel.toBinary, BiosKernel.toBinary, yearToBinary, yearToBinary, h.binary]
  exact ⟨rfl, rfl⟩

theorem SetUp.to24Hours (h : SetUp m cmos) (n : Nat) :
    to24Hours (getRtcRegister 0x0B cmos) (hourToBinary (getRtcRegister 0x0B cmos) n) =
      BiosKernel.to24Hours m.registerB (hourToBinary m.registerB n) := by
  rw [BiosKernel.to24Hours, BiosKernel.to24Hours, hourToBinary, hourToBinary, h.binary, h.hours24]

theorem toBinary_number (m : RtcMode) (hn : n < 100) :
    toBinary m.registerB (m.number n) = n ∧ yearToBinary m.registerB (m.number n) = n := by
  have hall : ∀ binary hours24 : Bool, ∀ n < 100,
      toBinary (registerB ⟨binary, hours24⟩) (number ⟨binary, hours24⟩ n) = n ∧
        yearToBinary (registerB ⟨binary, hours24⟩) (number ⟨binary, hours24⟩ n) = n := by decide
  exact hall m.binary m.hours24 n hn

/-- The hours that `read_rtc` makes of those that the chip shows. With 12 hours, midnight is noon
and noon is midnight. -/
def hourRead (m : RtcMode) (h : Nat) : Nat := if m.hours24 ∨ h % 12 ≠ 0 then h else 12 - h

theorem to24Hours_hour (m : RtcMode) (hh : h < 24) :
    to24Hours m.registerB (hourToBinary m.registerB (m.hour h)) = m.hourRead h := by
  have hall : ∀ binary hours24 : Bool, ∀ h < 24,
      to24Hours (registerB ⟨binary, hours24⟩) (hourToBinary (registerB ⟨binary, hours24⟩)
        (hour ⟨binary, hours24⟩ h)) = hourRead ⟨binary, hours24⟩ h := by
    decide
  exact hall m.binary m.hours24 h hh

theorem fullYear_mod (hy : 2024 ≤ year) (hy' : year ≤ 2123) : fullYear (year % 100) = year := by
  rw [fullYear, currentYear]
  split <;> omega

/-- The variables for the registers that the chip shows at a date. -/
def dateRead (m : RtcMode) (c : Clock) : RtcDate :=
  { second := c.second, minute := c.minute, hour := m.hourRead c.hour, day := c.day
    month := c.month, year := c.year }

end RtcMode

/-- `read_rtc` returns after four passes over the registers at most, if the chip updates them once
at most meanwhile, and whatever it shows while it does. The variables are those of one date that the
chip has shown, but for noon and midnight on a clock of 12 hours. -/
theorem readRtc_returns {s : Nat → Sample Cmos} (m : RtcMode)
    (h : Once s (rtcRegisters.map getRtcRegister) t hi len) (hhi : t + 4 * (len + 7) ≤ hi)
    (hw : len < wait) (hmode : ∀ k, m.SetUp (s k).value)
    (hshows : ∀ k, (s k).busy = false →
      ∃ c : Clock, 2024 ≤ c.year ∧ c.year ≤ 2123 ∧ m.Shows c (s k).value) :
    ∃ k c, t ≤ k ∧ k < hi ∧ (s k).busy = false ∧ m.Shows c (s k).value ∧
      readRtc s wait (n + 3) t = some (m.dateRead c) := by
  obtain ⟨v, e, hread, he, k, hk, hke, hidle, hv⟩ := h.read_returns n (Nat.le_refl t) hhi hw
  obtain ⟨c, hy, hy', hc⟩ := hshows k hidle
  refine ⟨k, c, hk, by omega, hidle, hc, ?_⟩
  have hday : c.day < 100 := by
    have hle := Nat.le_trans c.day_le (Calendar.monthLength_le _ _)
    omega
  have hsecond := c.second_lt
  have hminute := c.minute_lt
  have hmonth := c.month_le
  rw [List.map_map] at hv
  rw [readRtc, hread, hv.trans hc]
  simp only [RtcMode.dateRegisters, Option.bind_some, (hmode e).to24Hours,
    ((hmode e).toBinary _).1, ((hmode e).toBinary _).2, m.to24Hours_hour c.hour_lt,
    (m.toBinary_number (by omega : c.second < 100)).1,
    (m.toBinary_number (by omega : c.minute < 100)).1, (m.toBinary_number hday).1,
    (m.toBinary_number (by omega : c.month < 100)).1,
    (m.toBinary_number (by omega : c.year % 100 < 100)).2, RtcMode.fullYear_mod hy hy']
  rfl

def newYearsEve : Clock where
  second := 59
  minute := 59
  hour := 23
  day := 31
  month := 12
  year := 2025
  second_lt := by decide
  minute_lt := by decide
  hour_lt := by decide
  day_pos := by decide
  day_le := by decide
  month_pos := by decide
  month_le := by decide
  year_lt := by decide

def newYear : Clock where
  second := 0
  minute := 0
  hour := 0
  day := 1
  month := 1
  year := 2026
  second_lt := by decide
  minute_lt := by decide
  hour_lt := by decide
  day_pos := by decide
  day_le := by decide
  month_pos := by decide
  month_le := by decide
  year_lt := by decide

/-- A chip that is set to 24 hours and decimal digits, with an alarm and interrupts. -/
def chipAt (c : Clock) : Cmos := fun reg => BitVec.ofNat 8 <|
  let m : RtcMode := ⟨false, true⟩
  match reg with
  | 0x00 => m.number c.second
  | 0x02 => m.number c.minute
  | 0x04 => m.hour c.hour
  | 0x06 => 7
  | 0x07 => m.number c.day
  | 0x08 => m.number c.month
  | 0x09 => m.number (c.year % 100)
  | 0x0A => 0x26
  | 0x0B => 0x52
  | 0x0D => 0x80
  | _ => 0

/-- The year ends between the third register and the fourth. -/
def turnOfYear (k : Nat) : Sample Cmos :=
  ⟨chipAt (if k < 4 then newYearsEve else newYear), 4 ≤ k ∧ k < 6⟩

def turnOfYear_once : Once turnOfYear (rtcRegisters.map getRtcRegister) 0 40 2 where
  before := chipAt newYearsEve
  after := chipAt newYear
  start := 4
  stop := 6
  start_le := by decide
  stop_le := by decide
  shows_before k _ hk _ := by
    rw [Shows, turnOfYear, if_pos hk, decide_eq_false (by omega)]
    exact ⟨rfl, fun _ _ => rfl⟩
  busy k _ hk hk' _ := decide_eq_true ⟨hk, hk'⟩
  shows_after k _ hk _ := by
    rw [Shows, turnOfYear, if_neg (by omega), decide_eq_false (by omega)]
    exact ⟨rfl, fun _ _ => rfl⟩

/-- The hour of the old year is not mixed with the day of the new one. -/
theorem readRtc_returns_turnOfYear : ∃ c,
    readRtc turnOfYear 3 3 0 = some (RtcMode.dateRead ⟨false, true⟩ c) := by
  have hshows (k : Nat) (_ : (turnOfYear k).busy = false) : ∃ c : Clock,
      2024 ≤ c.year ∧ c.year ≤ 2123 ∧ RtcMode.Shows ⟨false, true⟩ c (turnOfYear k).value := by
    have hold : RtcMode.Shows ⟨false, true⟩ newYearsEve (chipAt newYearsEve) := by decide +kernel
    have hnew : RtcMode.Shows ⟨false, true⟩ newYear (chipAt newYear) := by decide +kernel
    refine ⟨if k < 4 then newYearsEve else newYear, ?_⟩
    rw [turnOfYear]
    split
    · exact ⟨by decide, by decide, hold⟩
    · exact ⟨by decide, by decide, hnew⟩
  have hmode (k : Nat) : RtcMode.SetUp ⟨false, true⟩ (turnOfYear k).value := by
    have hB (c : Clock) : getRtcRegister 0x0B (chipAt c) = 0x52 := rfl
    constructor
    · rw [turnOfYear, hB]
      decide
    · rw [turnOfYear, hB]
      decide
  obtain ⟨_, c, -, -, -, -, h⟩ := readRtc_returns (n := 0) ⟨false, true⟩ turnOfYear_once
    (by decide) (by decide : 2 < 3) hmode hshows
  exact ⟨c, h⟩

end BiosKernel
