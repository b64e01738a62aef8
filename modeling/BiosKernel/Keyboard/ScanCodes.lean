import BiosKernel.Keyboard.Buffer
import BiosKernel.Lib.MachineInt
import Mathlib.Data.List.Chain

namespace BiosKernel
open MachineInt
set_option autoImplicit true

/-- `keyboard_state`. -/
structure KeyboardState where
  (caps lshift lctrl lalt altgr rctrl rshift : Bool)
  ext : Bool
  (up down left right : Bool)

namespace KeyboardState

def released : KeyboardState where
  caps := false
  lshift := false
  lctrl := false
  lalt := false
  altgr := false
  rctrl := false
  rshift := false
  ext := false
  up := false
  down := false
  left := false
  right := false

/-- The second byte of an extended key: the flag of the key is set if the prefix was there, and the
prefix is used up. -/
def extended (ks : KeyboardState) (set : KeyboardState → KeyboardState) : KeyboardState :=
  { if ks.ext then set ks else ks with ext := false }

def specialKeyPress (ks : KeyboardState) (scanCode : UInt8) : KeyboardState :=
  match scanCode with
  | 0x3A => { ks with caps := !ks.caps }
  | 0x2A => { ks with lshift := true }
  | 0xAA => { ks with lshift := false }
  | 0x1D => { ks with lctrl := true }
  | 0x9D => { ks with lctrl := false, rctrl := false }
  | 0x38 => { ks with lalt := true }
  | 0xB8 => { ks with lalt := false, altgr := false }
  | 0xE0 => { ks with ext := true }
  | 0x3B => ks.extended ({ · with rctrl := true })
  | 0xBB => ks.extended ({ · with rctrl := false })
  | 0x36 => { ks with rshift := true }
  | 0xB6 => { ks with rshift := false }
  | 0x48 => ks.extended ({ · with up := true })
  | 0xC8 => ks.extended ({ · with up := false })
  | 0x4B => ks.extended ({ · with left := true })
  | 0xCB => ks.extended ({ · with left := false })
  | 0x4D => ks.extended ({ · with right := true })
  | 0xCD => ks.extended ({ · with right := false })
  | 0x50 => ks.extended ({ · with down := true })
  | 0xD0 => ks.extended ({ · with down := false })
  | _ => ks

def cursor (ks : KeyboardState) : Bool := ks.up || ks.left || ks.down || ks.right

def shift (ks : KeyboardState) : Bool := ks.lshift || ks.rshift

def ctrl (ks : KeyboardState) : Bool := ks.lctrl || ks.rctrl

def alt (ks : KeyboardState) : Bool := ks.lalt || ks.altgr

end KeyboardState

/-- The characters of the scan codes from 0 to 0x53, without and with shift. -/
def scs1Keys : List (Char × Char) :=
  [('\x00', '\x00'), ('\x1b', '\x1b'), ('1', '!'), ('2', '@'), ('3', '#'), ('4', '$'), ('5', '%'),
    ('6', '^'), ('7', '&'), ('8', '*'), ('9', '('), ('0', ')'), ('-', '_'), ('=', '+'),
    ('\x08', '\x08'), ('\t', '\t'), ('q', 'Q'), ('w', 'W'), ('e', 'E'), ('r', 'R'), ('t', 'T'),
    ('y', 'Y'), ('u', 'U'), ('i', 'I'), ('o', 'O'), ('p', 'P'), ('[', '\x7b'), (']', '\x7d'),
    ('\n', '\n'), ('\x00', '\x00'), ('a', 'A'), ('s', 'S'), ('d', 'D'), ('f', 'F'), ('g', 'G'),
    ('h', 'H'), ('j', 'J'), ('k', 'K'), ('l', 'L'), (';', ':'), ('\x27', '\x22'), ('\x60', '~'),
    ('\x00', '\x00'), ('\\', '|'), ('z', 'Z'), ('x', 'X'), ('c', 'C'), ('v', 'V'), ('b', 'B'),
    ('n', 'N'), ('m', 'M'), (',', '<'), ('.', '>'), ('/', '?'), ('\x00', '\x00'), ('*', '*'),
    ('\x00', '\x00'), (' ', ' '), ('\x00', '\x00'), ('\x00', '\x00'), ('\x00', '\x00'),
    ('\x00', '\x00'), ('\x00', '\x00'), ('\x00', '\x00'), ('\x00', '\x00'), ('\x00', '\x00'),
    ('\x00', '\x00'), ('\x00', '\x00'), ('\x00', '\x00'), ('\x00', '\x00'), ('\x00', '\x00'),
    ('7', '7'), ('8', '8'), ('9', '9'), ('-', '-'), ('4', '4'), ('5', '5'), ('6', '6'), ('+', '+'),
    ('1', '1'), ('2', '2'), ('3', '3'), ('0', '0'), ('.', '.')]

/-- Caps lock acts on the letters, shift on all keys. -/
def scs1ToAscii (scanCode : UInt8) (shift caps : Bool) : UInt8 :=
  let (lower, upper) := scs1Keys.getD scanCode.toNat ('\x00', '\x00')
  UInt8.ofNat (if shift || caps && lower.isLower then upper else lower).toNat

def isSpecialChar (c : UInt8) : Bool :=
  c = 8 ∨ c = 13 ∨ c = 0x1B ∨ c = 9 ∨ c = 10 ∨ signed8 c = eof ∨ c = 0

namespace Keyboard

/-- The loop of `clear_trailing_space` from below an index on. -/
def clearSpaceLoop : Nat → Keyboard → Nat × Keyboard
  | 0, k => (0, k)
  | i + 1, k =>
    if k.buffer i = 32 then
      let (cnt, k) := clearSpaceLoop i (k.bufferPutC backspace).1
      (cnt + 1, k)
    else (0, k)

def clearTrailingSpace (k : Keyboard) (start : Int) : Nat × Keyboard :=
  if start ≤ 0 then (0, k) else clearSpaceLoop start.toNat k

/-- The loop that puts a backspace for each character of the word below an index: how far it has
come. -/
def clearWordLoop : Nat → Keyboard → Int × Keyboard
  | 0, k => (-1, k)
  | i + 1, k =>
    if k.buffer i ≠ 32 then
      clearWordLoop i (if isSpecialChar (k.buffer i) then k else (k.bufferPutC backspace).1)
    else (i, k)

/-- Ctrl+Backspace and Ctrl+w. -/
def clearWord (k : Keyboard) : Keyboard :=
  let start := int32 k.bufferHead
  let (tspaces, k) := k.clearTrailingSpace start
  let start := start - tspaces - 1
  if start < 0 then k
  else
    let (start, k) := clearWordLoop (start.toNat + 1) k
    (k.clearTrailingSpace start).2

end Keyboard

/-- The keyboard with the state of its keys. -/
structure KeyInput where
  keyboard : Keyboard
  ks : KeyboardState

namespace KeyInput

/-- As the source initialises it. -/
def start : KeyInput := ⟨.empty, .released⟩

def bufferPut (s : KeyInput) (scanCode : UInt8) : KeyInput :=
  let ks := s.ks.specialKeyPress scanCode
  if ks.ext || ks.cursor then { s with ks }
  else
    let uc := scs1ToAscii scanCode ks.shift ks.caps
    if ks.ctrl && !ks.shift && (uc = backspace || uc = 0x0C || uc = 119) then
      { keyboard := if uc = backspace || uc = 119 then s.keyboard.clearWord else s.keyboard, ks }
    else if ks.ctrl || ks.alt then { s with ks }
    else { keyboard := if uc ≠ 0 then (s.keyboard.bufferPutC uc).1 else s.keyboard, ks }

def bufferIsEmpty (s : KeyInput) : Bool :=
  s.keyboard.bufferHead = s.keyboard.bufferTail && !s.ks.cursor

/-- The key that `wait_key` returns when the buffer is empty, and is not pending any more. -/
def takeCursor (ks : KeyboardState) : KeyboardState :=
  if ks.up then { ks with up := false }
  else if ks.down then { ks with down := false }
  else if ks.left then { ks with left := false }
  else if ks.right then { ks with right := false }
  else ks

/-- One look of `wait_key` at the buffer: it goes on waiting, or takes what is there. -/
def look (s : KeyInput) : KeyInput :=
  if s.bufferIsEmpty then s
  else
    let (c, keyboard, _) := s.keyboard.bufferGet
    { keyboard, ks := if c ≠ eof then s.ks else takeCursor s.ks }

end KeyInput

inductive KeyEvent where
  | scan (code : UInt8)
  | look

def scanCodes : List KeyEvent → List UInt8
  | [] => []
  | .scan code :: es => code :: scanCodes es
  | .look :: es => scanCodes es

/-- The codes for which `special_key_press` takes the prefix back. -/
def extCodes : List UInt8 := [0x3B, 0xBB, 0x48, 0xC8, 0x4B, 0xCB, 0x4D, 0xCD, 0x50, 0xD0]

namespace KeyboardState

/-- No modifier is held and no cursor key is pending. -/
def Idle (ks : KeyboardState) : Prop :=
  ks.shift = false ∧ ks.ctrl = false ∧ ks.alt = false ∧ ks.cursor = false

instance (ks : KeyboardState) : Decidable ks.Idle := inferInstanceAs (Decidable (_ ∧ _ ∧ _ ∧ _))

theorem specialKeyPress_ext (ks : KeyboardState) (code : UInt8) :
    (ks.specialKeyPress code).ext =
      if code = 0xE0 then true else if code ∈ extCodes then false else ks.ext := by
  rw [specialKeyPress.eq_def]
  split
  case h_21 => simp_all [extCodes]
  all_goals rfl

theorem specialKeyPress_plain {ks : KeyboardState} (h : ks.ext = false)
    (hcode : scs1ToAscii code false ks.caps ≠ 0) : ks.specialKeyPress code = ks := by
  obtain ⟨lock, _, _, _, _, _, _, _, _, _, _, _⟩ := ks
  cases h
  have hnone : ∀ lock, ∀ code ∈ ([0x3A, 0x2A, 0xAA, 0x1D, 0x9D, 0x38, 0xB8, 0xE0, 0x3B, 0xBB, 0x36,
      0xB6, 0xC8, 0xCB, 0xCD, 0xD0] : List UInt8), scs1ToAscii code false lock = 0 := by
    decide +kernel
  rw [specialKeyPress.eq_def]
  split
  all_goals first | rfl | exact absurd (hnone lock _ (by decide)) hcode

end KeyboardState

namespace KeyInput

theorem bufferPut_ks (s : KeyInput) (code : UInt8) :
    (s.bufferPut code).ks = s.ks.specialKeyPress code := by
  simp only [bufferPut]
  repeat' split
  all_goals rfl

theorem takeCursor_ext (ks : KeyboardState) : (takeCursor ks).ext = ks.ext := by
  rw [takeCursor]
  repeat' split
  all_goals rfl

theorem look_ext (s : KeyInput) : s.look.ks.ext = s.ks.ext := by
  rw [look]
  split
  · rfl
  · dsimp only
    split
    · rfl
    · exact takeCursor_ext s.ks

theorem bufferPut_plain {s : KeyInput} (h : s.ks.ext = false) (hidle : s.ks.Idle)
    (hcode : scs1ToAscii code false s.ks.caps ≠ 0) :
    (s.bufferPut code).keyboard =
      (s.keyboard.bufferPutC (scs1ToAscii code false s.ks.caps)).1 := by
  obtain ⟨hshift, hctrl, halt, hcursor⟩ := hidle
  simp only [bufferPut, KeyboardState.specialKeyPress_plain h hcode, h, hshift, hctrl, halt,
    hcursor, Bool.or_false, Bool.false_and, Bool.false_eq_true, if_false, if_pos hcode]

/-- What the prefix should do at a scan code, with the code before it: the flag is set behind it
only, and a plain key that comes without it is put in the buffer. -/
def PrefixAt (s : KeyInput) (last : Option UInt8) (code : UInt8) : Prop :=
  ((s.bufferPut code).ks.ext = true ↔ code = 0xE0) ∧
    (last ≠ some 0xE0 → s.ks.Idle → scs1ToAscii code false s.ks.caps ≠ 0 →
      (s.bufferPut code).keyboard =
        (s.keyboard.bufferPutC (scs1ToAscii code false s.ks.caps)).1)

/-- It does so at every scan code. -/
def PrefixOnce : KeyInput → Option UInt8 → List KeyEvent → Prop
  | _, _, [] => True
  | s, last, .scan code :: es => s.PrefixAt last code ∧ PrefixOnce (s.bufferPut code) (some code) es
  | s, last, .look :: es => PrefixOnce s.look last es

/-- A code behind the prefix is one that takes it back, or the prefix again. -/
def Answers (code next : UInt8) : Prop := code = 0xE0 → next = 0xE0 ∨ next ∈ extCodes

theorem prefixAt_iff {s : KeyInput} (h : s.ks.ext = true ↔ last = some 0xE0) (code : UInt8) :
    s.PrefixAt last code ↔ (last = some 0xE0 → code = 0xE0 ∨ code ∈ extCodes) := by
  have hext := s.ks.specialKeyPress_ext code
  rw [PrefixAt, bufferPut_ks, hext]
  constructor
  · rintro ⟨hflag, -⟩ hlast
    by_cases h0 : code = 0xE0
    · exact .inl h0
    · by_cases hmem : code ∈ extCodes
      · exact .inr hmem
      · rw [if_neg h0, if_neg hmem] at hflag
        exact absurd (hflag.mp (h.mpr hlast)) h0
  · intro hanswer
    refine ⟨?_, ?_⟩
    · by_cases h0 : code = 0xE0
      · simp [h0]
      · by_cases hmem : code ∈ extCodes
        · simp [h0, hmem]
        · have hlast : last ≠ some 0xE0 := fun hlast => (hanswer hlast).elim h0 hmem
          simp [h0, hmem, mt h.mp hlast]
    · intro hlast hidle hcode
      exact bufferPut_plain (Bool.eq_false_iff.mpr (mt h.mp hlast)) hidle hcode

theorem isChain_answers_iff (last : Option UInt8) (code : UInt8) (codes : List UInt8) :
    (last.toList ++ code :: codes).IsChain Answers ↔
      (last = some 0xE0 → code = 0xE0 ∨ code ∈ extCodes) ∧ (code :: codes).IsChain Answers := by
  cases last with
  | none => simp
  | some a => simp [Answers]

theorem prefixOnce_iff_isChain {s : KeyInput} (h : s.ks.ext = true ↔ last = some 0xE0)
    (es : List KeyEvent) :
    s.PrefixOnce last es ↔ (last.toList ++ scanCodes es).IsChain Answers := by
  induction es generalizing s last with
  | nil =>
    rw [PrefixOnce, scanCodes, List.append_nil]
    cases last <;> simp
  | cons e es ih =>
    cases e with
    | look => exact ih (by rw [look_ext]; exact h)
    | scan code =>
      rw [PrefixOnce, prefixAt_iff h, scanCodes, isChain_answers_iff]
      refine and_congr_right fun hanswer => ?_
      have hflag := ((prefixAt_iff h code).mpr hanswer).1
      exact ih (hflag.trans ⟨congrArg some, Option.some.inj⟩)

/-- From the start on, the prefix affects only the next scan code exactly if every code behind it is
one that takes it back. -/
theorem prefixOnce_iff (es : List KeyEvent) :
    start.PrefixOnce none es ↔ (scanCodes es).IsChain Answers :=
  prefixOnce_iff_isChain (by decide) es

/-- The right Ctrl key is pressed and released, as E0 1D and E0 9D: the `a` behind it is lost. -/
theorem key_swallowed :
    let s := (((start.bufferPut 0xE0).bufferPut 0x1D).bufferPut 0xE0).bufferPut 0x9D
    (s.ks.ext = true ∧ s.ks.Idle ∧ scs1ToAscii 0x1E false s.ks.caps = 97 ∧
      (s.bufferPut 0x1E).keyboard.bufferHead = s.keyboard.bufferHead) ∧
    ¬start.PrefixOnce none [.scan 0xE0, .scan 0x1D, .scan 0xE0, .scan 0x9D, .scan 0x1E] := by
  intro s
  refine ⟨by decide +kernel, ?_⟩
  rintro ⟨-, ⟨hflag, -⟩, -⟩
  exact absurd (hflag.mp (by decide +kernel)) (by decide)

end KeyInput

end BiosKernel
