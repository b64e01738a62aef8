import BiosKernel.Keyboard.Buffer
import BiosKernel.Lib.Checked
import BiosKernel.Libc.Text

namespace BiosKernel
open Checked
set_option autoImplicit true

/-- `CAN`. -/
def can : Int := 0x18

/-- `KEYCODES_EXT_START`. -/
def keycodesExtStart : Int := 0x100

/-- The key codes of backspace, of the end of the line and of Esc. -/
def backspaceKey : Int := 8

def newlineKey : Int := 10

def escKey : Int := 0x1B

/-- A line in the middle of `gets_s`: the bytes from `str` to the end of the buffer, and what is
printed so far. -/
structure LineEditor where
  str : CString
  i : UInt32
  printed : CString

/-- Why `gets_s` has no result: a byte outside the buffer is needed, a loop takes more rounds than
are given, or `getchar` waits for a key. -/
inductive GetsFault where
  | outside
  | endless
  | waiting
deriving DecidableEq

/-- `str[i] = c`. -/
def setChar (str : CString) (i : Nat) (c : UInt8) : Except GetsFault CString :=
  if i < str.length then .ok (str.set i c) else .error .outside

/-- `strlen` in a buffer. -/
def bufferStrlen (str : CString) : Except GetsFault Nat :=
  if 0 ∈ str then .ok (strlen str) else .error .outside

/-- The loop that prints a backspace for each of `len` characters. -/
def cancelLoop (len : Nat) : Nat → UInt32 → CString → Except GetsFault CString
  | 0, _, _ => .error .endless
  | fuel + 1, i, printed =>
    if i.toNat < len then cancelLoop len fuel (i + 1) (printed ++ [backspace]) else .ok printed

/-- The last loop, over the rest of the buffer. -/
def zeroLoop (size : UInt64) : Nat → UInt32 → CString → Except GetsFault CString
  | 0, _, _ => .error .endless
  | fuel + 1, i, str =>
    if i.toUInt64 < size then do
      let str ← setChar str i.toNat 0
      zeroLoop size fuel (i + 1) str
    else .ok str

namespace LineEditor

/-- The end of a round of the loop, behind the tests of the keys that are not stored. -/
def put (size : UInt64) (s : LineEditor) (c : Int) : Except GetsFault LineEditor :=
  if s.i.toUInt64 ≥ size - 1 then .ok s
  else
    let printed := s.printed ++ [UInt8.ofInt c]
    if c ≠ newlineKey ∧ c ≠ eof ∧ c ≠ 0 ∧ c ≠ backspaceKey then do
      let str ← setChar s.str s.i.toNat (UInt8.ofInt c)
      return { str, i := s.i + 1, printed }
    else .ok { s with printed }

/-- A round of the loop with the key that `getchar` returns. -/
def key (fuel : Nat) (size : UInt64) (s : LineEditor) (c : Int) : Except GetsFault LineEditor :=
  if c = can then do
    let len ← bufferStrlen s.str
    let printed ← cancelLoop len fuel 0 s.printed
    return { str := List.replicate len 0 ++ s.str.drop len, i := 0, printed }
  else if c ≥ keycodesExtStart then .ok s
  else if c = escKey then .ok s
  else if c = backspaceKey then
    if 0 < s.i then do
      let str ← setChar s.str (s.i - 1).toNat 0
      put size { s with str, i := s.i - 1 } c
    else if s.str.at0 ≠ 0 then do
      let str ← setChar s.str 0 0
      put size { s with str } c
    else .ok s
  else put size s c

/-- The loop of `gets_s` over the keys that `getchar` returns, up to the key that ends it. -/
def keys (fuel : Nat) (size : UInt64) : List Int → LineEditor → Except GetsFault (Int × LineEditor)
  | [], _ => .error .waiting
  | c :: cs, s => do
    let s ← s.key fuel size c
    if c ≠ newlineKey ∧ c ≠ eof ∧ c ≠ 0 then keys fuel size cs s else return (c, s)

end LineEditor

/-- The buffer, or none for `NULL`, and what is printed. -/
def getsS (fuel : Nat) (str : CString) (size : UInt64) (cs : List Int) :
    Except GetsFault (Option CString × CString) := do
  let (c, s) ← LineEditor.keys fuel size cs ⟨str, 0, []⟩
  if c = eof ∨ s.i = 0 then return (none, s.printed)
  else do
    let str ← zeroLoop size fuel s.i s.str
    return (some str, s.printed)

/-- The line as it should be edited. -/
def editKey (size : Nat) (w : CString) (c : Int) : CString :=
  if c = backspaceKey then w.dropLast
  else if c = can then []
  else if c = escKey ∨ c ≥ keycodesExtStart then w
  else if w.length < size - 1 then w ++ [UInt8.ofInt c]
  else w

def edited (size : Nat) (cs : List Int) : CString := cs.foldl (editKey size) []

/-- What stands on the line when characters are printed. -/
def shownBy (shown : CString) (c : UInt8) : CString :=
  if c = backspace then shown.dropLast else if c = 10 then shown else shown ++ [c]

/-- A key of a line that is typed, before its end. -/
def Typed (c : Int) : Prop := (1 ≤ c ∧ c ≤ 127 ∨ keycodesExtStart ≤ c) ∧ c ≠ newlineKey

instance (c : Int) : Decidable (Typed c) := inferInstanceAs (Decidable (_ ∧ _))

namespace LineEditor

/-- The editor holds a line. -/
structure Holds (size : Nat) (w : CString) (s : LineEditor) : Prop where
  room : w.length < size
  zero_not_mem : 0 ∉ w
  str_eq : s.str = w ++ List.replicate (size - w.length) 0
  i_eq : s.i.toNat = w.length
  shown : s.printed.foldl shownBy [] = w

end LineEditor

theorem length_editKey_le (size : Nat) (w : CString) (c : Int) :
    (editKey size w c).length ≤ w.length + 1 := by
  rw [editKey]
  split
  · rw [List.length_dropLast]
    omega
  · split
    · exact Nat.zero_le _
    · split
      · exact Nat.le_succ _
      · split
        · rw [List.length_append, List.length_singleton]
        · exact Nat.le_succ _

theorem ofInt_toNat (h : 0 ≤ c) (h' : c ≤ 127) : ((UInt8.ofInt c).toNat : Int) = c := by
  rw [UInt8.ofInt, UInt8.toNat_ofNat']
  omega

theorem ofInt_ne (h : 0 ≤ c) (h' : c ≤ 127) (hne : c ≠ b.toNat) :
    UInt8.ofInt c ≠ b := by
  intro heq
  have := ofInt_toNat h h'
  rw [heq] at this
  exact hne this.symm

theorem set_append_replicate (w : CString) (h : 0 < n) (c : UInt8) :
    (w ++ List.replicate n 0).set w.length c = w ++ c :: List.replicate (n - 1) 0 := by
  obtain ⟨m, rfl⟩ : ∃ m, n = m + 1 := ⟨n - 1, by omega⟩
  rw [List.set_append_right _ _ (Nat.le_refl _), Nat.sub_self, List.replicate_succ,
    List.set_cons_zero]
  rfl

theorem full_iff (h : 0 < size.toNat) (i : UInt32) :
    i.toUInt64 ≥ size - 1 ↔ size.toNat - 1 ≤ i.toNat := by
  have hone : (1 : UInt64) ≤ size := UInt64.le_iff_toNat_le.mpr h
  rw [ge_iff_le, UInt64.le_iff_toNat_le, UInt64.toNat_sub_of_le _ _ hone, UInt32.toNat_toUInt64]
  rfl

theorem shownBy_backspaces (w : CString) :
    (List.replicate w.length backspace).foldl shownBy w = [] := by
  induction w using List.reverseRecOn with
  | nil => rfl
  | append_singleton w c ih =>
    rw [List.length_append, List.length_singleton, List.replicate_succ, List.foldl_cons, shownBy,
      if_pos rfl, List.dropLast_concat]
    exact ih

theorem toNat_add_one {i : UInt32} (h : i.toNat + 1 < 2 ^ 32) : (i + 1).toNat = i.toNat + 1 := by
  rw [UInt32.toNat_add, UInt32.toNat_one, Nat.mod_eq_of_lt h]

theorem cancelLoop_eq (hlen : len < 2 ^ 32) (i : UInt32) (h : i.toNat ≤ len)
    (hfuel : len - i.toNat < fuel) (printed : CString) :
    cancelLoop len fuel i printed = .ok (printed ++ List.replicate (len - i.toNat) backspace) := by
  induction fuel generalizing i printed with
  | zero => omega
  | succ fuel ih =>
    rw [cancelLoop]
    split
    · have hi : (i + 1).toNat = i.toNat + 1 := toNat_add_one (by omega)
      rw [ih _ (by omega) (by omega), hi, List.append_assoc, List.singleton_append,
        ← List.replicate_succ]
      congr 3
      omega
    · have hnil : len - i.toNat = 0 := by omega
      rw [hnil, List.replicate_zero, List.append_nil]

theorem zeroLoop_eq (hsize : size.toNat < 2 ^ 32) (i : UInt32) (h : i.toNat ≤ size.toNat)
    (hfuel : size.toNat - i.toNat < fuel) {str : CString} (hlen : str.length = size.toNat)
    (hzero : ∀ j, i.toNat ≤ j → str.getD j 0 = 0) : zeroLoop size fuel i str = .ok str := by
  induction fuel generalizing i with
  | zero => omega
  | succ fuel ih =>
    rw [zeroLoop]
    split
    · next hi =>
      rw [UInt64.lt_iff_toNat_lt, UInt32.toNat_toUInt64] at hi
      have hnext : (i + 1).toNat = i.toNat + 1 := toNat_add_one (by omega)
      have hset : str.set i.toNat 0 = str := by
        refine List.ext_getElem (List.length_set ..) fun j h₁ h₂ => ?_
        rw [List.getElem_set]
        split
        · next hj =>
          have hj0 := hzero j (by omega)
          rw [List.getD_eq_getElem?_getD, List.getElem?_eq_getElem h₂] at hj0
          exact hj0.symm
        · rfl
      rw [setChar, if_pos (hlen ▸ hi), hset, ok_bind]
      exact ih _ (by omega) (by omega) fun j hj => hzero j (by omega)
    · rfl

theorem zeroLoop_ne_ok (hsize : 2 ^ 32 ≤ size.toNat) (fuel : Nat) (i : UInt32) (str r : CString) :
    zeroLoop size fuel i str ≠ .ok r := by
  induction fuel generalizing i str with
  | zero =>
    intro h
    cases h
  | succ fuel ih =>
    intro h
    have hi : i.toUInt64 < size := by
      rw [UInt64.lt_iff_toNat_lt, UInt32.toNat_toUInt64]
      have := i.toNat_lt
      omega
    rw [zeroLoop, if_pos hi] at h
    obtain ⟨str', -, h⟩ := of_bind_eq_ok h
    exact ih _ _ h

namespace LineEditor
namespace Holds
section
variable {s : LineEditor} {w : CString} {size : UInt64} (h : s.Holds size.toNat w)
include h

theorem str_length : s.str.length = size.toNat := by
  have := h.room
  rw [h.str_eq, List.length_append, List.length_replicate]
  omega

theorem strlen_eq : strlen s.str = w.length := by
  have hnil : CString.text (List.replicate (size.toNat - w.length) 0) = [] := by
    rw [CString.text_eq_nil_iff]
    cases size.toNat - w.length <;> rfl
  rw [h.str_eq, strlen, CString.text_append h.zero_not_mem, hnil, List.append_nil]

theorem bufferStrlen_eq : bufferStrlen s.str = .ok w.length := by
  have hmem : 0 ∈ s.str := by
    have := h.room
    rw [h.str_eq]
    exact List.mem_append_right w (List.mem_replicate.mpr ⟨by omega, rfl⟩)
  rw [bufferStrlen, if_pos hmem, h.strlen_eq]

theorem put_newline : ∃ s', s.put size newlineKey = .ok s' ∧ s'.Holds size.toNat w := by
  rw [put]
  split
  · exact ⟨s, rfl, h⟩
  · refine ⟨_, rfl, h.room, h.zero_not_mem, h.str_eq, h.i_eq, ?_⟩
    rw [List.foldl_append, h.shown]
    rfl

theorem put_char (hsize : min size.toNat (w.length + 2) ≤ 2 ^ 32) (hc : 1 ≤ c) (hc' : c ≤ 127)
    (hn : c ≠ newlineKey) (hb : c ≠ backspaceKey) : ∃ s', s.put size c = .ok s' ∧
      s'.Holds size.toNat (if w.length < size.toNat - 1 then w ++ [UInt8.ofInt c] else w) := by
  have hroom := h.room
  have hpos : 0 < size.toNat := by omega
  rw [put]
  by_cases hw : w.length < size.toNat - 1
  · have hstored : c ≠ newlineKey ∧ c ≠ eof ∧ c ≠ 0 ∧ c ≠ backspaceKey :=
      ⟨hn, by unfold eof; omega, by omega, hb⟩
    have hin : s.i.toNat < s.str.length := by rw [h.i_eq, h.str_length]; exact hroom
    rw [if_neg (by rw [full_iff hpos, h.i_eq]; omega), if_pos hstored, setChar, if_pos hin, ok_bind,
      if_pos hw]
    refine ⟨_, rfl, ?_, ?_, ?_, ?_, ?_⟩
    · rw [List.length_append, List.length_singleton]
      omega
    · have hne : UInt8.ofInt c ≠ 0 := ofInt_ne (by omega) hc' (by change c ≠ 0; omega)
      rw [List.mem_append, List.mem_singleton, not_or]
      exact ⟨h.zero_not_mem, hne.symm⟩
    · rw [h.str_eq, h.i_eq, set_append_replicate _ (by omega), List.append_assoc,
        List.singleton_append, List.length_append, List.length_singleton, Nat.sub_add_eq]
    · rw [toNat_add_one (by rw [h.i_eq]; omega), h.i_eq, List.length_append, List.length_singleton]
    · have hback : UInt8.ofInt c ≠ backspace := ofInt_ne (by omega) hc' hb
      have hline : UInt8.ofInt c ≠ 10 := ofInt_ne (by omega) hc' hn
      rw [List.foldl_append, h.shown, List.foldl_cons, List.foldl_nil, shownBy, if_neg hback,
        if_neg hline]
  · rw [if_pos (by rw [full_iff hpos, h.i_eq]; omega), if_neg hw]
    exact ⟨s, rfl, h⟩

theorem key_can (hsize : min size.toNat (w.length + 2) ≤ 2 ^ 32) (hfuel : size.toNat ≤ fuel) :
    ∃ s', s.key fuel size can = .ok s' ∧ s'.Holds size.toNat [] := by
  have hroom := h.room
  have hlen : w.length < 2 ^ 32 := by omega
  have hcancel := cancelLoop_eq hlen 0 (Nat.zero_le _) (show w.length - 0 < fuel by omega) s.printed
  rw [key, if_pos rfl, h.bufferStrlen_eq, ok_bind, hcancel, ok_bind]
  refine ⟨_, rfl, by simp; omega, List.not_mem_nil, ?_, rfl, ?_⟩
  · rw [h.str_eq, List.drop_left, List.nil_append, List.replicate_append_replicate]
    have hall : w.length + (size.toNat - w.length) = size.toNat := by omega
    rw [hall]
    rfl
  · rw [List.foldl_append, h.shown]
    exact shownBy_backspaces w

theorem key_backspace :
    ∃ s', s.key fuel size backspaceKey = .ok s' ∧ s'.Holds size.toNat w.dropLast := by
  have hroom := h.room
  rw [key, if_neg (by decide), if_neg (by decide), if_neg (by decide), if_pos rfl]
  induction w using List.reverseRecOn with
  | nil =>
    have hi : ¬0 < s.i := by
      rw [UInt32.lt_iff_toNat_lt, h.i_eq]
      exact Nat.lt_irrefl 0
    have h0 : s.str.at0 = 0 := CString.text_eq_nil_iff.mp (List.length_eq_zero_iff.mp h.strlen_eq)
    rw [if_neg hi, if_neg (not_not_intro h0)]
    exact ⟨s, rfl, h⟩
  | append_singleton v a =>
    have hlen : s.i.toNat = v.length + 1 := by
      rw [h.i_eq, List.length_append, List.length_singleton]
    rw [List.length_append, List.length_singleton] at hroom
    have hi : 0 < s.i := UInt32.lt_iff_toNat_lt.mpr (by rw [hlen]; exact Nat.succ_pos _)
    have hone : (1 : UInt32) ≤ s.i :=
      UInt32.le_iff_toNat_le.mpr (by rw [hlen]; exact Nat.succ_le_succ (Nat.zero_le _))
    have hpred : (s.i - 1).toNat = v.length := by
      rw [UInt32.toNat_sub_of_le _ _ hone, hlen]
      rfl
    have hin : v.length < s.str.length := by rw [h.str_length]; omega
    have hset : s.str.set v.length 0 = v ++ List.replicate (size.toNat - v.length) 0 := by
      have hrest : size.toNat - v.length = size.toNat - (v.length + 1) + 1 := by omega
      rw [h.str_eq, List.append_assoc, List.set_append_right _ _ (Nat.le_refl _), Nat.sub_self,
        hrest, List.replicate_succ, List.length_append, List.length_singleton]
      rfl
    have hfull : ¬(s.i - 1).toUInt64 ≥ size - 1 := by
      rw [full_iff (by omega), hpred]
      omega
    rw [if_pos hi, hpred, setChar, if_pos hin, ok_bind, put, if_neg hfull, List.dropLast_concat]
    refine ⟨_, rfl, by omega, ?_, hset, hpred, ?_⟩
    · exact fun h0 => h.zero_not_mem (List.mem_append_left [a] h0)
    · rw [List.foldl_append, h.shown]
      exact List.dropLast_concat

theorem key_typed (hsize : min size.toNat (w.length + 2) ≤ 2 ^ 32) (hfuel : size.toNat ≤ fuel)
    (hc : Typed c) :
    ∃ s', s.key fuel size c = .ok s' ∧ s'.Holds size.toNat (editKey size.toNat w c) := by
  obtain ⟨hrange, hn⟩ := hc
  rw [editKey]
  by_cases hb : c = backspaceKey
  · subst hb
    rw [if_pos rfl]
    exact h.key_backspace
  · rw [if_neg hb]
    by_cases hcan : c = can
    · subst hcan
      rw [if_pos rfl]
      exact h.key_can hsize hfuel
    · rw [if_neg hcan, key, if_neg hcan]
      by_cases hext : c ≥ keycodesExtStart
      · rw [if_pos hext, if_pos (.inr hext)]
        exact ⟨s, rfl, h⟩
      · rw [if_neg hext]
        by_cases hesc : c = escKey
        · rw [if_pos hesc, if_pos (.inl hesc)]
          exact ⟨s, rfl, h⟩
        · obtain ⟨hlow, hhigh⟩ := hrange.resolve_right hext
          rw [if_neg hesc, if_neg hb, if_neg (not_or.mpr ⟨hesc, hext⟩)]
          exact h.put_char hsize hlow hhigh hn hb

/-- The loop edits the line up to the newline. -/
theorem keys_typed {cs : List Int} (hsize : min size.toNat (w.length + cs.length + 1) ≤ 2 ^ 32)
    (hfuel : size.toNat ≤ fuel) (hcs : ∀ c ∈ cs, Typed c) : ∃ s',
      keys fuel size (cs ++ [newlineKey]) s = .ok (newlineKey, s') ∧
        s'.Holds size.toNat (cs.foldl (editKey size.toNat) w) := by
  induction cs generalizing s w with
  | nil =>
    obtain ⟨s', hput, hs'⟩ := h.put_newline
    have hkey : s.key fuel size newlineKey = .ok s' := hput
    rw [List.nil_append, keys, hkey]
    exact ⟨s', rfl, hs'⟩
  | cons c cs ih =>
    rw [List.length_cons] at hsize
    obtain ⟨s₁, hkey, hs₁⟩ := h.key_typed (by omega) hfuel (hcs c List.mem_cons_self)
    obtain ⟨⟨hrange, hn⟩, hcs'⟩ := List.forall_mem_cons.mp hcs
    have hmore : c ≠ newlineKey ∧ c ≠ eof ∧ c ≠ 0 := by
      unfold keycodesExtStart at hrange
      refine ⟨hn, ?_, ?_⟩
      · unfold eof
        omega
      · omega
    have hlen := length_editKey_le size.toNat w c
    rw [List.cons_append, keys, hkey, ok_bind, if_pos hmore]
    exact ih hs₁ (by omega) hcs'

end
end Holds

theorem holds_start (h : 0 < size) : Holds size [] ⟨List.replicate size 0, 0, []⟩ :=
  ⟨h, List.not_mem_nil, rfl, rfl, rfl⟩

end LineEditor

end BiosKernel
