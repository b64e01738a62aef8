import Mathlib.Data.List.Infix

namespace BiosKernel
set_option autoImplicit true

/-- The bytes from a pointer on. Those behind the list are zero. -/
abbrev CString := List UInt8

/-- `BUFFER_SIZE`. -/
def bufferSize : Nat := 0x100

/-- `*s`. -/
def CString.at0 (s : CString) : UInt8 := s.headD 0

/-- A pointer to the first `c` of the string, or none. -/
def strchr : CString → UInt8 → Option CString
  | [], c => if c = 0 then some [] else none
  | x :: s, c =>
    if x = 0 then if c = 0 then some (x :: s) else none
    else if x = c then some (x :: s)
    else strchr s c

def memcmp (a b : CString) : Nat → Int
  | 0 => 0
  | size + 1 =>
    if a.at0 < b.at0 then -1
    else if b.at0 < a.at0 then 1
    else memcmp a.tail b.tail size

def strncmp (a b : CString) : Nat → Int
  | 0 => 0
  | size + 1 =>
    if a.at0 = 0 ∧ b.at0 = 0 then 0
    else if a.at0 = 0 then -1
    else if b.at0 = 0 then 1
    else if a.at0 < b.at0 then -1
    else if b.at0 < a.at0 then 1
    else strncmp a.tail b.tail size

def strcmp : CString → CString → Int
  | [], b => 0 - b.at0.toNat
  | x :: a, b => if x ≠ 0 ∧ x = b.at0 then strcmp a b.tail else (x.toNat : Int) - b.at0.toNat

def isspace (c : UInt8) : Bool :=
  c = 32 ∨ c = 9 ∨ c = 10 ∨ c = 11 ∨ c = 12 ∨ c = 13

theorem strchr_suffix (h : strchr s c = some r) : r <:+ s := by
  induction s with
  | nil =>
    rw [strchr] at h
    split at h
    · cases h
      exact List.suffix_refl _
    · cases h
  | cons x s ih =>
    rw [strchr] at h
    split at h
    · split at h
      · cases h
        exact List.suffix_refl _
      · cases h
    · split at h
      · cases h
        exact List.suffix_refl _
      · exact (ih h).trans (List.suffix_cons x s)

theorem strchr_of_mem (hs : 0 ∉ s) (hc : c ∈ s) :
    ∃ seg rest, s = seg ++ c :: rest ∧ c ∉ seg ∧ strchr s c = some (c :: rest) := by
  induction s with
  | nil => cases hc
  | cons x s ih =>
    have hx : x ≠ 0 := fun h => hs (h ▸ List.mem_cons_self)
    rw [strchr, if_neg hx]
    by_cases hxc : x = c
    · subst hxc
      exact ⟨[], s, rfl, List.not_mem_nil, if_pos rfl⟩
    · obtain ⟨seg, rest, rfl, hseg, hchr⟩ := ih (fun h => hs (List.mem_cons_of_mem x h))
        ((List.mem_cons.mp hc).resolve_left (Ne.symm hxc))
      refine ⟨x :: seg, rest, rfl, ?_, ?_⟩
      · exact List.not_mem_cons_of_ne_of_not_mem (Ne.symm hxc) hseg
      · rw [if_neg hxc]
        exact hchr

theorem strchr_of_not_mem (hc : c ∉ s) (h0 : c ≠ 0) : strchr s c = none := by
  induction s with
  | nil => exact if_neg h0
  | cons x s ih =>
    have hx : x ≠ c := fun h => hc (h ▸ List.mem_cons_self)
    rw [strchr, if_neg h0, if_neg hx, ih fun h => hc (List.mem_cons_of_mem x h)]
    exact ite_self none

theorem strchr_zero (hs : 0 ∉ s) : strchr s 0 = some [] := by
  induction s with
  | nil => rfl
  | cons x s ih =>
    have hx : x ≠ 0 := fun h => hs (h ▸ List.mem_cons_self)
    rw [strchr, if_neg hx, if_neg hx]
    exact ih fun h => hs (List.mem_cons_of_mem x h)

theorem strchr_append (hx : c ∉ x) (h0 : 0 ∉ x) (s : CString) : strchr (x ++ s) c = strchr s c := by
  induction x with
  | nil => rfl
  | cons a x ih =>
    have ha0 : a ≠ 0 := fun h => h0 (h ▸ List.mem_cons_self)
    have hac : a ≠ c := fun h => hx (h ▸ List.mem_cons_self)
    rw [List.cons_append, strchr, if_neg ha0, if_neg hac]
    exact ih (fun h => hx (List.mem_cons_of_mem a h)) fun h => h0 (List.mem_cons_of_mem a h)

theorem CString.at0_eq_zero_iff (hs : 0 ∉ s) : CString.at0 s = 0 ↔ s = [] := by
  cases s with
  | nil => exact ⟨fun _ => rfl, fun _ => rfl⟩
  | cons x s =>
    refine ⟨fun h => absurd (h ▸ List.mem_cons_self) hs, ?_⟩
    intro h
    cases h

theorem strcmp_eq_zero_iff (ha : 0 ∉ a) (hb : 0 ∉ b) : strcmp a b = 0 ↔ a = b := by
  induction a generalizing b with
  | nil =>
    rw [strcmp, eq_comm (a := ([] : CString)), ← CString.at0_eq_zero_iff hb, ← UInt8.toNat_inj]
    change 0 - (CString.at0 b).toNat = (0 : Int) ↔ (CString.at0 b).toNat = 0
    omega
  | cons x a ih =>
    have hx : x ≠ 0 := fun h => ha (h ▸ List.mem_cons_self)
    rw [strcmp]
    cases b with
    | nil =>
      rw [if_neg fun h => hx h.2]
      refine ⟨fun h => absurd (UInt8.toNat_inj.mp ?_) hx, fun h => absurd h (List.cons_ne_nil _ _)⟩
      change (x.toNat : Int) - (0 : UInt8).toNat = 0 at h
      omega
    | cons y b =>
      have htail := ih (fun h => ha (List.mem_cons_of_mem x h))
        fun h => hb (List.mem_cons_of_mem y h)
      by_cases hxy : x = y
      · subst hxy
        rw [if_pos ⟨hx, rfl⟩, List.tail_cons, htail]
        simp
      · rw [if_neg fun h => hxy h.2, List.cons.injEq]
        refine ⟨fun h => absurd (UInt8.toNat_inj.mp ?_) hxy, fun h => absurd h.1 hxy⟩
        change (x.toNat : Int) - y.toNat = 0 at h
        omega

theorem byteOrder_eq_zero_iff {a b : UInt8} {r : Int} :
    (if a < b then -1 else if b < a then 1 else r) = 0 ↔ a = b ∧ r = 0 := by
  by_cases hab : a = b
  · rw [if_neg (hab ▸ UInt8.lt_irrefl a), if_neg (hab ▸ UInt8.lt_irrefl a)]
    exact ⟨fun h => ⟨hab, h⟩, fun h => h.2⟩
  · refine ⟨fun h => absurd h ?_, fun h => absurd h.1 hab⟩
    rcases UInt8.lt_or_lt_of_ne hab with hlt | hlt
    · rw [if_pos hlt]
      decide
    · rw [if_neg (UInt8.lt_asymm hlt), if_pos hlt]
      decide

theorem memcmp_cons_iff {s t : CString} :
    memcmp (a :: s) (b :: t) (n + 1) = 0 ↔ a = b ∧ memcmp s t n = 0 :=
  byteOrder_eq_zero_iff

theorem memcmp_eq_zero_iff {a b : CString} (ha : a.length = n) (hb : b.length = n) :
    memcmp a b n = 0 ↔ a = b := by
  induction n generalizing a b with
  | zero =>
    rw [List.eq_nil_of_length_eq_zero ha, List.eq_nil_of_length_eq_zero hb]
    exact ⟨fun _ => rfl, fun _ => rfl⟩
  | succ n ih =>
    obtain ⟨x, a, rfl⟩ := List.exists_cons_of_length_eq_add_one ha
    obtain ⟨y, b, rfl⟩ := List.exists_cons_of_length_eq_add_one hb
    rw [memcmp_cons_iff, List.cons.injEq, ih (Nat.succ.inj ha) (Nat.succ.inj hb)]

end BiosKernel
