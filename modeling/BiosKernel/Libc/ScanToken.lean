import BiosKernel.Libc.Scanf

namespace BiosKernel
open Checked MachineInt
set_option autoImplicit true

theorem validCharLoop_append {space : CString} (hspace : ∀ c ∈ space, isValidChar c = false)
    (hc : isValidChar c = true) (s : CString) (size : Int) (i : Nat) :
    validCharLoop size (space ++ c :: s) i =
      if (i + space.length : Nat) < size then some (i + space.length) else none := by
  induction space generalizing i with
  | nil =>
    rw [List.nil_append, List.length_nil, Nat.add_zero, validCharLoop, if_pos hc]
    split <;> split <;> first | rfl | omega
  | cons d space ih =>
    rw [List.forall_mem_cons] at hspace
    rw [List.cons_append, validCharLoop, hspace.1, if_neg Bool.false_ne_true, ih hspace.2,
      List.length_cons, Nat.add_right_comm]
    split
    · rw [if_neg (by omega)]
    · rfl

theorem getNextValidCharIdx_append {space : CString}
    (hspace : ∀ c ∈ space, isValidChar c = false) (hc : isValidChar c = true) (s : CString)
    (len : Nat) :
    getNextValidCharIdx (space ++ c :: s) len =
      if space.length < int32 len then some space.length else none := by
  rw [getNextValidCharIdx, validCharLoop_append hspace hc, Nat.zero_add]

theorem storeChar_append (room : Option Nat) (front old : CString) (c : UInt8) :
    storeChar room (front ++ old) front.length c =
      if room.all (front.length < ·) then .ok (front ++ c :: old.tail) else .error .overflow := by
  rw [storeChar]
  congr 2
  cases old with
  | nil =>
    have hpad : front.length + 1 - (front ++ []).length = 1 := by
      rw [List.append_nil]
      omega
    rw [hpad, List.append_nil, List.set_append_right _ _ (Nat.le_refl _), Nat.sub_self]
    rfl
  | cons d old =>
    have hpad : front.length + 1 - (front ++ d :: old).length = 0 := by
      rw [List.length_append, List.length_cons]
      omega
    rw [hpad, List.replicate_zero, List.append_nil, List.set_append_right _ _ (Nat.le_refl _),
      Nat.sub_self]
    rfl

theorem room_of_lt {room : Option Nat} (h : m ≤ n) (hn : room.all (n < ·) = true) :
    room.all (m < ·) = true := by
  cases room with
  | none => rfl
  | some size => exact decide_eq_true (Nat.lt_of_le_of_lt h (of_decide_eq_true hn))

/-- What follows a token does not belong to it. -/
structure IsToken (token s : CString) : Prop where
  ne : token ≠ []
  valid : ∀ c ∈ token, isValidChar c = true
  ends : isValidChar (CString.at0 s) = false

instance (token s : CString) : Decidable (IsToken token s) :=
  have := List.decidableBAll (isValidChar · = true) token
  decidable_of_iff (token ≠ [] ∧ (∀ c ∈ token, isValidChar c = true) ∧
    isValidChar (CString.at0 s) = false) ⟨fun h => ⟨h.1, h.2.1, h.2.2⟩, fun h => ⟨h.1, h.2, h.3⟩⟩

theorem IsToken.tail (h : IsToken (c :: d :: token) s) : IsToken (d :: token) s :=
  ⟨List.cons_ne_nil _ _, fun x hx => h.valid x (List.mem_cons_of_mem _ hx), h.ends⟩

theorem validStringLoop_token {space token front : CString} {len : Nat}
    (hspace : ∀ c ∈ space, isValidChar c = false) (htoken : IsToken token s)
    (hidx : space.length < int32 len) (hlen : front.length + token.length ≤ len)
    (hcount : front.length + token.length < 2 ^ 32) (hrounds : token.length ≤ rounds)
    (room : Option Nat) (old : CString) :
    validStringLoop room len rounds front.length (space ++ (token ++ s)) (front ++ old) =
      if room.all (front.length + token.length - 1 < ·) then
        .ok (front.length + token.length - 1, s, front ++ token ++ old.drop token.length)
      else .error .overflow := by
  induction token generalizing space front rounds old with
  | nil => exact (htoken.ne rfl).elim
  | cons c token ih =>
    rw [List.length_cons] at hlen hcount hrounds
    obtain ⟨rounds, rfl⟩ : ∃ r, rounds = r + 1 := ⟨rounds - 1, by omega⟩
    have hc := htoken.valid c List.mem_cons_self
    have hchar : CString.at0 ((space ++ (c :: token ++ s)).drop space.length) = c := by
      rw [List.drop_left]
      rfl
    have hrest : (space ++ (c :: token ++ s)).drop (space.length + 1) = token ++ s := by
      rw [← List.drop_drop, List.drop_left]
      rfl
    have hfound : getNextValidCharIdx (space ++ (c :: token ++ s)) len = some space.length :=
      (getNextValidCharIdx_append hspace hc _ len).trans (if_pos hidx)
    have hi : front.length < len := by omega
    rw [validStringLoop, if_pos hi, hfound]
    dsimp only
    rw [hchar, hrest, storeChar_append]
    by_cases hroom : room.all (front.length < ·) = true
    · rw [if_pos hroom]
      cases token with
      | nil =>
        have hall : room.all (front.length + [c].length - 1 < ·) = true := hroom
        rw [if_pos hall, List.append_assoc]
        cases old <;> exact if_neg (by rw [List.nil_append, htoken.ends]; decide)
      | cons d token =>
        have hd : isValidChar (CString.at0 (d :: token ++ s)) = true :=
          htoken.valid d (List.mem_cons_of_mem _ List.mem_cons_self)
        have hfront : (front ++ [c]).length = front.length + 1 := List.length_append
        have hnone : ∀ x ∈ ([] : CString), isValidChar x = false :=
          fun _ h => absurd h List.not_mem_nil
        have hlen' : (front ++ [c]).length + (d :: token).length ≤ len := by
          rw [hfront]
          omega
        have hcount' : (front ++ [c]).length + (d :: token).length < 2 ^ 32 := by
          rw [hfront]
          omega
        have hnext := ih hnone htoken.tail (Int.lt_of_le_of_lt (Int.natCast_nonneg _) hidx) hlen'
          hcount' (Nat.le_of_succ_le_succ hrounds) old.tail
        have hindex : (front.length + 1) % 2 ^ 32 = (front ++ [c]).length := by
          rw [hfront]
          exact Nat.mod_eq_of_lt (by omega)
        have hlast : (front ++ [c]).length + (d :: token).length - 1 =
            front.length + (c :: d :: token).length - 1 := by
          rw [hfront, List.length_cons, List.length_cons, List.length_cons]
          omega
        rw [List.nil_append, hlast, List.append_assoc front [c], List.append_assoc front [c],
          List.singleton_append, List.singleton_append, List.drop_tail] at hnext
        rw [hindex]
        exact (if_pos hd).trans hnext
    · have hall : ¬ room.all (front.length + (c :: token).length - 1 < ·) = true := by
        intro h
        refine hroom (room_of_lt ?_ h)
        rw [List.length_cons]
        omega
      rw [if_neg hroom, if_neg hall]
      rfl

theorem dropWhile_of_ends {s : CString} (h : isValidChar s.at0 = false) :
    s.dropWhile isValidChar = s := by
  cases s with
  | nil => rfl
  | cons c s => exact List.dropWhile_cons_of_neg (ne_true_of_eq_false h)

/-- What a token leaves of the old bytes. Only a token of more than one byte is terminated. -/
def stored (token old : CString) : CString :=
  if token.length = 1 then token ++ old.tail else token ++ 0 :: old.drop (token.length + 1)

/-- The last index that a token is written to, with its terminator. -/
def lastIndex (token : CString) : Nat := if token.length = 1 then 0 else token.length

theorem getNextValidString_found {space token : CString} {len : Nat}
    (hspace : ∀ c ∈ space, isValidChar c = false) (htoken : IsToken token s)
    (hidx : space.length < int32 len) (hlen : token.length ≤ len)
    (hsize : space.length + token.length < 2 ^ 31) (room : Option Nat) (old : CString) :
    getNextValidString room (space ++ (token ++ s)) len old =
      if room.all (lastIndex token < ·) then
        .ok (space.length + token.length, stored token old)
      else .error .overflow := by
  have hloop : validStringLoop room len ((space ++ (token ++ s)).length + 1) 0
      (space ++ (token ++ s)) old = if room.all (token.length - 1 < ·) then
        .ok (token.length - 1, s, token ++ old.drop token.length) else .error .overflow := by
    have htotal : ([] : CString).length + token.length = token.length := Nat.zero_add _
    have hrounds : token.length ≤ (space ++ (token ++ s)).length + 1 := by
      rw [List.length_append, List.length_append]
      omega
    have hloop := validStringLoop_token hspace htoken hidx (htotal.trans_le hlen)
      (htotal.trans_lt (by omega)) hrounds room old
    rw [htotal] at hloop
    exact hloop
  have hnext : int32 ((space ++ (token ++ s)).length - s.length) =
      space.length + token.length := by
    rw [List.length_append, List.length_append, int32_eq] <;> omega
  have hpos := List.length_pos_of_ne_nil htoken.ne
  rw [getNextValidString, hloop, stored, lastIndex]
  by_cases hroom : room.all (token.length - 1 < ·) = true
  · rw [if_pos hroom, ok_bind]
    dsimp only
    rw [dropWhile_of_ends htoken.ends, hnext]
    by_cases hone : token.length = 1
    · have hzero : room.all (0 < ·) = true := room_of_lt (Nat.zero_le _) hroom
      have hdrop : old.drop token.length = old.tail := by rw [hone, List.drop_one]
      have hshort : ¬ (token.length - 1 ≠ 0 ∧ 1 < len) := by omega
      simp only [if_pos hone]
      rw [if_neg hshort, if_pos hzero, hdrop]
      rfl
    · have hindex : (token.length - 1 + 1) % 2 ^ 32 = token.length := by omega
      have hlong : token.length - 1 ≠ 0 ∧ 1 < len := by omega
      simp only [if_neg hone]
      rw [if_pos hlong, hindex, storeChar_append, List.tail_drop]
      split <;> rfl
  · have hlast : ¬ room.all ((if token.length = 1 then 0 else token.length) < ·) = true := by
      intro h
      refine hroom (room_of_lt ?_ h)
      split <;> omega
    rw [if_neg hroom, if_neg hlast]
    rfl

/-- Where the index does not come as far as the token, only the token itself can be skipped. -/
theorem getNextValidString_missed {space token : CString} {len : Nat}
    (hspace : ∀ c ∈ space, isValidChar c = false) (htoken : IsToken token s)
    (hidx : ¬ space.length < int32 len) (hsize : space.length + token.length < 2 ^ 31)
    (room : Option Nat) (old : CString) :
    getNextValidString room (space ++ (token ++ s)) len old =
      .ok (if space = [] then token.length else 0, old) := by
  have hnone : getNextValidCharIdx (space ++ (token ++ s)) len = none := by
    obtain ⟨c, token, rfl⟩ := List.exists_cons_of_ne_nil htoken.ne
    have hc := htoken.valid c List.mem_cons_self
    rw [List.cons_append, getNextValidCharIdx_append hspace hc, if_neg hidx]
  have hloop : validStringLoop room len ((space ++ (token ++ s)).length + 1) 0
      (space ++ (token ++ s)) old = .ok (0, space ++ (token ++ s), old) := by
    rw [validStringLoop, hnone]
    exact ite_self _
  rw [getNextValidString, hloop, ok_bind]
  dsimp only
  rw [if_neg fun h => h.1 rfl, ok_bind]
  cases space with
  | nil =>
    have hskip : (token ++ s).dropWhile isValidChar = s := by
      rw [List.dropWhile_append_of_pos htoken.valid, dropWhile_of_ends htoken.ends]
    have hnext : int32 ((token ++ s).length - s.length) = token.length := by
      rw [List.length_append, int32_eq] <;> omega
    rw [List.nil_append, hskip, hnext, if_pos rfl]
    rfl
  | cons c space =>
    have hfirst : isValidChar (CString.at0 (c :: space ++ (token ++ s))) = false :=
      hspace c List.mem_cons_self
    rw [dropWhile_of_ends hfirst, Int.sub_self, if_neg (List.cons_ne_nil _ _)]
    rfl

theorem getNextValidString_lt (h : getNextValidString room str len old = .ok (n, dst)) :
    n < 2 ^ 31 := by
  obtain ⟨_, _, h⟩ := of_bind_eq_ok h
  dsimp only at h
  split at h <;> obtain ⟨_, _, h⟩ := of_bind_eq_ok h <;> cases h <;> exact int32_lt _

/-- White space and a token at the beginning of a string without zeros. -/
structure TokenAt (space token s : CString) : Prop extends IsToken token s where
  blank : ∀ c ∈ space, isValidChar c = false
  nul : 0 ∉ space ++ (token ++ s)

theorem TokenAt.taken_iff {space token s : CString} (h : TokenAt space token s)
    (room : Option Nat) (old : CString) (Q : CString → Prop) :
    (∃ dst, getNextValidString room (space ++ (token ++ s)) (strlen (space ++ (token ++ s))) old =
        .ok (space.length + token.length, dst) ∧ Q dst) ↔
      space.length + token.length < 2 ^ 31 ∧
        if space.length < int32 (space ++ (token ++ s)).length then
          room.all (lastIndex token < ·) = true ∧ Q (stored token old)
        else space = [] ∧ Q old := by
  have hpos := List.length_pos_of_ne_nil h.ne
  have hlen : token.length ≤ (space ++ (token ++ s)).length := by
    rw [List.length_append, List.length_append]
    omega
  rw [strlen_eq_length h.nul]
  by_cases hidx : (space.length : Int) < int32 (space ++ (token ++ s)).length
  · rw [if_pos hidx]
    constructor
    · rintro ⟨dst, htaken, hQ⟩
      have hlt := getNextValidString_lt htaken
      have hsize : space.length + token.length < 2 ^ 31 := by omega
      rw [getNextValidString_found h.blank h.toIsToken hidx hlen hsize] at htaken
      by_cases hroom : room.all (lastIndex token < ·) = true
      · rw [if_pos hroom] at htaken
        cases htaken
        exact ⟨hsize, hroom, hQ⟩
      · rw [if_neg hroom] at htaken
        cases htaken
    · rintro ⟨hsize, hroom, hQ⟩
      refine ⟨stored token old, ?_, hQ⟩
      rw [getNextValidString_found h.blank h.toIsToken hidx hlen hsize, if_pos hroom]
  · rw [if_neg hidx]
    constructor
    · rintro ⟨dst, htaken, hQ⟩
      have hlt := getNextValidString_lt htaken
      have hsize : space.length + token.length < 2 ^ 31 := by omega
      rw [getNextValidString_missed h.blank h.toIsToken hidx hsize] at htaken
      by_cases hempty : space = []
      · obtain ⟨_, rfl⟩ := Prod.mk.inj (Except.ok.inj htaken)
        exact ⟨hsize, hempty, hQ⟩
      · rw [if_neg hempty] at htaken
        obtain ⟨hzero, _⟩ := Prod.mk.inj (Except.ok.inj htaken)
        omega
    · rintro ⟨hsize, hempty, hQ⟩
      refine ⟨old, ?_, hQ⟩
      rw [getNextValidString_missed h.blank h.toIsToken hidx hsize, if_pos hempty, hempty,
        List.length_nil, Int.natCast_zero, Int.zero_add]

theorem TokenAt.nextIdx_of_short {space token s : CString} (h : TokenAt space token s)
    (hshort : (space ++ (token ++ s)).length < 2 ^ 31)
    (htaken : getNextValidString room (space ++ (token ++ s)) (strlen (space ++ (token ++ s))) old =
      .ok (n, dst)) : n = space.length + token.length := by
  have hpos := List.length_pos_of_ne_nil h.ne
  have hlen : (space ++ (token ++ s)).length = space.length + (token.length + s.length) := by
    rw [List.length_append, List.length_append]
  have hidx : (space.length : Int) < int32 (space ++ (token ++ s)).length := by
    rw [int32_eq] <;> omega
  rw [strlen_eq_length h.nul,
    getNextValidString_found h.blank h.toIsToken hidx (by omega) (by omega)] at htaken
  split at htaken
  · exact (Prod.mk.inj (Except.ok.inj htaken)).1.symm
  · cases htaken

end BiosKernel
