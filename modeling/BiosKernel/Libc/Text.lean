import BiosKernel.Lib.Words
import BiosKernel.Libc.CString
import Mathlib.Algebra.GroupWithZero.Nat

namespace BiosKernel
open Words
set_option autoImplicit true

/-- The string at a pointer, without its terminator. -/
def CString.text (s : CString) : CString := s.takeWhile (· ≠ 0)

def strlen (s : CString) : Nat := s.text.length

def space : UInt8 := 32

/-- What `fgets` stores of the characters that are typed before the end of the line. It has room for
`n` bytes with the terminator. -/
def fgets (n : Nat) (line : CString) : CString := line.take (n - 1)

/-- `ftrimwhitespace`, with the flag that the last character was a space. -/
def ftrimwhitespace : CString → Bool → CString
  | [], _ => []
  | c :: s, sf =>
    if c = 0 then []
    else if c ≠ space then c :: ftrimwhitespace s false
    else if sf then ftrimwhitespace s true
    else space :: ftrimwhitespace s true

/-- One call of `strtok` with its static pointer: the token, or none, and the pointer behind it. -/
def strtok (start : Option CString) (delim : CString) : Option CString × Option CString :=
  match start with
  | none => (none, none)
  | some s =>
    let token := s.takeWhile fun c => c ≠ 0 ∧ (strchr delim c).isNone
    let rest : CString := s.drop token.length
    if token = [] then (none, none)
    else if rest.at0 = 0 then (some token, none)
    else (some token, some rest.tail)

/-- `ARGV_DELIM`. -/
def argvDelim : CString := [space]

/-- The loop of `strjoin` over `n` pointers from `argv[i]` on. -/
def strjoinLoop (argv : Int → Option CString) (delim : CString) : Int → Nat → Option CString
  | _, 0 => some []
  | i, n + 1 => do
    let src ← argv i
    let rest ← strjoinLoop argv delim (i + 1) n
    return src.text ++ delim.text ++ rest

/-- What `strjoin` writes to an empty string, without the terminator. No result stands for a
pointer that is read outside the array, or is `NULL`. -/
def strjoin (argc : Int) (argv : Int → Option CString) (delim : CString) : Option CString := do
  let front ← strjoinLoop argv delim 0 (argc - 1).toNat
  let src ← argv (argc - 1)
  return front ++ src.text

theorem CString.text_take_succ (s : CString) (n : Nat) : CString.text (s.take (n + 1)) =
    if s.at0 = 0 then [] else s.at0 :: CString.text (s.tail.take n) := by
  cases s with
  | nil => rfl
  | cons x s =>
    show CString.text (x :: s.take n) = if x = 0 then [] else x :: CString.text (s.take n)
    rw [CString.text, List.takeWhile_cons, decide_not]
    by_cases hx : x = 0
    · simp [hx]
    · simp [hx, CString.text]

theorem strncmp_eq_zero_iff {a b : CString} :
    strncmp a b n = 0 ↔ CString.text (a.take n) = CString.text (b.take n) := by
  induction n generalizing a b with
  | zero => exact ⟨fun _ => rfl, fun _ => rfl⟩
  | succ n ih =>
    rw [strncmp, CString.text_take_succ, CString.text_take_succ]
    by_cases ha : a.at0 = 0
    · by_cases hb : b.at0 = 0
      · simp [ha, hb]
      · simp [ha, hb]
    · by_cases hb : b.at0 = 0
      · simp [ha, hb]
      · rw [if_neg fun h => ha h.1, if_neg ha, if_neg hb, if_neg ha, if_neg hb, List.cons.injEq,
          ← ih]
        exact byteOrder_eq_zero_iff

theorem strncmp_congr {a a' b b' : CString} (ha : a.take n = a'.take n)
    (hb : b.take n = b'.take n) :
    strncmp a b n = 0 ↔ strncmp a' b' n = 0 := by
  rw [strncmp_eq_zero_iff, strncmp_eq_zero_iff, ha, hb]

theorem strncmp_eq_zero_of_le {a b : CString} (hn : n ≤ m) (h : strncmp a b m = 0) :
    strncmp a b n = 0 := by
  induction n generalizing a b m with
  | zero => rfl
  | succ n ih =>
    cases m with
    | zero => cases hn
    | succ m =>
      rw [strncmp] at h ⊢
      by_cases h0 : a.at0 = 0 ∧ b.at0 = 0
      · exact if_pos h0
      · rw [if_neg h0] at h ⊢
        by_cases ha : a.at0 = 0
        · rw [if_pos ha] at h
          cases h
        · by_cases hb : b.at0 = 0
          · rw [if_neg ha, if_pos hb] at h
            cases h
          · rw [if_neg ha, if_neg hb] at h ⊢
            obtain ⟨he, htail⟩ := byteOrder_eq_zero_iff.mp h
            exact byteOrder_eq_zero_iff.mpr ⟨he, ih (Nat.le_of_succ_le_succ hn) htail⟩

theorem CString.text_take_congr {a b : CString} (h : ∀ i < n, a.getD i 0 = b.getD i 0) :
    CString.text (a.take n) = CString.text (b.take n) := by
  induction n generalizing a b with
  | zero => rfl
  | succ n ih =>
    have h0 : a.at0 = b.at0 := by
      have h0 := h 0 (Nat.succ_pos n)
      cases a <;> cases b <;> exact h0
    have htail : CString.text (a.tail.take n) = CString.text (b.tail.take n) := by
      refine ih fun i hi => ?_
      have hi := h (i + 1) (Nat.succ_lt_succ hi)
      cases a <;> cases b <;> exact hi
    rw [CString.text_take_succ, CString.text_take_succ, h0, htail]

theorem CString.text_append (hx : 0 ∉ x) (s : CString) :
    CString.text (x ++ s) = x ++ CString.text s := by
  apply List.takeWhile_append_of_pos
  intro c hc
  exact decide_eq_true fun h => hx (h ▸ hc)

theorem CString.text_eq_self (hx : 0 ∉ x) : CString.text x = x := by
  have h := CString.text_append hx []
  rwa [List.append_nil, show CString.text [] = [] from rfl, List.append_nil] at h

theorem CString.text_cons (hc : c ≠ 0) (s : CString) :
    CString.text (c :: s) = c :: CString.text s :=
  CString.text_append (fun h => hc (List.mem_singleton.mp h).symm) s

theorem CString.eq_cons_of_at0 {s : CString} (h : s.at0 = c) (hc : c ≠ 0) : s = c :: s.tail := by
  cases s with
  | nil => exact absurd h.symm hc
  | cons d s =>
    cases h
    rfl

theorem CString.text_eq_nil_iff {s : CString} : s.text = [] ↔ s.at0 = 0 := by
  cases s with
  | nil => exact ⟨fun _ => rfl, fun _ => rfl⟩
  | cons a s =>
    by_cases ha : a = 0
    · exact ⟨fun _ => ha, fun _ => by rw [ha]; rfl⟩
    · rw [CString.text_cons ha]
      exact ⟨fun h => absurd h (List.cons_ne_nil _ _), fun h => absurd h ha⟩

/-- Comparing `n` bytes and then asking for the terminator tells whether a name is the first `n`
bytes of a longer text. -/
theorem memcmp_text_iff {name s : CString} (hs : 0 ∉ s.take n) (hn : n ≤ s.length) :
    memcmp name s n = 0 ∧ CString.at0 (name.drop n) = 0 ↔ name.text = s.take n := by
  induction n generalizing name s with
  | zero =>
    rw [List.drop_zero, List.take_zero, CString.text_eq_nil_iff]
    exact ⟨fun h => h.2, fun h => ⟨rfl, h⟩⟩
  | succ n ih =>
    cases s with
    | nil => cases hn
    | cons b s =>
      rw [List.take_succ_cons] at hs ⊢
      have hb : b ≠ 0 := fun h => hs (h ▸ List.mem_cons_self)
      cases name with
      | nil =>
        have hlt : (0 : UInt8) < b := UInt8.pos_iff_ne_zero.mpr hb
        have hcmp : memcmp [] (b :: s) (n + 1) = -1 := if_pos hlt
        rw [hcmp]
        exact ⟨fun h => absurd h.1 (by decide), fun h => absurd h.symm (List.cons_ne_nil _ _)⟩
      | cons a name =>
        have htail := @ih name s (fun h => hs (List.mem_cons_of_mem b h))
          (Nat.le_of_succ_le_succ hn)
        rw [memcmp_cons_iff, List.drop_succ_cons, and_assoc, htail]
        by_cases ha : a = 0
        · have hnil : CString.text (a :: name) = [] := CString.text_eq_nil_iff.mpr ha
          rw [hnil]
          exact ⟨fun h => absurd (h.1 ▸ ha) hb, fun h => absurd h.symm (List.cons_ne_nil _ _)⟩
        · rw [CString.text_cons ha, List.cons.injEq]

theorem strlen_eq_length (hx : 0 ∉ x) : strlen x = x.length :=
  congrArg List.length (CString.text_eq_self hx)

theorem getD_strlen (s : CString) : s.getD (strlen s) 0 = 0 := by
  induction s with
  | nil => rfl
  | cons c s ih =>
    by_cases hc : c = 0
    · rw [hc]
      rfl
    · rw [strlen, CString.text_cons hc, List.length_cons, List.getD_cons_succ]
      exact ih

theorem strchr_singleton_isNone (hc : c ≠ 0) (d : UInt8) : (strchr [d] c).isNone ↔ c ≠ d := by
  by_cases h : c = d
  · subst h
    rw [strchr, if_neg hc, if_pos rfl]
    exact ⟨fun h => absurd h Bool.false_ne_true, fun h => absurd rfl h⟩
  · have hnone : strchr [d] c = none :=
      strchr_of_not_mem (fun hm => h (List.mem_singleton.mp hm)) hc
    rw [hnone]
    exact ⟨fun _ => h, fun _ => rfl⟩

theorem ftrimwhitespace_append (hx : space ∉ x) (h0 : 0 ∉ x) (hne : x ≠ []) (s : CString)
    (sf : Bool) : ftrimwhitespace (x ++ s) sf = x ++ ftrimwhitespace s false := by
  induction x generalizing sf with
  | nil => exact absurd rfl hne
  | cons c x ih =>
    obtain ⟨hc, hx⟩ := not_or.mp (mt List.mem_cons.mpr hx)
    obtain ⟨hc0, h0⟩ := not_or.mp (mt List.mem_cons.mpr h0)
    rw [List.cons_append, ftrimwhitespace, if_neg (Ne.symm hc0), if_pos (Ne.symm hc)]
    cases x with
    | nil => rfl
    | cons d x =>
      rw [ih hx h0 (List.cons_ne_nil _ _)]
      rfl

/-- The strings that a row of pointers leads to. -/
def Points (argv : Int → Option CString) (i : Int) (texts : List CString) : Prop :=
  ∀ (k : Nat) (t : CString), texts[k]? = some t → ∃ ptr, argv (i + k) = some ptr ∧ ptr.text = t

theorem Points.tail (h : Points argv i (t :: texts)) : Points argv (i + 1) texts := by
  intro k u hu
  obtain ⟨ptr, hptr, htext⟩ := h (k + 1) u hu
  rw [show i + ((k + 1 : Nat) : Int) = i + 1 + k by omega] at hptr
  exact ⟨ptr, hptr, htext⟩

theorem Points.head (h : Points argv i (t :: texts)) : ∃ ptr, argv i = some ptr ∧ ptr.text = t := by
  obtain ⟨ptr, hptr, htext⟩ := h 0 t rfl
  refine ⟨ptr, ?_, htext⟩
  rwa [show i + ((0 : Nat) : Int) = i by omega] at hptr

theorem Points.shift (h : Points argv i texts) : Points (fun k => argv (k + i)) 0 texts := by
  intro k t ht
  obtain ⟨ptr, hptr, htext⟩ := h k t ht
  refine ⟨ptr, ?_, htext⟩
  show argv (0 + k + i) = some ptr
  rwa [show (0 : Int) + k + i = i + k by omega]

theorem strjoinLoop_eq (h : Points argv i texts) : strjoinLoop argv delim i texts.length =
    some (texts.flatMap (· ++ delim.text)) := by
  induction texts generalizing i with
  | nil => rfl
  | cons t texts ih =>
    obtain ⟨ptr, hptr, htext⟩ := h.head
    rw [List.length_cons, strjoinLoop, hptr, ih h.tail, List.flatMap_cons, ← htext]
    rfl

theorem strjoin_eq (h : Points argv 0 (texts ++ [t])) : strjoin (texts.length + 1) argv delim =
    some (texts.flatMap (· ++ delim.text) ++ t) := by
  have hfront : Points argv 0 texts := by
    intro k u hu
    apply h k u
    rw [List.getElem?_append_left (List.getElem?_eq_some_iff.mp hu).1, hu]
  obtain ⟨ptr, hptr, htext⟩ := h texts.length t List.getElem?_concat_length
  rw [Int.zero_add] at hptr
  have hn : ((texts.length : Int) + 1 - 1).toNat = texts.length := by omega
  have hi : (texts.length : Int) + 1 - 1 = texts.length := by omega
  rw [strjoin, hn, hi, strjoinLoop_eq hfront, hptr, ← htext]
  rfl

theorem length_flatMap_append (texts : List CString) (d : CString) :
    (texts.flatMap (· ++ d)).length = (texts.map List.length).sum + texts.length * d.length := by
  induction texts with
  | nil => rw [List.length_nil, Nat.zero_mul]; rfl
  | cons t texts ih =>
    rw [List.flatMap_cons, List.length_append, List.length_append, ih, List.map_cons, List.sum_cons,
      List.length_cons, Nat.succ_mul]
    omega

theorem strjoin_length (h : Points argv 0 (t :: texts)) (delim : CString) :
    ∃ out, strjoin (texts.length + 1) argv delim = some out ∧
      out.length = ((t :: texts).map List.length).sum + texts.length * delim.text.length := by
  obtain ⟨front, last, hsplit⟩ : ∃ front last, t :: texts = front ++ [last] :=
    ⟨_, _, (List.dropLast_append_getLast (List.cons_ne_nil t texts)).symm⟩
  have hlen : texts.length = front.length := by
    have := congrArg List.length hsplit
    rw [List.length_cons, List.length_append, List.length_singleton] at this
    omega
  rw [hsplit] at h
  refine ⟨_, by rw [hlen, strjoin_eq h], ?_⟩
  rw [hsplit, List.length_append, length_flatMap_append, List.map_append, List.sum_append, hlen,
    List.map_singleton, List.sum_singleton]
  omega

/-- The static pointer of `strtok` is where the words `ws` follow. -/
inductive Yields : Option CString → List CString → Prop
  | done : Yields none []
  | at (s : CString) (h0 : 0 ∉ s) : Yields (some (ftrimwhitespace s true)) (words space s)

theorem takeWhile_token (hx : d ∉ x) (h0 : 0 ∉ x) (s : CString) :
    (x ++ s).takeWhile (fun c => c ≠ 0 ∧ (strchr [d] c).isNone) =
      x ++ s.takeWhile fun c => c ≠ 0 ∧ (strchr [d] c).isNone := by
  apply List.takeWhile_append_of_pos
  intro c hc
  have hc0 : c ≠ 0 := fun h => h0 (h ▸ hc)
  exact decide_eq_true ⟨hc0, (strchr_singleton_isNone hc0 d).mpr fun h => hx (h ▸ hc)⟩

theorem strtok_word (hd : d ≠ 0) (hx : d ∉ x) (h0 : 0 ∉ x) (hne : x ≠ []) (s : CString) :
    strtok (some (x ++ d :: s)) [d] = (some x, some s) := by
  have hstop : (d :: s).takeWhile (fun c => c ≠ 0 ∧ (strchr [d] c).isNone) = [] := by
    refine List.takeWhile_cons_of_neg fun h => ?_
    exact (strchr_singleton_isNone hd d).mp (of_decide_eq_true h).2 rfl
  simp only [strtok, takeWhile_token hx h0, hstop, List.append_nil, if_neg hne, List.drop_left]
  exact if_neg hd

theorem strtok_last (hx : d ∉ x) (h0 : 0 ∉ x) (hne : x ≠ []) :
    strtok (some x) [d] = (some x, none) := by
  have htoken := takeWhile_token hx h0 []
  rw [List.append_nil, List.takeWhile_nil, List.append_nil] at htoken
  simp only [strtok, htoken, if_neg hne, List.drop_length]
  rfl

theorem Yields.strtok (h : Yields start ws) : (strtok start argvDelim).1 = ws.head? ∧
    Yields (strtok start argvDelim).2 ws.tail := by
  cases h with
  | done => exact ⟨rfl, .done⟩
  | «at» s h0 =>
    induction s using words_induction space with
    | nil => exact ⟨rfl, .done⟩
    | skip s ih =>
      rw [words_sep_cons]
      exact ih fun h => h0 (List.mem_cons_of_mem _ h)
    | last x hx hne =>
      have hkeep := ftrimwhitespace_append hx h0 hne [] true
      rw [List.append_nil, ftrimwhitespace, List.append_nil] at hkeep
      rw [words_of_not_mem hx hne, hkeep, argvDelim, strtok_last hx h0 hne]
      exact ⟨rfl, .done⟩
    | word x s hx hne ih =>
      have hx0 : 0 ∉ x := fun h => h0 (List.mem_append_left _ h)
      have hs0 : 0 ∉ s := fun h => h0 (List.mem_append_right _ (List.mem_cons_of_mem _ h))
      have hkeep : ftrimwhitespace (x ++ space :: s) true =
          x ++ space :: ftrimwhitespace s true := ftrimwhitespace_append hx hx0 hne _ true
      rw [words_append hx hne, hkeep, argvDelim, strtok_word (by decide) hx hx0 hne]
      exact ⟨rfl, .at s hs0⟩

/-- A line that does not begin with a space yields all its words, and one that does yields none. -/
theorem strtok_ftrimwhitespace (h0 : 0 ∉ line) :
    (strtok (some (ftrimwhitespace line false)) argvDelim).1 =
        (if line.head? = some space then none else (words space line).head?) ∧
      (line.head? ≠ some space →
        Yields (strtok (some (ftrimwhitespace line false)) argvDelim).2
          (words space line).tail) := by
  cases line with
  | nil => exact ⟨rfl, fun _ => .done⟩
  | cons c s =>
    by_cases hc : c = space
    · subst hc
      exact ⟨rfl, fun h => absurd rfl h⟩
    · have hhead : (c :: s).head? ≠ some space := fun h => hc (Option.some.inj h)
      have hsame : ftrimwhitespace (c :: s) false = ftrimwhitespace (c :: s) true := by
        rw [ftrimwhitespace, ftrimwhitespace, if_pos hc, if_pos hc]
      rw [hsame, if_neg hhead]
      have h := (Yields.at (c :: s) h0).strtok
      exact ⟨h.1, fun _ => h.2⟩

end BiosKernel
