import BiosKernel.Libc.Text
import Mathlib.Logic.Function.Basic

namespace BiosKernel
open Words
set_option autoImplicit true

def argMax : Nat := 16

def maxCmdsCache : Nat := 16

/-- The arguments of a slot: `ARG_MAX` pointers, each to a buffer or `NULL`. -/
abbrev Args := Nat → Option CString

structure Tty where
  cache : Int → Option Args
  cargc : Int → Nat
  ci : Int
  tci : Int
  currWd : CString
  alive : Bool
  active : Bool

/-- What `shell_init` leaves of the zeroed `tty0`. -/
def initTty : Tty where
  cache _ := none
  cargc _ := 0
  ci := 0
  tci := 0
  currWd := [47]
  alive := true
  active := true

/-- The part of the body of `get_cmd`'s loop that copies a token to its buffer. -/
def copyToken (ptr token : CString) : CString :=
  let len := min (strlen token) (argMax - 1)
  let ptr := List.replicate (strlen ptr) 0 ++ ptr.drop (strlen ptr)
  let ptr := token.take len ++ ptr.drop len
  ptr.set (len + 1) 0

/-- The loop of `get_cmd`, with the number of arguments it has still room for. A buffer from
`malloc` is zero. -/
def storeArgs : Nat → Nat → Option CString → Option CString → Args → Nat × Args
  | room + 1, argc, some token, start, args =>
    let ptr := (args argc).getD []
    let next := strtok start argvDelim
    storeArgs room (argc + 1) next.1 next.2 (Function.update args argc (some (copyToken ptr token)))
  | _, argc, _, _, args => (argc, args)

/-- The slot of the command, and the state behind it. -/
def Tty.getCmd (tty : Tty) (line : CString) : Int × Tty :=
  let argv := ftrimwhitespace (fgets (argMax * argMax) line) false
  let (token, start) := strtok (some argv) argvDelim
  let args := (tty.cache tty.ci).getD fun _ => none
  let ciBefore := tty.ci
  match token with
  | none =>
    (ciBefore, { tty with
      cargc := Function.update tty.cargc tty.ci 0
      cache := Function.update tty.cache tty.ci (some args) })
  | some token =>
    let (argc, args) := storeArgs argMax 0 (some token) start args
    let ci := (tty.ci + 1).tmod maxCmdsCache
    (ciBefore, { tty with
      cargc := Function.update tty.cargc tty.ci argc
      cache := Function.update tty.cache tty.ci (some args)
      ci := ci
      tci := ci })

/-- What a buffer holds behind its string where the next string of `len` bytes ends. -/
def residue (ptr : CString) (len : Nat) : CString :=
  if len ≤ strlen ptr ∨ ptr.getD len 0 = 0 then [] else [ptr.getD len 0]

theorem text_set_one (s : CString) :
    CString.text (s.set 1 0) = if s.getD 0 0 = 0 then [] else [s.getD 0 0] := by
  cases s with
  | nil => rfl
  | cons c s =>
    rw [List.set_cons_succ, List.getD_cons_zero]
    by_cases hc : c = 0
    · rw [if_pos hc, hc]
      rfl
    · rw [if_neg hc, CString.text_cons hc]
      cases s with
      | nil => rfl
      | cons d s => rfl

theorem getD_cleared (s : CString) (len : Nat) :
    ((List.replicate (strlen s) 0 ++ s.drop (strlen s)).drop len).getD 0 0 =
      if len < strlen s then 0 else s.getD len 0 := by
  rw [List.getD_eq_getElem?_getD, List.getElem?_drop, Nat.add_zero]
  split
  · rename_i h
    rw [List.getElem?_append_left (by rwa [List.length_replicate]), List.getElem?_replicate,
      if_pos h, Option.getD_some]
  · rename_i h
    rw [List.getElem?_append_right (by rw [List.length_replicate]; omega), List.length_replicate,
      List.getElem?_drop, List.getD_eq_getElem?_getD, Nat.add_sub_cancel' (Nat.le_of_not_lt h)]

theorem residue_eq (ptr : CString) (len : Nat) : residue ptr len =
    if (if len < strlen ptr then 0 else ptr.getD len 0) = 0 then []
    else [if len < strlen ptr then 0 else ptr.getD len 0] := by
  rw [residue]
  rcases Nat.lt_trichotomy len (strlen ptr) with hlt | rfl | hgt
  · rw [if_pos (.inl (Nat.le_of_lt hlt)), if_pos (if_pos hlt)]
  · rw [if_pos (.inl (Nat.le_refl _)), if_pos]
    rw [if_neg (Nat.lt_irrefl _), getD_strlen]
  · have hkept : (if len < strlen ptr then 0 else ptr.getD len 0) = ptr.getD len 0 :=
      if_neg (Nat.lt_asymm hgt)
    rw [hkept]
    simp only [Nat.not_le_of_lt hgt, false_or]

theorem copyToken_eq (h0 : 0 ∉ token) (ptr : CString) : copyToken ptr token =
    token.take 15 ++ ((List.replicate (strlen ptr) 0 ++ ptr.drop (strlen ptr)).drop
      (token.take 15).length).set 1 0 := by
  have hlen : min (strlen token) (argMax - 1) = (token.take 15).length := by
    rw [strlen_eq_length h0, List.length_take, Nat.min_comm]
    rfl
  have htake : token.take (token.take 15).length = token.take 15 := by
    rw [List.length_take, List.take_eq_take_iff]
    omega
  simp only [copyToken, hlen, htake]
  rw [List.set_append_right _ _ (Nat.le_add_right _ _), Nat.add_sub_cancel_left]

/-- A copied token is followed by what the buffer held there, unless that was cleared. -/
theorem text_copyToken (h0 : 0 ∉ token) (ptr : CString) : (copyToken ptr token).text =
    token.take 15 ++ residue ptr (token.take 15).length := by
  rw [copyToken_eq h0, CString.text_append fun h => h0 (List.mem_of_mem_take h), text_set_one,
    getD_cleared, residue_eq]

/-- The arguments with the words `ws` copied to them from `argc` on. -/
def putWords : Nat → List CString → Args → Args
  | _, [], args => args
  | argc, w :: ws, args =>
    putWords (argc + 1) ws (Function.update args argc (some (copyToken ((args argc).getD []) w)))

theorem storeArgs_eq {ws : List CString} (hy : Yields start ws.tail) (room argc : Nat)
    (args : Args) :
    storeArgs room argc ws.head? start args =
      (argc + (ws.take room).length, putWords argc (ws.take room) args) := by
  induction room generalizing argc ws start args with
  | zero => simp only [storeArgs, List.take_zero, List.length_nil, Nat.add_zero, putWords]
  | succ room ih =>
    cases ws with
    | nil => rfl
    | cons w ws =>
      rw [List.tail_cons] at hy
      obtain ⟨hnext, hrest⟩ := hy.strtok
      rw [List.head?_cons, storeArgs, hnext, ih hrest _, List.take_succ_cons, List.length_cons,
        putWords, Nat.add_assoc, Nat.add_comm 1]

theorem putWords_of_lt (hj : j < argc) : putWords argc ws args j = args j := by
  induction ws generalizing argc args with
  | nil => rfl
  | cons w ws ih =>
    rw [putWords, ih (Nat.lt_succ_of_lt hj), Function.update_of_ne (Nat.ne_of_lt hj)]

theorem putWords_at (argc : Nat) (ws : List CString) (args : Args) (k : Nat) :
    putWords argc ws args (argc + k) =
      match ws[k]? with
      | some w => some (copyToken ((args (argc + k)).getD []) w)
      | none => args (argc + k) := by
  induction ws generalizing argc args k with
  | nil => rfl
  | cons w ws ih =>
    rw [putWords]
    cases k with
    | zero =>
      exact (putWords_of_lt (Nat.lt_succ_self argc)).trans (Function.update_self ..)
    | succ k =>
      have hk : argc + (k + 1) = argc + 1 + k := by omega
      rw [hk, ih, List.getElem?_cons_succ, Function.update_of_ne (by omega)]

/-- The words that `get_cmd` takes from a line: none if it begins with a space. -/
def commandWords (line : CString) : List CString :=
  if line.head? = some space then [] else (words space line).take argMax

theorem Tty.getCmd_eq (tty : Tty) (h0 : 0 ∉ fgets 256 line) : tty.getCmd line =
    let ws := commandWords (fgets 256 line)
    let args := putWords 0 ws ((tty.cache tty.ci).getD fun _ => none)
    let ci := if ws = [] then tty.ci else (tty.ci + 1).tmod maxCmdsCache
    (tty.ci, { tty with
      cargc := Function.update tty.cargc tty.ci ws.length
      cache := Function.update tty.cache tty.ci (some args)
      ci := ci
      tci := if ws = [] then tty.tci else ci }) := by
  have hfgets : fgets (argMax * argMax) line = fgets 256 line := rfl
  obtain ⟨htoken, hstart⟩ := strtok_ftrimwhitespace h0
  rw [getCmd, hfgets]
  generalize fgets 256 line = line' at htoken hstart ⊢
  by_cases hspace : line'.head? = some space
  · rw [if_pos hspace] at htoken
    simp only [htoken, commandWords, if_pos hspace, putWords, List.length_nil, if_pos]
  · rw [if_neg hspace] at htoken
    have hy := hstart hspace
    simp only [commandWords, if_neg hspace]
    cases hws : words space line' with
    | nil =>
      rw [hws, List.head?_nil] at htoken
      simp only [htoken, List.take_nil, putWords, List.length_nil, if_pos]
    | cons w ws =>
      rw [hws] at hy
      rw [hws, List.head?_cons] at htoken
      have hloop := storeArgs_eq hy argMax 0 ((tty.cache tty.ci).getD fun _ => none)
      have hne : (w :: ws).take argMax ≠ [] := List.cons_ne_nil _ _
      rw [List.head?_cons] at hloop
      simp only [htoken, hloop, Nat.zero_add, if_neg hne]

theorem fgets_of_length_lt {line : CString} (h : line.length < 256) : fgets 256 line = line :=
  List.take_of_length_le (Nat.le_of_lt_succ h)

namespace Tty

/-- `cache[slot][j]`. -/
def arg (tty : Tty) (slot : Int) (j : Nat) : Option CString := (tty.cache slot).bind (· j)

theorem getCmd_fst (tty : Tty) (h0 : 0 ∉ fgets 256 line) : (tty.getCmd line).1 = tty.ci := by
  rw [tty.getCmd_eq h0]

theorem getCmd_cargc (tty : Tty) (h0 : 0 ∉ fgets 256 line) : (tty.getCmd line).2.cargc =
    Function.update tty.cargc tty.ci (commandWords (fgets 256 line)).length := by
  rw [tty.getCmd_eq h0]

theorem getCmd_ci (tty : Tty) (h0 : 0 ∉ fgets 256 line) : (tty.getCmd line).2.ci =
    if commandWords (fgets 256 line) = [] then tty.ci else (tty.ci + 1).tmod maxCmdsCache := by
  rw [tty.getCmd_eq h0]

theorem getCmd_tci (tty : Tty) (h0 : 0 ∉ fgets 256 line) : (tty.getCmd line).2.tci =
    if commandWords (fgets 256 line) = [] then tty.tci else (tty.ci + 1).tmod maxCmdsCache := by
  rw [tty.getCmd_eq h0]
  split
  · rename_i h
    simp only [if_pos h]
  · rename_i h
    simp only [if_neg h]

theorem getCmd_arg (tty : Tty) (h0 : 0 ∉ fgets 256 line) (j : Nat) :
    (tty.getCmd line).2.arg tty.ci j =
      match (commandWords (fgets 256 line))[j]? with
      | some w => some (copyToken ((tty.arg tty.ci j).getD []) w)
      | none => tty.arg tty.ci j := by
  have hold : (tty.cache tty.ci).getD (fun _ => none) j = tty.arg tty.ci j := by
    rw [arg]
    cases tty.cache tty.ci with
    | none => rfl
    | some args => rfl
  have hput := putWords_at 0 (commandWords (fgets 256 line))
    ((tty.cache tty.ci).getD fun _ => none) j
  rw [Nat.zero_add, hold] at hput
  rw [tty.getCmd_eq h0, arg]
  simp only [Function.update_self, Option.bind_some, hput]

theorem getCmd_arg_of_ne {tty : Tty} (h0 : 0 ∉ fgets 256 line) (hs : slot ≠ tty.ci) (j : Nat) :
    (tty.getCmd line).2.arg slot j = tty.arg slot j := by
  rw [tty.getCmd_eq h0, arg, arg]
  simp only [Function.update_of_ne hs]

theorem getCmd_arg_cases {tty : Tty} (h0 : 0 ∉ fgets 256 line)
    (h : (tty.getCmd line).2.arg slot j = some ptr) : tty.arg slot j = some ptr ∨
      (slot = tty.ci ∧ ∃ w, (commandWords (fgets 256 line))[j]? = some w) := by
  by_cases hslot : slot = tty.ci
  · subst hslot
    rw [tty.getCmd_arg h0] at h
    cases hw : (commandWords (fgets 256 line))[j]? with
    | none =>
      rw [hw] at h
      exact .inl h
    | some w => exact .inr ⟨rfl, w, rfl⟩
  · rw [getCmd_arg_of_ne h0 hslot] at h
    exact .inl h

/-- The slot of the command has the words of the line as its arguments, each cut to 15
characters. -/
def StoresWords (tty : Tty) (line : CString) : Prop :=
  (tty.getCmd line).2.cargc (tty.getCmd line).1 = min argMax (words space line).length ∧
    ∀ (j : Nat) (w : CString), j < argMax → (words space line)[j]? = some w →
      ∃ ptr, (tty.getCmd line).2.arg (tty.getCmd line).1 j = some ptr ∧ ptr.text = w.take 15

/-- The buffers that the slot has for the words of the line hold zeros where these end, or longer
strings. -/
def BuffersFit (tty : Tty) (line : CString) : Prop :=
  ∀ (j : Nat) (w ptr : CString), j < argMax → (words space line)[j]? = some w →
    tty.arg tty.ci j = some ptr →
    (w.take 15).length ≤ strlen ptr ∨ ptr.getD (w.take 15).length 0 = 0

end Tty

theorem residue_eq_nil_iff {ptr : CString} :
    residue ptr len = [] ↔ len ≤ strlen ptr ∨ ptr.getD len 0 = 0 := by
  rw [residue]
  split
  · rename_i h
    exact ⟨fun _ => h, fun _ => rfl⟩
  · rename_i h
    exact ⟨fun he => absurd he (List.cons_ne_nil _ _), fun hc => absurd hc h⟩

namespace Tty

theorem storesWord_iff {tty : Tty} {line w : CString} (h0 : 0 ∉ line) (hl : line.length < 256)
    (hspace : line.head? ≠ some space) (hj : j < argMax) (hw : (words space line)[j]? = some w) :
    (∃ ptr, (tty.getCmd line).2.arg tty.ci j = some ptr ∧ ptr.text = w.take 15) ↔
      ∀ ptr, tty.arg tty.ci j = some ptr →
        (w.take 15).length ≤ strlen ptr ∨ ptr.getD (w.take 15).length 0 = 0 := by
  have hw0 : 0 ∉ w := fun h => h0 (word_subset (List.mem_of_getElem? hw) h)
  have hline := fgets_of_length_lt hl
  rw [tty.getCmd_arg (hline.symm ▸ h0), hline, commandWords, if_neg hspace,
    List.getElem?_take_of_lt hj, hw]
  simp only [Option.some.injEq, exists_eq_left', text_copyToken hw0, List.append_right_eq_self,
    residue_eq_nil_iff]
  cases tty.arg tty.ci j with
  | none => exact ⟨fun _ => nofun, fun _ => .inr rfl⟩
  | some ptr =>
    refine ⟨?_, fun h => h ptr rfl⟩
    rintro h _ ⟨⟩
    exact h

/-- A line is split into its words exactly if it does not begin with a space, or has no word, and
the buffers of its slot hold nothing behind their strings that would be left. -/
theorem storesWords_iff (tty : Tty) (line : CString) (h0 : 0 ∉ line) (hl : line.length < 256) :
    tty.StoresWords line ↔
      (line.head? = some space → words space line = []) ∧ tty.BuffersFit line := by
  have hline := fgets_of_length_lt hl
  have h0' : 0 ∉ fgets 256 line := hline.symm ▸ h0
  rw [StoresWords, tty.getCmd_fst h0', tty.getCmd_cargc h0', hline, Function.update_self,
    commandWords]
  by_cases hspace : line.head? = some space
  · rw [if_pos hspace]
    constructor
    · rintro ⟨hcount, -⟩
      have hnil : words space line = [] := by
        rw [← List.length_eq_zero_iff]
        simp only [List.length_nil, argMax] at hcount
        omega
      refine ⟨fun _ => hnil, ?_⟩
      intro j w ptr _ hw
      rw [hnil] at hw
      cases hw
    · rintro ⟨hnil, -⟩
      rw [hnil hspace]
      exact ⟨rfl, fun j w _ hw => nomatch hw⟩
  · rw [if_neg hspace, List.length_take]
    constructor
    · rintro ⟨-, h⟩
      refine ⟨fun hs => absurd hs hspace, ?_⟩
      intro j w ptr hj hw
      exact (storesWord_iff h0 hl hspace hj hw).mp (h j w hj hw) ptr
    · rintro ⟨-, h⟩
      refine ⟨rfl, ?_⟩
      intro j w hj hw
      exact (storesWord_iff h0 hl hspace hj hw).mpr fun ptr => h j w ptr hj hw

/-- `ls /mnt`, from the beginning: there are no buffers yet. -/
theorem storesWords_ls : initTty.StoresWords [108, 115, 32, 47, 109, 110, 116] := by
  refine (storesWords_iff initTty _ (by decide) (by decide)).mpr ⟨?_, ?_⟩
  · exact fun hspace => absurd hspace (by decide)
  · intro j w ptr _ _ hptr
    cases hptr

/-- A space before the command: ` ls` is stored without a word. -/
theorem leading_space_not_stored : (initTty.getCmd [32, 108, 115]).2.cargc 0 = 0 ∧
    words space [32, 108, 115] = [[108, 115]] ∧ ¬ initTty.StoresWords [32, 108, 115] := by
  have hcount : (initTty.getCmd [32, 108, 115]).2.cargc 0 = 0 := by decide
  have hwords : words space [32, 108, 115] = [[108, 115]] := by decide
  refine ⟨hcount, hwords, ?_⟩
  rintro ⟨h, -⟩
  rw [hwords] at h
  exact absurd (hcount.symm.trans h) (by decide)

end Tty

end BiosKernel
