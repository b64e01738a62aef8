import BiosKernel.Lib.Runs
import BiosKernel.Shell.Tty
import Mathlib.Algebra.Order.BigOperators.Group.List
import Mathlib.Algebra.Order.Group.Nat

namespace BiosKernel
open Runs Words
set_option autoImplicit true

namespace Tty

/-- `cache[slot]` as an array of `ARG_MAX` pointers. -/
def argv (tty : Tty) (slot : Int) (i : Int) : Option CString :=
  if 0 ≤ i ∧ i < argMax then tty.arg slot i.toNat else none

/-- The state behind the call, with the string that it inserts. -/
def traverseCache (tty : Tty) (offset : Int) : Option (Tty × Option CString) :=
  let tmptci := tty.tci
  let tci := tty.tci + offset
  let tci := if tci < 0 then maxCmdsCache + tci else tci
  let tci := tci.tmod maxCmdsCache
  if tci = tty.ci ∨ tty.arg tci 0 = none then some ({ tty with tci := tmptci }, none)
  else
    (strjoin (tty.cargc tci) (tty.argv tci) argvDelim).map fun dst =>
      ({ tty with tci := tci }, some dst)

end Tty

inductive HistoryOp where
  | getCmd (line : CString)
  | next
  | previous

/-- The shell with a record of the words of the line that was stored last in each slot, and of what
the last call has inserted. -/
structure HistoryRun where
  tty : Tty
  stored : Int → List CString
  inserted : Option CString

namespace HistoryRun

def start : HistoryRun := ⟨initTty, fun _ => [], none⟩

def traverse (s : HistoryRun) (offset : Int) : Option HistoryRun :=
  (s.tty.traverseCache offset).map fun r => { s with tty := r.1, inserted := r.2 }

def step (s : HistoryRun) : HistoryOp → Option HistoryRun
  | .getCmd line =>
    let r := s.tty.getCmd line
    some
      { tty := r.2
        stored :=
          if r.2.cargc r.1 = 0 then s.stored
          else Function.update s.stored r.1 ((words space (fgets 256 line)).take argMax)
        inserted := none }
  | .next => s.traverse 1
  | .previous => s.traverse (-1)

/-- A slot other than the current one that has a first argument has between 1 and 16, and each is a
string of 1 to 15 characters from the word that it was stored for. -/
def SlotsHold (s : HistoryRun) : Prop :=
  ∀ slot : Int, 0 ≤ slot → slot < maxCmdsCache → slot ≠ s.tty.ci → s.tty.arg slot 0 ≠ none →
    1 ≤ s.tty.cargc slot ∧ s.tty.cargc slot ≤ argMax ∧
    ∀ j < s.tty.cargc slot, ∃ ptr w, s.tty.arg slot j = some ptr ∧
      (s.stored slot)[j]? = some w ∧ ptr.text = w.take 15 ∧ 1 ≤ strlen ptr ∧ strlen ptr ≤ 15

structure WellFormed (s : HistoryRun) : Prop where
  ci : 0 ≤ s.tty.ci ∧ s.tty.ci < maxCmdsCache
  tci : 0 ≤ s.tty.tci ∧ s.tty.tci < maxCmdsCache
  slots : s.SlotsHold
  inserted : ∀ dst, s.inserted = some dst → dst.length + 1 ≤ 256

end HistoryRun

/-- Behind its string a buffer holds zeros only. -/
def Clean (ptr : CString) : Prop := ∀ c ∈ ptr.drop (strlen ptr), c = 0

theorem Clean.getD {p : Option CString} (h : ∀ ptr, p = some ptr → Clean ptr) :
    Clean (p.getD []) := by
  cases p with
  | none => exact fun _ hc => nomatch hc
  | some ptr => exact h ptr rfl

theorem clean_append (hx : 0 ∉ x) (hr : ∀ c ∈ r, c = 0) :
    Clean (x ++ r) ∧ CString.text (x ++ r) = x := by
  have hr' : CString.text r = [] := by
    cases r with
    | nil => rfl
    | cons c r =>
      rw [hr c List.mem_cons_self]
      rfl
  have htext : CString.text (x ++ r) = x := by
    rw [CString.text_append hx, hr', List.append_nil]
  refine ⟨?_, htext⟩
  rw [Clean, strlen, htext, List.drop_left]
  exact hr

theorem Clean.copyToken (h : Clean ptr) (h0 : 0 ∉ token) :
    Clean (copyToken ptr token) ∧ (copyToken ptr token).text = token.take 15 := by
  rw [copyToken_eq h0]
  apply clean_append fun h => h0 (List.mem_of_mem_take h)
  intro c hc
  rcases List.mem_or_eq_of_mem_set hc with hc | hc
  · rcases List.mem_append.mp (List.mem_of_mem_drop hc) with hc | hc
    · exact List.eq_of_mem_replicate hc
    · exact h c hc
  · exact hc

theorem commandWords_getElem? (h : (commandWords line)[j]? = some w) :
    w ∈ words space line ∧ j < argMax := by
  rw [commandWords] at h
  split at h
  · cases h
  · have hj : j < ((words space line).take argMax).length := (List.getElem?_eq_some_iff.mp h).1
    rw [List.length_take] at hj
    exact ⟨List.mem_of_mem_take (List.mem_of_getElem? h), by omega⟩

theorem length_commandWords_le (line : CString) : (commandWords line).length ≤ argMax := by
  rw [commandWords]
  split
  · exact Nat.zero_le _
  · exact List.length_take_le ..

namespace HistoryRun

/-- The slot holds the words of the line stored in it. -/
structure Full (s : HistoryRun) (slot : Int) : Prop where
  words : s.stored slot ≠ [] ∧ (s.stored slot).length ≤ argMax
  cargc : s.tty.cargc slot = (s.stored slot).length
  args : ∀ (j : Nat) (w : CString), (s.stored slot)[j]? = some w → w ≠ [] ∧
    ∃ ptr, s.tty.arg slot j = some ptr ∧ ptr.text = w.take 15

structure Tracks (s : HistoryRun) : Prop where
  ci : 0 ≤ s.tty.ci ∧ s.tty.ci < maxCmdsCache
  tci : 0 ≤ s.tty.tci ∧ s.tty.tci < maxCmdsCache
  clean : ∀ slot j ptr, s.tty.arg slot j = some ptr → Clean ptr
  full : ∀ slot : Int, 0 ≤ slot → slot < maxCmdsCache → slot ≠ s.tty.ci →
    s.tty.arg slot 0 ≠ none → s.Full slot
  inserted : ∀ dst, s.inserted = some dst → dst.length + 1 ≤ 256

theorem Tracks.wellFormed {s : HistoryRun} (h : s.Tracks) : s.WellFormed := by
  refine ⟨h.ci, h.tci, ?_, h.inserted⟩
  intro slot h0 hlt hci harg
  obtain ⟨⟨hne, hlen⟩, hcargc, hargs⟩ := h.full slot h0 hlt hci harg
  rw [hcargc]
  refine ⟨List.length_pos_iff.mpr hne, hlen, ?_⟩
  intro j hj
  obtain ⟨hw, ptr, hptr, htext⟩ := hargs j (s.stored slot)[j] (List.getElem?_eq_getElem hj)
  refine ⟨ptr, _, hptr, List.getElem?_eq_getElem hj, htext, ?_⟩
  have hpos : 0 < ((s.stored slot)[j]).length := List.length_pos_iff.mpr hw
  rw [strlen, htext, List.length_take]
  omega

theorem Full.points {s : HistoryRun} (h : s.Full slot) :
    Points (s.tty.argv slot) 0 ((s.stored slot).map (·.take 15)) := by
  intro k t ht
  rw [List.getElem?_map, Option.map_eq_some_iff] at ht
  obtain ⟨w, hw, rfl⟩ := ht
  obtain ⟨-, ptr, hptr, htext⟩ := h.args k w hw
  have hk : k < argMax := Nat.lt_of_lt_of_le (List.getElem?_eq_some_iff.mp hw).1 h.words.2
  refine ⟨ptr, ?_, htext⟩
  rw [Tty.argv, if_pos (by omega), Int.zero_add, Int.toNat_natCast]
  exact hptr

theorem Full.strjoin {s : HistoryRun} (h : s.Full slot) :
    ∃ dst, strjoin (s.tty.cargc slot) (s.tty.argv slot) argvDelim = some dst ∧
      dst.length + 1 ≤ 256 := by
  obtain ⟨hne, hlen⟩ := h.words
  have hpoints := h.points
  rw [h.cargc]
  cases hws : s.stored slot with
  | nil => exact absurd hws hne
  | cons w ws =>
    rw [hws, List.map_cons] at hpoints
    rw [hws, List.length_cons] at hlen
    obtain ⟨dst, hdst, hlength⟩ := strjoin_length hpoints argvDelim
    have hshort : ∀ n ∈ ((w :: ws).map (·.take 15)).map List.length, n ≤ 15 := by
      intro n hn
      obtain ⟨t, ht, rfl⟩ := List.mem_map.mp hn
      obtain ⟨u, -, rfl⟩ := List.mem_map.mp ht
      exact List.length_take_le ..
    have hsum := List.sum_le_card_nsmul _ 15 hshort
    rw [List.length_map, List.length_map, List.length_cons, Nat.nsmul_eq_mul, List.map_cons] at hsum
    have hdelim : (CString.text argvDelim).length = 1 := rfl
    rw [List.length_map] at hdst hlength
    rw [hdelim] at hlength
    simp only [argMax] at hlen
    exact ⟨dst, hdst, by omega⟩

theorem Full.congr {s s' : HistoryRun} (h : s.Full slot) (hstored : s'.stored slot = s.stored slot)
    (hcargc : s'.tty.cargc slot = s.tty.cargc slot)
    (harg : ∀ j, s'.tty.arg slot j = s.tty.arg slot j) : s'.Full slot := by
  refine ⟨by rw [hstored]; exact h.words, by rw [hcargc, hstored]; exact h.cargc, ?_⟩
  intro j w hw
  rw [hstored] at hw
  rw [harg]
  exact h.args j w hw

theorem tmod_maxCmdsCache {i : Int} (h : 0 ≤ i) :
    0 ≤ i.tmod maxCmdsCache ∧ i.tmod maxCmdsCache < maxCmdsCache :=
  ⟨Int.tmod_nonneg _ h, Int.tmod_lt_of_pos _ (by decide)⟩

theorem Tracks.traverse {s : HistoryRun} (h : s.Tracks) (hoff : -1 ≤ offset) :
    ∃ s', s.traverse offset = some s' ∧ s'.Tracks := by
  have hpos : 0 ≤ if s.tty.tci + offset < 0 then (maxCmdsCache : Int) + (s.tty.tci + offset)
      else s.tty.tci + offset := by
    have htci := h.tci.1
    simp only [maxCmdsCache]
    split
    · omega
    · omega
  rw [HistoryRun.traverse, Tty.traverseCache]
  generalize (if s.tty.tci + offset < 0 then (maxCmdsCache : Int) + (s.tty.tci + offset)
    else s.tty.tci + offset) = i at hpos ⊢
  have hnew := tmod_maxCmdsCache hpos
  generalize i.tmod maxCmdsCache = tci at hnew ⊢
  split
  · refine ⟨_, rfl, h.ci, h.tci, h.clean, ?_, fun _ hd => nomatch hd⟩
    intro slot hlo hhi hci harg
    exact (h.full slot hlo hhi hci harg).congr rfl rfl fun _ => rfl
  · rename_i hvalid
    obtain ⟨hci, harg⟩ := not_or.mp hvalid
    obtain ⟨dst, hdst, hlen⟩ := (h.full tci hnew.1 hnew.2 hci harg).strjoin
    rw [hdst]
    refine ⟨_, rfl, h.ci, hnew, h.clean, ?_, ?_⟩
    · intro slot hlo hhi hci harg
      exact (h.full slot hlo hhi hci harg).congr rfl rfl fun _ => rfl
    · rintro _ ⟨⟩
      exact hlen

theorem Tracks.getCmd_arg {s : HistoryRun} (h : s.Tracks) (h0 : 0 ∉ fgets 256 line)
    (hw : (commandWords (fgets 256 line))[j]? = some w) :
    ∃ ptr, (s.tty.getCmd line).2.arg s.tty.ci j = some ptr ∧ Clean ptr ∧ ptr.text = w.take 15 := by
  have hw0 : 0 ∉ w := fun hm => h0 (word_subset (commandWords_getElem? hw).1 hm)
  have hclean : Clean ((s.tty.arg s.tty.ci j).getD []) := .getD fun ptr => h.clean _ _ ptr
  rw [s.tty.getCmd_arg h0, hw]
  exact ⟨_, rfl, hclean.copyToken hw0⟩

theorem Tracks.getCmd_clean {s : HistoryRun} (h : s.Tracks) (h0 : 0 ∉ fgets 256 line)
    (hptr : (s.tty.getCmd line).2.arg slot j = some ptr) : Clean ptr := by
  rcases Tty.getCmd_arg_cases h0 hptr with hold | ⟨rfl, w, hw⟩
  · exact h.clean _ _ _ hold
  · obtain ⟨ptr', hptr', hclean, -⟩ := h.getCmd_arg h0 hw
    cases hptr.symm.trans hptr'
    exact hclean

theorem step_getCmd {s : HistoryRun} (h0 : 0 ∉ fgets 256 line) : s.step (.getCmd line) =
    some ⟨(s.tty.getCmd line).2,
      if commandWords (fgets 256 line) = [] then s.stored
      else Function.update s.stored s.tty.ci (commandWords (fgets 256 line)), none⟩ := by
  rw [step]
  simp only [s.tty.getCmd_fst h0, s.tty.getCmd_cargc h0, Function.update_self,
    List.length_eq_zero_iff]
  by_cases hws : commandWords (fgets 256 line) = []
  · rw [if_pos hws, if_pos hws]
  · rw [if_neg hws, if_neg hws]
    have hspace : (fgets 256 line).head? ≠ some space := fun h => hws (if_pos h)
    rw [commandWords, if_neg hspace]

theorem Tracks.getCmd {s : HistoryRun} (h : s.Tracks) (hline : 0 ∉ line) :
    ∃ s', s.step (.getCmd line) = some s' ∧ s'.Tracks := by
  have h0 : 0 ∉ fgets 256 line := fun hm => hline (List.mem_of_mem_take hm)
  have hci : 0 ≤ s.tty.ci + 1 := Int.le_add_one h.ci.1
  refine ⟨_, step_getCmd h0, ?_, ?_, fun _ _ _ => h.getCmd_clean h0, ?_, fun _ hd => nomatch hd⟩
  · dsimp only
    rw [s.tty.getCmd_ci h0]
    split
    · exact h.ci
    · exact tmod_maxCmdsCache hci
  · dsimp only
    rw [s.tty.getCmd_tci h0]
    split
    · exact h.tci
    · exact tmod_maxCmdsCache hci
  · intro slot hlo hhi hslot harg
    dsimp only at hslot harg
    by_cases hcur : slot = s.tty.ci
    · -- the slot is no longer the current one, so it has just been filled
      subst hcur
      rw [s.tty.getCmd_ci h0] at hslot
      have hws : commandWords (fgets 256 line) ≠ [] := fun hnil => hslot (if_pos hnil).symm
      have hstored : (if commandWords (fgets 256 line) = [] then s.stored else Function.update
          s.stored s.tty.ci (commandWords (fgets 256 line))) s.tty.ci =
            commandWords (fgets 256 line) := by
        rw [if_neg hws, Function.update_self]
      refine ⟨?_, ?_, ?_⟩
      · dsimp only
        rw [hstored]
        exact ⟨hws, length_commandWords_le _⟩
      · dsimp only
        rw [hstored, s.tty.getCmd_cargc h0, Function.update_self]
      · dsimp only
        rw [hstored]
        intro j w hw
        obtain ⟨ptr, hptr, -, htext⟩ := h.getCmd_arg h0 hw
        exact ⟨word_ne_nil (commandWords_getElem? hw).1, ptr, hptr, htext⟩
    · rw [Tty.getCmd_arg_of_ne h0 hcur] at harg
      refine (h.full slot hlo hhi hcur harg).congr ?_ ?_ (Tty.getCmd_arg_of_ne h0 hcur)
      · dsimp only
        split
        · rfl
        · exact Function.update_of_ne hcur ..
      · dsimp only
        rw [s.tty.getCmd_cargc h0, Function.update_of_ne hcur]

theorem start_tracks : start.Tracks :=
  ⟨by decide, by decide, nofun, fun _ _ _ _ harg => absurd rfl harg, nofun⟩

/-- A line has no terminator in it. -/
def Typed : HistoryOp → Prop
  | .getCmd line => 0 ∉ line
  | .next => True
  | .previous => True

instance : DecidablePred Typed
  | .getCmd line => inferInstanceAs (Decidable (0 ∉ line))
  | .next => .isTrue trivial
  | .previous => .isTrue trivial

theorem Tracks.step {s : HistoryRun} (h : s.Tracks) (op : HistoryOp) (hop : Typed op) :
    ∃ s', s.step op = some s' ∧ s'.Tracks := by
  cases op with
  | getCmd line => exact h.getCmd hop
  | next => exact h.traverse (by decide)
  | previous => exact h.traverse (by decide)

/-- Over every sequence of lines and of steps through the history the slots stay well formed, and
every call returns. -/
theorem always_wellFormed (ops : List HistoryOp) (h : ∀ op ∈ ops, Typed op) :
    Always step WellFormed start ops := by
  have hm : Meets step (fun _ => Typed) start ops := Meets.of_forall_mem h
  exact always_of_meets (fun s op hs hop => hs.step op hop) (fun _ hs => hs.wellFormed)
    start_tracks hm

/-- Two commands, a blank line, and back to the first command. -/
theorem always_wellFormed_two : Always step WellFormed start
    [.getCmd [112, 119, 100], .getCmd [99, 100, 32, 47], .getCmd [32], .previous, .previous,
      .next] :=
  always_wellFormed _ (by decide)

end HistoryRun

end BiosKernel
