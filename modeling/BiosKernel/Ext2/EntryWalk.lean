import BiosKernel.Ext2.Directory

/-! Which entries of a directory the two loops look at, and which bytes they read there. -/

namespace BiosKernel
open ByteMem Checked
set_option autoImplicit true

/-- How many bytes of the second string `strncmp` looks at. -/
def strncmpReads (a b : CString) : Nat → Nat
  | 0 => 0
  | size + 1 =>
    if a.at0 = 0 ∨ b.at0 = 0 ∨ a.at0 ≠ b.at0 then 1 else strncmpReads a.tail b.tail size + 1

/-- The test at which the lookup returns an entry. -/
def Matched (data : Mem) (inodeName : CString) (nameSize o : Nat) : Prop :=
  let compared := min (Ext2DirEntry.read data o).nameLength nameSize
  strncmp inodeName (bytes data (o + 8) compared) compared = 0

instance (data : Mem) (inodeName : CString) (nameSize : Nat) :
    DecidablePred (Matched data inodeName nameSize) := fun _ => inferInstanceAs (Decidable (_ = _))

/-- How many bytes of the name of an entry the lookup reads. -/
def comparedBytes (data : Mem) (inodeName : CString) (nameSize o : Nat) : Nat :=
  let compared := min (Ext2DirEntry.read data o).nameLength nameSize
  strncmpReads inodeName (bytes data (o + 8) compared) compared

/-- The entries that a loop looks at before it ends, none if it does not end. It returns from an
entry where `stops` holds. -/
def entryWalk (data : Mem) (stops : Nat → Prop) [DecidablePred stops] (sizeRead : Nat) :
    Nat → Nat → Option (List Nat)
  | 0, _ => none
  | fuel + 1, curr =>
    if curr + 1 < sizeRead then
      if stops curr then some [curr]
      else (entryWalk data stops sizeRead fuel
        (curr + (Ext2DirEntry.read data curr).sizeOfEntry)).map (curr :: ·)
    else some []

/-- The loop ends, and the header and the name bytes it reads of each entry are inside the
directory. -/
def WalksInside (data : Mem) (stops : Nat → Prop) [DecidablePred stops] (nameBytes : Nat → Nat)
    (sizeRead : Nat) : Prop :=
  ∃ entries, entryWalk data stops sizeRead loopBound 0 = some entries ∧
    ∀ o ∈ entries, o + 8 + nameBytes o ≤ sizeRead

def FindsInside (data : Mem) (inodeName : CString) (nameSize sizeRead : Nat) : Prop :=
  (∃ entry, findEntryLoop data inodeName nameSize sizeRead loopBound 0 = .ok entry) ∧
    WalksInside data (Matched data inodeName nameSize) (comparedBytes data inodeName nameSize)
      sizeRead

def ListsInside (data : Mem) (sizeRead : Nat) : Prop :=
  (∃ names, listEntriesLoop data sizeRead loopBound 0 [] = .ok names) ∧
    WalksInside data (fun _ => False) (fun o => (Ext2DirEntry.read data o).nameLength) sizeRead

/-- The lengths of the entries lead from one offset to the other, past no entry that stops the
walk. -/
inductive Reached (data : Mem) (stops : Nat → Prop) (sizeRead : Nat) : Nat → Nat → Prop
  | here : Reached data stops sizeRead o o
  | next (hlt : o + 1 < sizeRead) (hs : ¬ stops o)
      (h : Reached data stops sizeRead (o + (Ext2DirEntry.read data o).sizeOfEntry) o') :
      Reached data stops sizeRead o o'

/-- Each entry that the walk comes to is inside the directory, and longer than 0 if the walk goes
on from it. -/
def Passable (data : Mem) (stops : Nat → Prop) (nameBytes : Nat → Nat) (sizeRead curr : Nat) :
    Prop :=
  ∀ o, Reached data stops sizeRead curr o → o + 1 < sizeRead →
    (stops o ∨ (Ext2DirEntry.read data o).sizeOfEntry ≠ 0) ∧ o + 8 + nameBytes o ≤ sizeRead

/-- No entry from which the walk goes on has length 0. -/
def Ends (data : Mem) (stops : Nat → Prop) (sizeRead curr : Nat) : Prop :=
  ∀ o, Reached data stops sizeRead curr o → o + 1 < sizeRead →
    stops o ∨ (Ext2DirEntry.read data o).sizeOfEntry ≠ 0

section Walk

variable {data : Mem} {stops : Nat → Prop} {nameBytes : Nat → Nat} {sizeRead : Nat}

theorem Ends.next (h : Ends data stops sizeRead curr) (hlt : curr + 1 < sizeRead)
    (hs : ¬ stops curr) :
    Ends data stops sizeRead (curr + (Ext2DirEntry.read data curr).sizeOfEntry) :=
  fun o ho => h o (.next hlt hs ho)

variable [DecidablePred stops]

theorem Ends.entryWalk (h : Ends data stops sizeRead curr) (fuel : Nat)
    (hfuel : sizeRead < curr + fuel) (hpos : 0 < fuel) :
    ∃ entries, entryWalk data stops sizeRead fuel curr = some entries ∧
      ∀ o ∈ entries, Reached data stops sizeRead curr o ∧ o + 1 < sizeRead := by
  induction fuel generalizing curr with
  | zero => cases hpos
  | succ fuel ih =>
    rw [BiosKernel.entryWalk]
    by_cases hlt : curr + 1 < sizeRead
    · rw [if_pos hlt]
      by_cases hs : stops curr
      · rw [if_pos hs]
        exact ⟨_, rfl, List.forall_mem_singleton.mpr ⟨.here, hlt⟩⟩
      · have hlen := (h curr .here hlt).resolve_left hs
        obtain ⟨entries, hw, hall⟩ := ih (h.next hlt hs) (by omega) (by omega)
        rw [if_neg hs, hw]
        refine ⟨_, rfl, List.forall_mem_cons.mpr ⟨⟨.here, hlt⟩, fun o ho => ?_⟩⟩
        exact ⟨.next hlt hs (hall o ho).1, (hall o ho).2⟩
    · rw [if_neg hlt]
      exact ⟨[], rfl, fun o ho => by cases ho⟩

/-- An entry of length 0 is its own successor. -/
theorem entryWalk_endless (hlt : curr + 1 < sizeRead) (hs : ¬ stops curr)
    (h0 : (Ext2DirEntry.read data curr).sizeOfEntry = 0) (fuel : Nat) :
    entryWalk data stops sizeRead fuel curr = none := by
  induction fuel with
  | zero => rfl
  | succ fuel ih =>
    rw [entryWalk, if_pos hlt, if_neg hs, h0, Nat.add_zero, ih]
    rfl

theorem reached_of_entryWalk (hw : entryWalk data stops sizeRead fuel curr = some entries)
    (ho : Reached data stops sizeRead curr o) (hlt : o + 1 < sizeRead) :
    o ∈ entries ∧ (stops o ∨ (Ext2DirEntry.read data o).sizeOfEntry ≠ 0) := by
  induction fuel generalizing curr entries with
  | zero => cases hw
  | succ fuel ih =>
    have hlen (hlt : curr + 1 < sizeRead) (hs : ¬ stops curr) :
        (Ext2DirEntry.read data curr).sizeOfEntry ≠ 0 := by
      intro h0
      rw [entryWalk_endless hlt hs h0] at hw
      cases hw
    rw [entryWalk] at hw
    cases ho with
    | here =>
      rw [if_pos hlt] at hw
      by_cases hs : stops o
      · rw [if_pos hs] at hw
        cases hw
        exact ⟨List.mem_cons_self, .inl hs⟩
      · rw [if_neg hs] at hw
        obtain ⟨rest, _, rfl⟩ := Option.map_eq_some_iff.mp hw
        exact ⟨List.mem_cons_self, .inr (hlen hlt hs)⟩
    | next hlt' hs ho =>
      rw [if_pos hlt', if_neg hs] at hw
      obtain ⟨rest, hrest, rfl⟩ := Option.map_eq_some_iff.mp hw
      obtain ⟨hmem, hgo⟩ := ih hrest ho
      exact ⟨List.mem_cons_of_mem _ hmem, hgo⟩

theorem exists_entryWalk_iff (h : sizeRead < 2 ^ 64) :
    (∃ entries, entryWalk data stops sizeRead loopBound 0 = some entries) ↔
      Ends data stops sizeRead 0 := by
  constructor
  · rintro ⟨entries, hw⟩ o ho hlt
    exact (reached_of_entryWalk hw ho hlt).2
  · intro hends
    obtain ⟨entries, hw, -⟩ := hends.entryWalk loopBound (by rw [loopBound]; omega)
      (by decide)
    exact ⟨entries, hw⟩

theorem passable_of_entryWalk (hw : entryWalk data stops sizeRead fuel curr = some entries)
    (hin : ∀ o ∈ entries, o + 8 + nameBytes o ≤ sizeRead) :
    Passable data stops nameBytes sizeRead curr := by
  intro o ho hlt
  obtain ⟨hmem, hgo⟩ := reached_of_entryWalk hw ho hlt
  exact ⟨hgo, hin o hmem⟩

theorem walksInside_iff (h : sizeRead < 2 ^ 64) : WalksInside data stops nameBytes sizeRead ↔
    Passable data stops nameBytes sizeRead 0 := by
  constructor
  · rintro ⟨entries, hw, hin⟩
    exact passable_of_entryWalk hw hin
  · intro hp
    have hends : Ends data stops sizeRead 0 := fun o ho hlt => (hp o ho hlt).1
    obtain ⟨entries, hw, hall⟩ := hends.entryWalk loopBound (by rw [loopBound]; omega)
      (by decide)
    exact ⟨entries, hw, fun o ho => (hp o (hall o ho).1 (hall o ho).2).2⟩

end Walk

theorem findEntryLoop_ok_iff (data : Mem) (inodeName : CString)
    (nameSize sizeRead fuel curr : Nat) :
    (∃ entry, findEntryLoop data inodeName nameSize sizeRead fuel curr = .ok entry) ↔
      ∃ entries, entryWalk data (Matched data inodeName nameSize) sizeRead fuel curr =
        some entries := by
  induction fuel generalizing curr with
  | zero =>
    constructor
    · rintro ⟨_, ⟨⟩⟩
    · rintro ⟨_, ⟨⟩⟩
  | succ fuel ih =>
    rw [findEntryLoop, entryWalk]
    by_cases hlt : curr + 1 < sizeRead
    · rw [if_pos hlt, if_pos hlt]
      by_cases hm : Matched data inodeName nameSize curr
      · rw [if_pos hm]
        exact ⟨fun _ => ⟨_, rfl⟩, fun _ => ⟨_, if_pos hm⟩⟩
      · rw [if_neg hm]
        dsimp only
        rw [if_neg (show ¬ strncmp _ _ _ = 0 from hm), ih, ← Option.isSome_iff_exists,
          ← Option.isSome_iff_exists, Option.isSome_map]
    · rw [if_neg hlt, if_neg hlt]
      exact ⟨fun _ => ⟨_, rfl⟩, fun _ => ⟨_, rfl⟩⟩

theorem listEntriesLoop_ok_iff (data : Mem) (sizeRead fuel curr : Nat) (ret : List CString) :
    (∃ names, listEntriesLoop data sizeRead fuel curr ret = .ok names) ↔
      ∃ entries, entryWalk data (fun _ => False) sizeRead fuel curr = some entries := by
  induction fuel generalizing curr ret with
  | zero =>
    constructor
    · rintro ⟨_, ⟨⟩⟩
    · rintro ⟨_, ⟨⟩⟩
  | succ fuel ih =>
    rw [listEntriesLoop, entryWalk]
    by_cases hlt : curr + 1 < sizeRead
    · rw [if_pos hlt, if_pos hlt, if_neg not_false]
      dsimp only
      rw [ih, ← Option.isSome_iff_exists, ← Option.isSome_iff_exists, Option.isSome_map]
    · rw [if_neg hlt, if_neg hlt]
      exact ⟨fun _ => ⟨_, rfl⟩, fun _ => ⟨_, rfl⟩⟩

theorem suffix_of_listEntriesLoop (h : listEntriesLoop data sizeRead fuel curr ret = .ok names) :
    ret <:+ names := by
  induction fuel generalizing curr ret with
  | zero => cases h
  | succ fuel ih =>
    rw [listEntriesLoop] at h
    split at h
    · exact (List.suffix_cons ..).trans (ih h)
    · cases h
      exact List.suffix_rfl

theorem listEntriesLoop_empty_iff (data : Mem) (h : sizeRead < 2 ^ 64) :
    (∀ names, listEntriesLoop data sizeRead loopBound 0 [] = .ok names → names = []) ↔
      sizeRead ≤ 1 ∨ ¬ Ends data (fun _ => False) sizeRead 0 := by
  have hreturns := (listEntriesLoop_ok_iff data sizeRead loopBound 0 []).trans
    (exists_entryWalk_iff h)
  rw [← hreturns]
  constructor
  · intro hempty
    by_cases hsize : sizeRead ≤ 1
    · exact .inl hsize
    · right
      rintro ⟨names, hnames⟩
      have hfirst := hnames
      rw [loopBound, listEntriesLoop, if_pos (by omega)] at hfirst
      have hsuffix := suffix_of_listEntriesLoop hfirst
      rw [hempty names hnames] at hsuffix
      exact absurd (List.suffix_nil.mp hsuffix) (List.cons_ne_nil _ _)
  · rintro (hsize | hnot) names hnames
    · rw [loopBound, listEntriesLoop, if_neg (by omega)] at hnames
      exact (Except.ok.inj hnames).symm
    · exact absurd ⟨names, hnames⟩ hnot

/-- Both loops end and read inside the directory just where the entries that they come to are
inside it, with the bytes of their names that are read, and no entry to go on from has length 0. -/
theorem entryLoops_inside_iff (data : Mem) (inodeName : CString) (nameSize : Nat)
    (h : sizeRead < 2 ^ 64) :
    (FindsInside data inodeName nameSize sizeRead ↔ Passable data
      (Matched data inodeName nameSize) (comparedBytes data inodeName nameSize) sizeRead 0) ∧
    (ListsInside data sizeRead ↔ Passable data (fun _ => False)
      (fun o => (Ext2DirEntry.read data o).nameLength) sizeRead 0) := by
  refine ⟨?_, ?_⟩
  · rw [FindsInside, walksInside_iff h, findEntryLoop_ok_iff, and_iff_right_iff_imp]
    intro hp
    obtain ⟨entries, hw, _⟩ := (walksInside_iff h).mpr hp
    exact ⟨entries, hw⟩
  · rw [ListsInside, walksInside_iff h, listEntriesLoop_ok_iff, and_iff_right_iff_imp]
    intro hp
    obtain ⟨entries, hw, _⟩ := (walksInside_iff h).mpr hp
    exact ⟨entries, hw⟩

/-- An entry of the length `len` with the name `.` at the beginning of a directory. -/
def dotEntry (len : UInt8) : Mem := fun i =>
  match i with
  | 0 => 2
  | 4 => len
  | 6 => 1
  | 7 => 2
  | 8 => 46
  | _ => 0

theorem entryLoops_inside_dotEntry : FindsInside (dotEntry 12) [97] 1 12 ∧
    ListsInside (dotEntry 12) 12 := by
  obtain ⟨hfind, hlist⟩ := entryLoops_inside_iff (dotEntry 12) [97] 1 (show 12 < 2 ^ 64 by decide)
  have hwalk : entryWalk (dotEntry 12) (Matched (dotEntry 12) [97] 1) 12 2 0 = some [0] := by
    decide +kernel
  have hwalk' : entryWalk (dotEntry 12) (fun _ => False) 12 2 0 = some [0] := by
    decide +kernel
  exact ⟨hfind.mpr (passable_of_entryWalk hwalk (by decide +kernel)),
    hlist.mpr (passable_of_entryWalk hwalk' (by decide +kernel))⟩

/-- With length 0 neither loop ends, and behind an entry of 12 bytes the two last bytes of a
directory of 14 are taken for a header. -/
theorem entryLoops_run_away :
    ¬ FindsInside (dotEntry 0) [97] 1 1024 ∧ ¬ ListsInside (dotEntry 0) 1024 ∧
    ¬ FindsInside (dotEntry 12) [97] 1 14 ∧ ¬ ListsInside (dotEntry 12) 14 := by
  have hlen : (Ext2DirEntry.read (dotEntry 0) 0).sizeOfEntry = 0 := by decide +kernel
  have hlen' : (Ext2DirEntry.read (dotEntry 12) 0).sizeOfEntry = 12 := by decide +kernel
  refine ⟨?_, ?_, ?_, ?_⟩
  · rintro ⟨_, entries, hw, _⟩
    rw [entryWalk_endless (by decide) (by decide +kernel) hlen] at hw
    cases hw
  · rintro ⟨_, entries, hw, _⟩
    rw [entryWalk_endless (by decide) not_false hlen] at hw
    cases hw
  · rintro ⟨_, hwalk⟩
    have hp := (walksInside_iff (by decide)).mp hwalk 12
      (.next (by decide) (by decide +kernel) (by rw [hlen']; exact .here)) (by decide)
    exact absurd hp.2 (by omega)
  · rintro ⟨_, hwalk⟩
    have hp := (walksInside_iff (by decide)).mp hwalk 12
      (.next (by decide) not_false (by rw [hlen']; exact .here)) (by decide)
    exact absurd hp.2 (by omega)

end BiosKernel
