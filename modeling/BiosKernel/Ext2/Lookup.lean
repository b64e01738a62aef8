import BiosKernel.Ext2.Directory
import BiosKernel.Ext2.ReadCount
import BiosKernel.Lib.Tiling
import BiosKernel.Libc.Text

namespace BiosKernel
open ByteMem Checked MachineInt Tiling
set_option autoImplicit true

/-- The size of the directory that an `int` names. -/
def dirSize (fs : MountedFs) (sb : Ext2SuperBlock) (dirInodeNum : Nat) : Result Nat :=
  ext2GetInodeSize fs.toFilesystemData sb (signExtend32 (u32 dirInodeNum))

/-- The bytes of the directory. -/
def dirData (fs : MountedFs) (sb : Ext2SuperBlock) (dirInodeNum : Nat) : Mem :=
  inodeData fs.toFilesystemData sb (signExtend32 (u32 dirInodeNum))

/-- Entries, given by their offsets, that fill a directory and have room for their names. -/
structure WellFormedDir (data : Mem) (size : Nat) (entries : List Nat) : Prop where
  tiles : Tiles 0 (entries.map fun o => (o, (Ext2DirEntry.read data o).sizeOfEntry)) size
  room : ∀ o ∈ entries,
    8 + (Ext2DirEntry.read data o).nameLength ≤ (Ext2DirEntry.read data o).sizeOfEntry

/-- The entry at `o` is in use, and its name is the first `nameSize` bytes of `inodeName`. -/
def ExactEntry (data : Mem) (inodeName : CString) (nameSize o : Nat) : Prop :=
  (Ext2DirEntry.read data o).inode ≠ 0 ∧ (Ext2DirEntry.read data o).nameLength = nameSize ∧
    ∀ i < nameSize, data (o + 8 + i) = inodeName.getD i 0

/-- Up to the shorter of the two lengths, and to a terminator, both names have the same text. -/
def AgreeingEntry (data : Mem) (inodeName : CString) (nameSize o : Nat) : Prop :=
  let compared := min (Ext2DirEntry.read data o).nameLength nameSize
  CString.text (inodeName.take compared) = CString.text (bytes data (o + 8) compared)

instance (data : Mem) (inodeName : CString) (nameSize : Nat) :
    DecidablePred (ExactEntry data inodeName nameSize) :=
  fun _ => inferInstanceAs (Decidable (_ ∧ _ ∧ _))

instance (data : Mem) (inodeName : CString) (nameSize : Nat) :
    DecidablePred (AgreeingEntry data inodeName nameSize) :=
  fun _ => inferInstanceAs (Decidable (_ = _))

/-- The first entry with a property, or the zeroed one. -/
def firstEntry (data : Mem) (entries : List Nat) (p : Nat → Prop) [DecidablePred p] :
    Ext2DirEntry :=
  ((entries.find? (p ·)).map (Ext2DirEntry.read data)).getD ⟨0, 0, 0, 0⟩

/-- The lookup returns the first entry with just this name. -/
def FindsExact (fs : MountedFs) (sb : Ext2SuperBlock) (dirInodeNum : Nat) (inodeName : CString)
    (nameSize : Nat) (entries : List Nat) : Prop :=
  ext2FindInodeInDirByName fs sb dirInodeNum inodeName nameSize =
    Except.ok (firstEntry (dirData fs sb dirInodeNum) entries
      (ExactEntry (dirData fs sb dirInodeNum) inodeName nameSize))

section Scan

variable {data : Mem} {inodeName : CString} {nameSize size : Nat} {entries : List Nat}

theorem Ext2DirEntry.read_congr (h : ∀ x, o ≤ x → x < o + 8 → data' x = data x) :
    Ext2DirEntry.read data' o = Ext2DirEntry.read data o := by
  have hload (a n : Nat) (ha : o ≤ a) (hn : a + n ≤ o + 8) : load data' a n = load data a n :=
    load_congr fun x hx hx' => h x (by omega) (by omega)
  rw [read, read, hload o 4 (by omega) (by omega), hload (o + 4) 2 (by omega) (by omega),
    hload (o + 6) 1 (by omega) (by omega), hload (o + 7) 1 (by omega) (by omega)]

theorem ExactEntry.agreeing (h : ExactEntry data inodeName nameSize o) :
    AgreeingEntry data inodeName nameSize o := by
  obtain ⟨_, hlen, hname⟩ := h
  rw [AgreeingEntry, hlen, Nat.min_self, ← bytes_take data (o + 8) (Nat.le_refl nameSize)]
  apply CString.text_take_congr
  intro i hi
  rw [← hname i hi, List.getD_eq_getElem _ _ (by rwa [length_bytes])]
  simp only [bytes, List.getElem_map, List.getElem_range]

theorem strncmp_iff_agreeing : strncmp inodeName
      (bytes data (o + 8) (min (Ext2DirEntry.read data o).nameLength nameSize))
      (min (Ext2DirEntry.read data o).nameLength nameSize) = 0 ↔
    AgreeingEntry data inodeName nameSize o := by
  rw [strncmp_eq_zero_iff, bytes_take data (o + 8) (Nat.le_refl _)]
  exact Iff.rfl

/-- What a loop finds at the first of the entries, in a buffer that holds the directory. -/
structure EntryHead (data data' : Mem) (size curr o : Nat) (entries : List Nat) : Prop where
  here : o = curr
  inside : curr + 1 < size
  onward : curr < curr + (Ext2DirEntry.read data o).sizeOfEntry
  same : Ext2DirEntry.read data' o = Ext2DirEntry.read data o
  name : ∀ n ≤ (Ext2DirEntry.read data o).nameLength,
    bytes data' (o + 8) n = bytes data (o + 8) n
  tiles : Tiles (o + (Ext2DirEntry.read data o).sizeOfEntry)
    (entries.map fun o => (o, (Ext2DirEntry.read data o).sizeOfEntry)) size

theorem entryHead (hsame : ∀ k < size, data' k = data k)
    (ht : Tiles curr ((o :: entries).map fun o => (o, (Ext2DirEntry.read data o).sizeOfEntry)) size)
    (hr : 8 + (Ext2DirEntry.read data o).nameLength ≤ (Ext2DirEntry.read data o).sizeOfEntry) :
    EntryHead data data' size curr o entries := by
  obtain ⟨rfl, ht⟩ : o = curr ∧ _ := ht
  have hle := ht.le
  dsimp only at hle ht
  refine ⟨rfl, by omega, by omega, ?_, ?_, ht⟩
  · exact Ext2DirEntry.read_congr fun x _ hx => hsame x (by omega)
  · exact fun n hn => bytes_congr fun i hi => hsame _ (by omega)

theorem findEntryLoop_eq (hsame : ∀ k < size, data' k = data k)
    (ht : Tiles curr (entries.map fun o => (o, (Ext2DirEntry.read data o).sizeOfEntry)) size)
    (hroom : ∀ o ∈ entries,
      8 + (Ext2DirEntry.read data o).nameLength ≤ (Ext2DirEntry.read data o).sizeOfEntry)
    (hfuel : size < curr + fuel) :
    findEntryLoop data' inodeName nameSize size fuel curr =
      .ok ((entries.find? (AgreeingEntry data inodeName nameSize ·)).map
        (Ext2DirEntry.read data)) := by
  induction entries generalizing curr fuel with
  | nil =>
    have he : curr = size := ht
    cases fuel with
    | zero => omega
    | succ fuel =>
      rw [findEntryLoop, if_neg (by omega)]
      rfl
  | cons o entries ih =>
    obtain ⟨rfl, hlt, hlen, hread, hname, hrest⟩ :=
      entryHead hsame ht (hroom o List.mem_cons_self)
    cases fuel with
    | zero => omega
    | succ fuel =>
      rw [findEntryLoop, if_pos hlt, List.find?_cons]
      dsimp only
      rw [hread, hname _ (Nat.min_le_left _ _)]
      by_cases hm : AgreeingEntry data inodeName nameSize o
      · rw [if_pos (strncmp_iff_agreeing.mpr hm), decide_eq_true hm]
        rfl
      · rw [if_neg fun h => hm (strncmp_iff_agreeing.mp h), decide_eq_false hm]
        exact ih hrest (fun p hp => hroom p (List.mem_cons_of_mem _ hp)) (by omega)

theorem find?_of_agreeing
    (hf : entries.find? (AgreeingEntry data inodeName nameSize ·) = some o)
    (h : ExactEntry data inodeName nameSize o) :
    entries.find? (ExactEntry data inodeName nameSize ·) = some o := by
  obtain ⟨_, before, after, rfl, hbefore⟩ := List.find?_eq_some_iff_append.mp hf
  refine List.find?_eq_some_iff_append.mpr ⟨decide_eq_true h, before, after, rfl, ?_⟩
  intro o' ho'
  have hno := hbefore o' ho'
  rw [Bool.not_eq_true', decide_eq_false_iff_not] at hno ⊢
  exact fun he => hno he.agreeing

theorem read_ne_zeroed (h : 8 + (Ext2DirEntry.read data o).nameLength ≤
    (Ext2DirEntry.read data o).sizeOfEntry) : Ext2DirEntry.read data o ≠ ⟨0, 0, 0, 0⟩ := by
  intro h0
  rw [h0] at h
  cases h

theorem firstEntry_eq_iff (hroom : ∀ o ∈ entries,
      8 + (Ext2DirEntry.read data o).nameLength ≤ (Ext2DirEntry.read data o).sizeOfEntry) :
    firstEntry data entries (AgreeingEntry data inodeName nameSize) =
        firstEntry data entries (ExactEntry data inodeName nameSize) ↔
      ∀ o, entries.find? (AgreeingEntry data inodeName nameSize ·) = some o →
        ExactEntry data inodeName nameSize o ∨
        ∃ o', entries.find? (ExactEntry data inodeName nameSize ·) = some o' ∧
          Ext2DirEntry.read data o' = Ext2DirEntry.read data o := by
  rw [firstEntry, firstEntry]
  cases hf : entries.find? (AgreeingEntry data inodeName nameSize ·) with
  | none =>
    -- Where nothing agrees there is no exact entry either.
    have hg : entries.find? (ExactEntry data inodeName nameSize ·) = none := by
      rw [List.find?_eq_none] at hf ⊢
      intro o ho he
      exact hf o ho (decide_eq_true (of_decide_eq_true he).agreeing)
    rw [hg]
    exact ⟨fun _ _ ho => (nomatch ho), fun _ => rfl⟩
  | some o =>
    constructor
    · rintro h _ ⟨⟩
      cases hg : entries.find? (ExactEntry data inodeName nameSize ·) with
      | none =>
        rw [hg] at h
        exact absurd h (read_ne_zeroed (hroom o (List.mem_of_find?_eq_some hf)))
      | some o' =>
        rw [hg] at h
        exact .inr ⟨o', rfl, h.symm⟩
    · intro h
      rcases h o rfl with he | ⟨o', hg, hread⟩
      · rw [find?_of_agreeing hf he]
      · rw [hg]
        exact hread.symm

end Scan

section Call

variable {fs : MountedFs} {sb : Ext2SuperBlock}

theorem ext2FindInodeInDirByName_eq (hb : sBlockGetBlockSize sb ≠ 0)
    (hs : dirSize fs sb dirInodeNum = .ok size) (h0 : size ≠ 0)
    (hd : WellFormedDir (dirData fs sb dirInodeNum) size entries) :
    ext2FindInodeInDirByName fs sb dirInodeNum inodeName nameSize =
      Except.ok (firstEntry (dirData fs sb dirInodeNum) entries
        (AgreeingEntry (dirData fs sb dirInodeNum) inodeName nameSize)) := by
  have hlt := ext2GetInodeSize_lt hs
  obtain ⟨data, hread, hdata⟩ := ext2ReadInode_whole hb hs h0 (mallocBuffer fs.behind size)
  rw [dirSize] at hs
  rw [ext2FindInodeInDirByName_run, hs, ok_bind, hread, ok_bind,
    findEntryLoop_eq hdata hd.tiles hd.room (by rw [loopBound]; omega)]
  rfl

/-- A lookup is exact just where the file system and the directory are not empty and the first
entry whose name agrees is the one to find, or looks the same. -/
theorem findsExact_iff (dirInodeNum : Nat) (inodeName : CString) (nameSize : Nat)
    (hs : dirSize fs sb dirInodeNum = .ok size) (hdata : data = dirData fs sb dirInodeNum)
    (hd : WellFormedDir data size entries) :
    FindsExact fs sb dirInodeNum inodeName nameSize entries ↔
      sBlockGetBlockSize sb ≠ 0 ∧ size ≠ 0 ∧
      ∀ o, entries.find? (AgreeingEntry data inodeName nameSize ·) = some o →
        ExactEntry data inodeName nameSize o ∨
        ∃ o', entries.find? (ExactEntry data inodeName nameSize ·) = some o' ∧
          Ext2DirEntry.read data o' = Ext2DirEntry.read data o := by
  subst hdata
  by_cases hb : sBlockGetBlockSize sb = 0
  · refine ⟨fun h => ?_, fun h => absurd hb h.1⟩
    rw [FindsExact, ext2FindInodeInDirByName_trap fun hu => hu.blocks hb] at h
    cases h
  by_cases h0 : size = 0
  · refine ⟨fun h => ?_, fun h => absurd h0 h.2.1⟩
    rw [dirSize] at hs
    rw [FindsExact, ext2FindInodeInDirByName_run, hs, ok_bind] at h
    obtain ⟨r, hread, _⟩ := of_bind_eq_ok h
    exact absurd hread (ext2ReadInode_endless hs (by decide) (by rw [h0]; rfl) _)
  rw [FindsExact, ext2FindInodeInDirByName_eq hb hs h0 hd, Except.ok.injEq,
    firstEntry_eq_iff hd.room]
  exact ⟨fun h => ⟨hb, h0, h⟩, fun h => h.2.2⟩

/-- A disk with the directory of the entries `.`, `..` and `a`, twelve bytes each. -/
def dotsFs : MountedFs where
  startOffset := 0x400
  disk x :=
    match x with
    | 2056 => 3
    | 3204 => 36
    | 3240 => 4
    | 4096 => 2
    | 4100 => 12
    | 4102 => 1
    | 4103 => 2
    | 4104 => 46
    | 4108 => 1
    | 4112 => 12
    | 4114 => 2
    | 4115 => 2
    | 4116 => 46
    | 4117 => 46
    | 4120 => 3
    | 4124 => 12
    | 4126 => 1
    | 4127 => 1
    | 4128 => 97
    | _ => 0
  behind _ := 0

theorem dirSize_dotsFs : dirSize dotsFs splitFileSuperBlock 2 = .ok 36 := by
  decide +kernel

theorem wellFormedDir_dotsFs :
    WellFormedDir (dirData dotsFs splitFileSuperBlock 2) 36 [0, 12, 24] where
  tiles := by decide +kernel
  room := by decide +kernel

theorem findsExact_dotsFs : FindsExact dotsFs splitFileSuperBlock 2 [97] 1 [0, 12, 24] := by
  apply (findsExact_iff 2 [97] 1 dirSize_dotsFs rfl wellFormedDir_dotsFs).mpr
  refine ⟨by decide, by decide, ?_⟩
  intro o ho
  have h24 : o = 24 := Option.some.inj (ho.symm.trans (by decide +kernel))
  rw [h24]
  exact .inl (by decide +kernel)

/-- The lookup of `..` ends at the entry `.`, which agrees with it in its one byte. -/
theorem dots_found_at_dot :
    ext2FindInodeInDirByName dotsFs splitFileSuperBlock 2 [46, 46] 2 = Except.ok ⟨2, 12, 1, 2⟩ ∧
    firstEntry (dirData dotsFs splitFileSuperBlock 2) [0, 12, 24]
      (ExactEntry (dirData dotsFs splitFileSuperBlock 2) [46, 46] 2) =
        ⟨1, 12, 2, 2⟩ ∧
    ¬ FindsExact dotsFs splitFileSuperBlock 2 [46, 46] 2 [0, 12, 24] := by
  have hfound : ext2FindInodeInDirByName dotsFs splitFileSuperBlock 2 [46, 46] 2 =
      Except.ok ⟨2, 12, 1, 2⟩ := by
    have hb : sBlockGetBlockSize splitFileSuperBlock ≠ 0 := by decide
    rw [ext2FindInodeInDirByName_eq hb dirSize_dotsFs (by decide) wellFormedDir_dotsFs]
    exact congrArg Except.ok (by decide +kernel)
  have hexact : firstEntry (dirData dotsFs splitFileSuperBlock 2) [0, 12, 24]
      (ExactEntry (dirData dotsFs splitFileSuperBlock 2) [46, 46] 2) =
        ⟨1, 12, 2, 2⟩ := by decide +kernel
  refine ⟨hfound, hexact, ?_⟩
  intro h
  have hsame := Except.ok.inj (hfound.symm.trans h)
  exact absurd (hsame.trans hexact) (by decide)

end Call

end BiosKernel
