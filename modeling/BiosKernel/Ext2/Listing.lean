import BiosKernel.Ext2.Lookup

namespace BiosKernel
open ByteMem Checked Tiling
set_option autoImplicit true

/-- The name of the entry at `o`. -/
def entryName (data : Mem) (o : Nat) : CString :=
  bytes data (o + 8) (Ext2DirEntry.read data o).nameLength

/-- The entry of a name with the superblock that the listing reads. -/
def lookup (fs : MountedFs) (dirInodeNum : Nat) (name : CString) : Result Ext2DirEntry :=
  entryNamed fs fs.superBlock dirInodeNum name

/-- The bytes that the listing of a directory goes through. -/
def listedData (fs : MountedFs) (dirInodeNum : Nat) : Mem :=
  inodeData fs.toFilesystemData fs.superBlock dirInodeNum

/-- The directory at a path lists the names of its entries, each of which is found as the entry it
comes from, and each name that is found is listed once. -/
structure ListingAgrees (fs : MountedFs) (path : CString) (dirInodeNum : Nat)
    (entries : List Nat) : Prop where
  names : ext2ListDir fs path = .ok (entries.map (entryName (listedData fs dirInodeNum))).reverse
  found : ∀ o ∈ entries, (Ext2DirEntry.read (listedData fs dirInodeNum) o).inode ≠ 0 ∧
    lookup fs dirInodeNum (entryName (listedData fs dirInodeNum) o) =
      .ok (Ext2DirEntry.read (listedData fs dirInodeNum) o)
  listed : ∀ name entry, lookup fs dirInodeNum name = .ok entry → entry.inode ≠ 0 →
    (entries.map (entryName (listedData fs dirInodeNum))).count name = 1

section Loops

variable {data : Mem} {entries : List Nat}

@[simp] theorem length_entryName (data : Mem) (o : Nat) :
    (entryName data o).length = (Ext2DirEntry.read data o).nameLength := length_bytes ..

theorem listEntriesLoop_eq (hsame : ∀ k < size, data' k = data k)
    (ht : Tiles curr (entries.map fun o => (o, (Ext2DirEntry.read data o).sizeOfEntry)) size)
    (hroom : ∀ o ∈ entries,
      8 + (Ext2DirEntry.read data o).nameLength ≤ (Ext2DirEntry.read data o).sizeOfEntry)
    (hfuel : size < curr + fuel) (ret : List CString) :
    listEntriesLoop data' size fuel curr ret =
      .ok ((entries.map (entryName data)).reverse ++ ret) := by
  induction entries generalizing curr fuel ret with
  | nil =>
    have he : curr = size := ht
    cases fuel with
    | zero => omega
    | succ fuel =>
      rw [listEntriesLoop, if_neg (by omega)]
      rfl
  | cons o entries ih =>
    obtain ⟨rfl, hlt, hlen, hread, hname, hrest⟩ :=
      entryHead hsame ht (hroom o List.mem_cons_self)
    cases fuel with
    | zero => omega
    | succ fuel =>
      rw [listEntriesLoop, if_pos hlt]
      dsimp only
      rw [hread, hname _ (Nat.le_refl _),
        ih hrest (fun p hp => hroom p (List.mem_cons_of_mem _ hp)) (by omega), List.map_cons,
        List.reverse_cons, List.append_assoc, List.singleton_append]
      rfl

theorem strncmp_append (name more : CString) (len : Nat)
    (h : strncmp (name ++ more) (bytes data (o + 8) (min len (name ++ more).length))
      (min len (name ++ more).length) = 0) :
    strncmp name (bytes data (o + 8) (min len name.length)) (min len name.length) = 0 := by
  have hle : min len name.length ≤ min len (name ++ more).length := by
    rw [List.length_append]
    omega
  refine (strncmp_congr ?_ ?_).mp (strncmp_eq_zero_of_le hle h)
  · exact List.take_append_of_le_length (Nat.min_le_right _ _)
  · rw [bytes_take data _ hle, bytes_take data _ (Nat.le_refl _)]

/-- A name that is found as an entry of its own length is found with more bytes behind it too. -/
theorem findEntryLoop_append (name more : CString)
    (h : findEntryLoop data name name.length sizeRead fuel curr = .ok (some entry))
    (hlen : entry.nameLength = name.length) :
    findEntryLoop data (name ++ more) (name ++ more).length sizeRead fuel curr =
      .ok (some entry) := by
  induction fuel generalizing curr with
  | zero => cases h
  | succ fuel ih =>
    rw [findEntryLoop] at h ⊢
    by_cases hlt : curr + 1 < sizeRead
    · rw [if_pos hlt] at h ⊢
      dsimp only at h ⊢
      split at h
      · next hm =>
        cases h
        have hmin : min (Ext2DirEntry.read data curr).nameLength (name ++ more).length =
            name.length := by
          rw [List.length_append]
          omega
        rw [hlen, Nat.min_self] at hm
        rw [hmin]
        refine if_pos ((strncmp_congr ?_ rfl).mp hm)
        exact (List.take_append_of_le_length (Nat.le_refl _)).symm
      · next hm =>
        rw [if_neg fun hm' => hm (strncmp_append name more _ hm')]
        exact ih h
    · rw [if_neg hlt] at h
      cases h

end Loops

variable {fs : MountedFs}

theorem lookup_append (name more : CString) (h : lookup fs dirInodeNum name = .ok entry)
    (hlen : entry.nameLength = name.length) (hi : entry.inode ≠ 0) :
    lookup fs dirInodeNum (name ++ more) = .ok entry := by
  rw [lookup, entryNamed, ext2FindInodeInDirByName_run] at h ⊢
  obtain ⟨size, hsize, h⟩ := of_bind_eq_ok h
  obtain ⟨⟨sizeRead, data⟩, hread, h⟩ := of_bind_eq_ok h
  obtain ⟨found, hfound, h⟩ := of_bind_eq_ok h
  cases h
  cases found with
  | none => exact absurd rfl hi
  | some entry =>
    rw [hsize, ok_bind, hread, ok_bind, findEntryLoop_append name more hfound hlen]
    rfl

theorem ext2ListDir_eq (hsb : sb = fs.superBlock)
    (hb : sBlockGetBlockSize sb ≠ 0)
    (hn : ext2GetInodeNumberAtPath fs sb path = Except.ok dirInodeNum) (hd : dirInodeNum ≠ 0)
    (hs : ext2GetInodeSize fs.toFilesystemData sb dirInodeNum = Except.ok size) (h0 : size ≠ 0)
    (hwf : WellFormedDir (listedData fs dirInodeNum) size entries) :
    ext2ListDir fs path = .ok (entries.map (entryName (listedData fs dirInodeNum))).reverse := by
  subst hsb
  have hlt := ext2GetInodeSize_lt hs
  obtain ⟨data, hread, hsame⟩ := ext2ReadInode_whole hb hs h0 (mallocBuffer fs.behind size)
  have hsame : ∀ k < size, data k = listedData fs dirInodeNum k := hsame
  rw [ext2ListDir, ext2ReadSuperBlock_eq, ok_bind, hn, ok_bind, if_neg hd, hs, ok_bind, hread,
    ok_bind]
  dsimp only
  rw [listEntriesLoop_eq hsame hwf.tiles hwf.room (by rw [loopBound]; omega), List.append_nil]

theorem ext2ListDir_ne_empty (hsb : sb = fs.superBlock)
    (hn : ext2GetInodeNumberAtPath fs sb path = Except.ok dirInodeNum) (hd : dirInodeNum ≠ 0)
    (hs : ext2GetInodeSize fs.toFilesystemData sb dirInodeNum = Except.ok size)
    (h : ext2ListDir fs path = .ok names) : size ≠ 0 := by
  subst hsb
  intro h0
  rw [ext2ListDir, ext2ReadSuperBlock_eq, ok_bind, hn, ok_bind, if_neg hd, hs, ok_bind] at h
  obtain ⟨r, hread, _⟩ := of_bind_eq_ok h
  exact ext2ReadInode_endless hs (by decide) (by rw [h0]; rfl) _ hread

/-- Listing and lookup of no directory agree: a listed name that is found as its own entry is found
with another byte behind it too, and that name is not listed. -/
theorem not_listingAgrees (hsb : sb = fs.superBlock)
    (hn : ext2GetInodeNumberAtPath fs sb path = Except.ok dirInodeNum) (hd : dirInodeNum ≠ 0)
    (hs : ext2GetInodeSize fs.toFilesystemData sb dirInodeNum = Except.ok size)
    (hwf : WellFormedDir (listedData fs dirInodeNum) size entries) :
    ¬ ListingAgrees fs path dirInodeNum entries := by
  intro h
  have h0 := ext2ListDir_ne_empty hsb hn hd hs h.names
  cases entries with
  | nil => exact h0 hwf.tiles.symm
  | cons o entries =>
    obtain ⟨hi, hfound⟩ := h.found o List.mem_cons_self
    have hlonger := lookup_append _ [120] hfound (length_entryName _ o).symm hi
    have hcount := h.listed _ _ hlonger hi
    have hmem := List.count_pos_iff.mp (hcount ▸ Nat.one_pos)
    obtain ⟨o', ho', hname⟩ := List.mem_map.mp hmem
    obtain ⟨_, hfound'⟩ := h.found o' ho'
    rw [hname, hlonger] at hfound'
    have hlen := congrArg List.length hname
    rw [List.length_append, length_entryName, length_entryName, ← Except.ok.inj hfound'] at hlen
    exact absurd hlen (Nat.ne_of_lt (Nat.lt_succ_self _))

/-- The disk of `dotsFs` with a superblock. -/
def dotsDisk : MountedFs where
  startOffset := 0x400
  disk x :=
    match x with
    | 1064 => 8
    | 1080 => 0x53
    | 1081 => 0xEF
    | 1112 => 128
    | _ => dotsFs.disk x
  behind _ := 0

theorem wellFormedDir_dotsDisk : WellFormedDir (listedData dotsDisk 2) 36 [0, 12, 24] where
  tiles := by decide +kernel
  room := by decide +kernel

theorem not_listingAgrees_dotsDisk : ¬ ListingAgrees dotsDisk [47] 2 [0, 12, 24] :=
  not_listingAgrees rfl (by decide +kernel) (by decide) (by decide +kernel) wellFormedDir_dotsDisk

theorem lookup_dotsDisk (name : CString) : lookup dotsDisk 2 name =
    .ok (firstEntry (listedData dotsDisk 2) [0, 12, 24]
      (AgreeingEntry (listedData dotsDisk 2) name name.length)) :=
  ext2FindInodeInDirByName_eq (by decide +kernel) (by decide +kernel) (by decide)
    wellFormedDir_dotsDisk

/-- Of the names `.`, `..` and `a`, the second is found as the entry of the first one, and `ax` is
found as `a`. -/
theorem dots_listed_not_found :
    ext2ListDir dotsDisk [47] = .ok [[97], [46, 46], [46]] ∧
    entryName (listedData dotsDisk 2) 12 = [46, 46] ∧
    Ext2DirEntry.read (listedData dotsDisk 2) 12 = ⟨1, 12, 2, 2⟩ ∧
    lookup dotsDisk 2 [46, 46] = .ok ⟨2, 12, 1, 2⟩ ∧
    lookup dotsDisk 2 [97, 120] = .ok ⟨3, 12, 1, 1⟩ ∧
    ¬ ListingAgrees dotsDisk [47] 2 [0, 12, 24] := by
  have hlist : ext2ListDir dotsDisk [47] = .ok [[97], [46, 46], [46]] := by
    rw [ext2ListDir_eq rfl (by decide +kernel) (by decide +kernel) (by decide) (by decide +kernel)
      (by decide) wellFormedDir_dotsDisk]
    exact congrArg Except.ok (by decide +kernel)
  have hname : entryName (listedData dotsDisk 2) 12 = [46, 46] := by decide +kernel
  have hread : Ext2DirEntry.read (listedData dotsDisk 2) 12 = ⟨1, 12, 2, 2⟩ := by decide +kernel
  have hdots : lookup dotsDisk 2 [46, 46] = .ok ⟨2, 12, 1, 2⟩ := by
    rw [lookup_dotsDisk]
    exact congrArg Except.ok (by decide +kernel)
  have hax : lookup dotsDisk 2 [97, 120] = .ok ⟨3, 12, 1, 1⟩ := by
    rw [lookup_dotsDisk]
    exact congrArg Except.ok (by decide +kernel)
  refine ⟨hlist, hname, hread, hdots, hax, ?_⟩
  intro h
  obtain ⟨_, hfound⟩ := h.found 12 (by decide)
  rw [hname, hread, hdots] at hfound
  exact absurd (Except.ok.inj hfound) (by decide)

end BiosKernel
