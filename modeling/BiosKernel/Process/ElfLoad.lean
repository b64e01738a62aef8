import BiosKernel.Process.Elf

namespace BiosKernel.Elf
open ByteMem Checked MachineInt
set_option autoImplicit true

/-- The first program header of a file. -/
def programHeader (content : List UInt8) : Mem := fun j => file content (ePhoff (file content) + j)

/-- A 64-bit little-endian ELF file whose first program header is one to load, with its segment in
the file. -/
structure WellFormed (content : List UInt8) : Prop where
  header : HeaderOk content
  header_in : sizeofEhdr ≤ content.length
  phdr_in : ePhoff (file content) + sizeofPhdr ≤ content.length
  load : pType (programHeader content) = ptLoad
  segment_in : pOffset (programHeader content) + pFilesz (programHeader content) ≤ content.length

/-- The bytes of the first segment. -/
def segment (content : List UInt8) : List UInt8 :=
  (content.drop (pOffset (programHeader content))).take (pFilesz (programHeader content))

/-- A load returns `NULL` and writes nothing, or it loads the segment of a well-formed file. -/
def SoundLoad (fs : Files) (path : CString) : Prop :=
  ∀ heap dst s, ∃ r, readelf fs heap dst path s = .ok r ∧
    ((r.returned = false ∧ r.dst = dst) ∨
      ∃ content, fs.content path = some content ∧ WellFormed content ∧
        bytes r.dst 0 (pFilesz (programHeader content)) = segment content)

/-- How many bytes of `p_filesz` lie in an entry of the program header table. -/
def fileszBytes (content : List UInt8) : Nat := min 8 (ePhentsize (file content) - 32)

theorem pFilesz_split (m : Mem) (content : List UInt8) :
    pFilesz m = load m 32 (fileszBytes content) +
      256 ^ fileszBytes content * load m (32 + fileszBytes content) (8 - fileszBytes content) := by
  have hle : fileszBytes content ≤ 8 := Nat.min_le_left _ _
  rw [← load_add, Nat.add_sub_cancel' hle]
  rfl

theorem bytes_file (content : List UInt8) (h : a + n ≤ content.length) :
    bytes (file content) a n = (content.drop a).take n := by
  apply List.ext_getElem
  · rw [length_bytes, List.length_take, List.length_drop]
    omega
  · intro i hi _
    rw [length_bytes] at hi
    simp only [bytes, List.getElem_map, List.getElem_range, List.getElem_take, List.getElem_drop]
    exact List.getD_eq_getElem _ _ (by omega)

theorem phdrSeen_behind (fs : Files) (heap : LoadHeap) (content : List UInt8)
    (hj : ePhentsize (file content) ≤ j) : phdrSeen fs heap content j =
      mallocBuffer heap.phdr (ePhentsize (file content)) j := by
  rw [phdrSeen_apply, if_neg fun h => absurd h.1 (Nat.not_lt.mpr hj)]

/-- The segment's buffer: the entry, then the bytes of the file that are there, then what `malloc`
gave. -/
theorem psSeen_entry (fs : Files) (heap : LoadHeap) (content : List UInt8)
    (hx : x < ePhentsize (file content)) :
    psSeen fs heap content x = phdrSeen fs heap content x := by
  have hput := put_apply (mallocBuffer heap.ps
    (u64 (ePhentsize (file content) + pFilesz (phdrSeen fs heap content)))) 0
    (show x < (bytes (phdrSeen fs heap content) 0 (ePhentsize (file content))).length by
      rw [length_bytes]; exact hx)
  rw [Nat.zero_add] at hput
  rw [psSeen, put_apart _ (.inl hx), hput, bytes, List.getD_eq_getElem?_getD, List.getElem?_map,
    List.getElem?_range hx, Option.map_some, Option.getD_some, Nat.zero_add]

theorem psSeen_segment (fs : Files) (heap : LoadHeap) (content : List UInt8)
    (hi : i < pFilesz (phdrSeen fs heap content))
    (hin : segmentPosition fs heap content + i < content.length) :
    psSeen fs heap content (ePhentsize (file content) + i) =
      file content (segmentPosition fs heap content + i) := by
  rw [psSeen, put_window, Nat.add_sub_cancel_left, if_pos ⟨by omega, by omega, hin⟩]

theorem psSeen_behind (fs : Files) (heap : LoadHeap) (content : List UInt8)
    (hx : ePhentsize (file content) + pFilesz (phdrSeen fs heap content) ≤ x) :
    psSeen fs heap content x = mallocBuffer heap.ps
      (u64 (ePhentsize (file content) + pFilesz (phdrSeen fs heap content))) x := by
  rw [psSeen, put_window, if_neg (by omega), put_apart _ (.inr (by rw [length_bytes]; omega))]

/-- An entry without the size leaves it to the heap, which may say zero. -/
theorem copied_short (fs : Files) (content : List UInt8)
    (hentry : ePhentsize (file content) ≤ 32) (dst : Mem) :
    copied fs zeroHeap content dst = dst := by
  have hzero (size j : Nat) : mallocBuffer (fun _ => 0) size j = 0 := by
    rw [mallocBuffer, ite_self]
  have hphdr : pFilesz (phdrSeen fs zeroHeap content) = 0 := by
    apply load_eq_zero
    intro j _
    rw [phdrSeen_behind _ _ _ (by omega)]
    exact hzero _ _
  have hps : pFilesz (psSeen fs zeroHeap content) = 0 := by
    apply load_eq_zero
    intro j _
    rw [psSeen_behind _ _ _ (by rw [hphdr]; omega)]
    exact hzero _ _
  funext i
  rw [copied, hps, if_neg (Nat.not_lt_zero i)]

theorem mallocSize_bounds (h : 32 ≤ n) (hlt : n < 2 ^ 63) :
    n ≤ mallocSize n ∧ mallocSize n < n + 16 := by
  rw [mallocSize, aalign, u64, heapChunkMinSizeBytes, sizeofMallocChunk]
  split
  · omega
  · omega

section WellFormed

variable {fs : Files} {content : List UInt8} (hfs : fs.Contract) (hw : WellFormed content)
include hfs hw

theorem phdrPosition_eq : phdrPosition fs content = ePhoff (file content) := by
  have hin := hw.phdr_in
  rw [sizeofPhdr] at hin
  exact if_pos (hfs.inside _ _ (by omega))

theorem phdrSeen_eq (heap : LoadHeap) (hj : j < ePhentsize (file content))
    (hsize : j < sizeofPhdr) : phdrSeen fs heap content j = programHeader content j := by
  have hin := hw.phdr_in
  rw [phdrSeen_apply, phdrPosition_eq hfs hw, if_pos ⟨hj, by omega⟩]
  rfl

section Entry

variable (hentry : 32 < ePhentsize (file content)) (heap : LoadHeap)
include hentry

theorem pOffset_phdrSeen : pOffset (phdrSeen fs heap content) = pOffset (programHeader content) :=
  load_congr fun x _ hx => phdrSeen_eq hfs hw heap (by omega) (by rw [sizeofPhdr]; omega)

theorem pFilesz_phdrSeen : pFilesz (phdrSeen fs heap content) =
    load (programHeader content) 32 (fileszBytes content) := by
  have hbytes : fileszBytes content = min 8 (ePhentsize (file content) - 32) := rfl
  have hlow : load (phdrSeen fs heap content) 32 (fileszBytes content) =
      load (programHeader content) 32 (fileszBytes content) :=
    load_congr fun x _ hx => phdrSeen_eq hfs hw heap (by omega) (by rw [sizeofPhdr]; omega)
  have hhigh : load (phdrSeen fs heap content) (32 + fileszBytes content)
      (8 - fileszBytes content) = 0 := by
    apply load_eq_zero
    intro j hj
    have halign : 48 ≤ aalign (ePhentsize (file content)) 0x10 := by
      have hlt : ePhentsize (file content) < 256 ^ 2 := load_lt _ _ _
      rw [aalign, u64]
      split <;> omega
    rw [phdrSeen_behind fs heap content (by omega), mallocBuffer_of_lt heap.phdr (.inr (by omega))]
  rw [pFilesz_split _ content, hlow, hhigh, Nat.mul_zero, Nat.add_zero]

theorem segmentPosition_eq (hpos : 0 < pFilesz (programHeader content)) :
    segmentPosition fs heap content = pOffset (programHeader content) := by
  have hin := hw.segment_in
  rw [segmentPosition, pOffset_phdrSeen hfs hw hentry, if_pos (hfs.inside _ _ (by omega))]

end Entry

theorem copied_segment (hsize : pFilesz (programHeader content) < 256 ^ fileszBytes content)
    (heap : LoadHeap) (dst : Mem) :
    bytes (copied fs heap content dst) 0 (pFilesz (programHeader content)) = segment content := by
  have hin := hw.segment_in
  rw [segment, ← bytes_file content hin]
  apply bytes_congr
  intro i hi
  have hbytes : fileszBytes content = min 8 (ePhentsize (file content) - 32) := rfl
  have hentry : 32 < ePhentsize (file content) := by
    by_contra hle
    have hzero : fileszBytes content = 0 := by omega
    rw [hzero, Nat.pow_zero] at hsize
    omega
  have hlow : load (programHeader content) 32 (fileszBytes content) =
      pFilesz (programHeader content) := by
    have hall := pFilesz_split (programHeader content) content
    generalize load (programHeader content) (32 + fileszBytes content) _ = high at hall
    cases high with
    | zero => rw [hall, Nat.mul_zero, Nat.add_zero]
    | succ high =>
      rw [Nat.mul_succ] at hall
      omega
  have hseen := (pFilesz_phdrSeen hfs hw hentry heap).trans hlow
  have hcopied : pFilesz (programHeader content) ≤ pFilesz (psSeen fs heap content) := by
    have hsame : load (psSeen fs heap content) 32 (fileszBytes content) =
        load (programHeader content) 32 (fileszBytes content) := by
      apply load_congr
      intro x _ hx
      rw [psSeen_entry fs heap content (by omega)]
      exact phdrSeen_eq hfs hw heap (by omega) (by rw [sizeofPhdr]; omega)
    rw [pFilesz_split (psSeen fs heap content) content, hsame, hlow]
    exact Nat.le_add_right _ _
  have hposition := segmentPosition_eq hfs hw hentry heap (Nat.zero_lt_of_lt hi)
  rw [Nat.zero_add, copied, if_pos (Nat.lt_of_lt_of_le hi hcopied),
    psSeen_segment fs heap content (by rw [hseen]; exact hi) (by rw [hposition]; omega), hposition]

/-- Where the entry cuts the size off, a byte of the segment is taken from behind the buffer, or
is not written at all. -/
theorem copied_cut (hentry : 32 < ePhentsize (file content))
    (hsize : 256 ^ fileszBytes content ≤ pFilesz (programHeader content)) :
    ∃ i < pFilesz (programHeader content), ∀ x : UInt8,
      copied fs ⟨fun _ => 0, fun _ => 0, fun _ => x⟩ content (fun _ => x) i = x := by
  have hbytes : fileszBytes content = min 8 (ePhentsize (file content) - 32) := rfl
  have hfull : pFilesz (programHeader content) < 256 ^ 8 := load_lt _ _ _
  have hcut : fileszBytes content < 8 := (Nat.pow_lt_pow_iff_right (by decide)).mp
    (Nat.lt_of_le_of_lt hsize hfull)
  have hsplit := pFilesz_split (programHeader content) content
  have hlow := load_lt (programHeader content) 32 (fileszBytes content)
  have hstep : 256 ≤ 256 ^ fileszBytes content :=
    Nat.le_self_pow (by omega) 256
  have hstep' : 256 ^ fileszBytes content ≤ 256 ^ 7 := Nat.pow_le_pow_right (by decide) (by omega)
  generalize hseen : load (programHeader content) 32 (fileszBytes content) = seen at *
  have hgap : seen + 256 ≤ pFilesz (programHeader content) := by
    generalize load (programHeader content) (32 + fileszBytes content) _ = high at hsplit
    cases high with
    | zero => omega
    | succ high =>
      rw [Nat.mul_succ] at hsplit
      omega
  have hrequest : u64 (ePhentsize (file content) + seen) = ePhentsize (file content) + seen :=
    Nat.mod_eq_of_lt (by omega)
  obtain ⟨hle, hlt⟩ := @mallocSize_bounds (ePhentsize (file content) + seen) (by omega) (by omega)
  refine ⟨mallocSize (ePhentsize (file content) + seen) - ePhentsize (file content), by omega, ?_⟩
  intro x
  have hfilesz := (pFilesz_phdrSeen hfs hw hentry ⟨fun _ => 0, fun _ => 0, fun _ => x⟩).trans hseen
  rw [copied]
  split
  · rw [psSeen_behind _ _ _ (by rw [hfilesz]; omega), hfilesz, hrequest, mallocBuffer,
      if_neg (by omega)]
  · rfl

theorem copied_segment_iff :
    (∀ heap dst, bytes (copied fs heap content dst) 0 (pFilesz (programHeader content)) =
      segment content) ↔ pFilesz (programHeader content) < 256 ^ fileszBytes content := by
  refine ⟨fun h => ?_, fun hsize heap dst => copied_segment hfs hw hsize heap dst⟩
  by_contra hle
  have hne (b : UInt8) : b + 1 ≠ b := by
    intro he
    have hnat := congrArg UInt8.toNat he
    have hlt := b.toNat_lt
    rw [UInt8.toNat_add, show (1 : UInt8).toNat = 1 from rfl] at hnat
    omega
  rw [segment, ← bytes_file content hw.segment_in] at h
  by_cases hentry : 32 < ePhentsize (file content)
  · obtain ⟨i, hi, hx⟩ := copied_cut hfs hw hentry (Nat.le_of_not_lt hle)
    obtain ⟨b, hb⟩ : ∃ b, file content (pOffset (programHeader content) + i) = b := ⟨_, rfl⟩
    have hbyte := of_bytes_eq (h ⟨fun _ => 0, fun _ => 0, fun _ => b + 1⟩ fun _ => b + 1) hi
    rw [Nat.zero_add, hx, hb] at hbyte
    exact hne b hbyte
  · have hzero : fileszBytes content = 0 := by
      rw [fileszBytes]
      omega
    rw [hzero, Nat.pow_zero] at hle
    have hbyte := of_bytes_eq
      (h zeroHeap fun _ => file content (pOffset (programHeader content)) + 1)
      (Nat.le_of_not_lt hle)
    rw [copied_short fs content (Nat.le_of_not_lt hentry)] at hbyte
    exact hne _ hbyte

end WellFormed

theorem SoundLoad.accepted (h : SoundLoad fs path) (hcontent : fs.content path = some content)
    (haccepted : Accepted fs content) (heap : LoadHeap) (dst : Mem) : WellFormed content ∧
      bytes (copied fs heap content dst) 0 (pFilesz (programHeader content)) =
        segment content := by
  obtain ⟨r, hr, hresult⟩ := h heap dst ⟨initFdpArr, []⟩
  rcases openFd_calls fs initFdpArr path with ⟨i, c, hfree, hc, hopen⟩ | ⟨-, hnone | hall⟩
  · obtain ⟨offset, hload⟩ := readelf_opened hfree.lt hc hopen heap dst []
    cases Option.some.inj (hcontent.symm.trans hc)
    rw [if_pos haccepted.1, pType_phdrSeen, if_pos haccepted.2] at hload
    cases Except.ok.inj (hload.symm.trans hr)
    rcases hresult with ⟨hfalse, -⟩ | ⟨c, hc, hw, hbytes⟩
    · cases hfalse
    · cases Option.some.inj (hcontent.symm.trans hc)
      exact ⟨hw, hbytes⟩
  · cases hnone.symm.trans hcontent
  · exact absurd rfl (hall 0 (by decide))

/-- A load is right exactly where every file that passes the checks is well formed, with a size that
the entries of its program header table have room for. -/
theorem soundLoad_iff (fs : Files) (hfs : fs.Contract) (path : CString) : SoundLoad fs path ↔
    ∀ content, fs.content path = some content → Accepted fs content → WellFormed content ∧
      pFilesz (programHeader content) < 256 ^ fileszBytes content := by
  constructor
  · intro h content hcontent haccepted
    have hloads := h.accepted hcontent haccepted
    have hw := (hloads zeroHeap fun _ => 0).1
    exact ⟨hw, (copied_segment_iff hfs hw).mp fun heap dst => (hloads heap dst).2⟩
  · rintro h heap dst ⟨t, live⟩
    rcases openFd_calls fs t path with ⟨i, content, hfree, hcontent, hopen⟩ | ⟨hopen, -⟩
    · obtain ⟨offset, hload⟩ := readelf_opened hfree.lt hcontent hopen heap dst live
      rw [pType_phdrSeen] at hload
      refine ⟨_, hload, ?_⟩
      by_cases hheader : HeaderOk content
      · rw [if_pos hheader]
        by_cases htype : typeSeen fs content = ptLoad
        · rw [if_pos htype]
          obtain ⟨hw, hsize⟩ := h content hcontent ⟨hheader, htype⟩
          exact .inr ⟨content, hcontent, hw, copied_segment hfs hw hsize heap dst⟩
        · rw [if_neg htype]
          exact .inl ⟨rfl, rfl⟩
      · rw [if_neg hheader]
        exact .inl ⟨rfl, rfl⟩
    · exact ⟨_, readelf_unopened hopen heap dst live, .inl ⟨rfl, rfl⟩⟩

/-- Every path is that of one file, and `lseek` and `read` obey their contracts. -/
def contractFiles (content : List UInt8) : Files where
  content _ := some content
  seeks offset size := offset < size
  advance offset n := offset + n

theorem contract_contractFiles (content : List UInt8) : (contractFiles content).Contract where
  inside _ _ h := decide_eq_true h
  outside _ _ h := decide_eq_false (Nat.not_lt.mpr (Nat.le_of_lt h))
  advance _ _ := rfl

/-- A header, one program header behind it, and a segment of two bytes. -/
def elfImage : List UInt8 :=
  elfMag ++ [elfClass64, elfData2lsb] ++ List.replicate 26 0 ++ 64 :: List.replicate 21 0 ++
    56 :: List.replicate 9 0 ++ 1 :: List.replicate 7 0 ++ 120 :: List.replicate 23 0 ++
    2 :: List.replicate 23 0 ++ [0x90, 0xc3]

theorem soundLoad_elfImage : SoundLoad (contractFiles elfImage) [pathSeperator, 97] := by
  refine (soundLoad_iff _ (contract_contractFiles elfImage) _).mpr ?_
  rintro content ⟨⟩ -
  exact ⟨⟨by decide +kernel, by decide +kernel, by decide +kernel, by decide +kernel,
    by decide +kernel⟩, by decide +kernel⟩

/-- Without the two bytes of its segment the file is loaded as well, as two zeros. -/
theorem truncated_file_loads : Accepted (contractFiles (elfImage.take 120)) (elfImage.take 120) ∧
    bytes (copied (contractFiles (elfImage.take 120)) zeroHeap (elfImage.take 120) fun _ => 1) 0 2 =
      [0, 0] ∧
    ¬ SoundLoad (contractFiles (elfImage.take 120)) [pathSeperator, 97] := by
  have haccepted : Accepted (contractFiles (elfImage.take 120)) (elfImage.take 120) := by
    decide +kernel
  refine ⟨haccepted, by decide +kernel, fun h => ?_⟩
  have hin := (h.accepted rfl haccepted zeroHeap fun _ => 0).1.segment_in
  exact absurd hin (by decide +kernel)

end BiosKernel.Elf
