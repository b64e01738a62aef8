import BiosKernel.File.Isolation

namespace BiosKernel.Elf
open ByteMem Checked MachineInt
set_option autoImplicit true

-- The fields of an `Elf64_Ehdr` and an `Elf64_Phdr` at a pointer.

def sizeofEhdr : Nat := 64

def sizeofPhdr : Nat := 56

def ePhoff (m : Mem) : Nat := load m 32 8

def ePhentsize (m : Mem) : Nat := load m 54 2

def pType (m : Mem) : Nat := load m 0 4

def pOffset (m : Mem) : Nat := load m 8 8

def pFilesz (m : Mem) : Nat := load m 32 8

/-- `ELFMAG`. -/
def elfMag : List UInt8 := [0x7f, 0x45, 0x4c, 0x46]

def elfClass64 : UInt8 := 2

def elfData2lsb : UInt8 := 1

/-- `PT_LOAD`. -/
def ptLoad : Nat := 1

/-- The files, with which offsets `lseek` takes in a file of some size and where a `read` of some
bytes leaves the offset. -/
structure Files where
  content : CString → Option (List UInt8)
  seeks : Nat → Nat → Bool
  advance : Nat → Nat → Nat

/-- An offset in the file is taken and one outside is not, and a `read` moves on by its bytes. -/
structure Files.Contract (fs : Files) : Prop where
  inside : ∀ offset size, offset < size → fs.seeks offset size = true
  outside : ∀ offset size, size < offset → fs.seeks offset size = false
  advance : ∀ offset n, fs.advance offset n = offset + n

namespace Files

def calls (fs : Files) : VfsCalls where
  pathExists path := .ok (if (fs.content path).isSome then 2 else 0)
  getFileSize path := .ok ((fs.content path).getD []).length
  read path offset cnt buf :=
    let data := (((fs.content path).getD []).drop offset).take cnt
    .ok (data.length, put buf 0 data)

/-- The file behind a descriptor, none for a bad one. -/
def opened (fs : Files) (t : FdpArr) (fd : Int) : Option (List UInt8) :=
  if 0 ≤ fd ∧ fd < maxNumOfFileDescriptors then (t fd.toNat).filePath.bind fs.content else none

/-- `lseek` with `SEEK_SET`, whose result the loader does not look at. -/
def lseekSet (fs : Files) (t : FdpArr) (fd : Int) (offset : Nat) : FdpArr :=
  match fs.opened t fd with
  | none => t
  | some content => if fs.seeks offset content.length then t.setOffset fd offset else t

/-- `read` to the address `a` of a buffer, whose result the loader does not look at either. -/
def read (fs : Files) (t : FdpArr) (fd : Int) (buf : Mem) (a cnt : Nat) : Mem × FdpArr :=
  match fs.opened t fd with
  | none => (buf, t)
  | some content =>
    let data := (content.drop (t fd.toNat).currentOffset).take cnt
    (put buf a data, t.setOffset fd (fs.advance (t fd.toNat).currentOffset data.length))

end Files

theorem Files.opened_eq {fs : Files} {t : FdpArr} {fd : Int}
    (hfd : 0 ≤ fd ∧ fd < maxNumOfFileDescriptors) (hpath : (t fd.toNat).filePath = some path) :
    fs.opened t fd = fs.content path := by
  rw [opened, if_pos hfd, hpath]
  rfl

/-- What `readelf` asks `malloc` for. -/
inductive ElfBuffer where
  | ehdr
  | phdr
  | ps
  deriving DecidableEq

/-- What lies behind each of the buffers. -/
structure LoadHeap where
  ehdr : Mem
  phdr : Mem
  ps : Mem

/-- A heap of zeros. -/
def zeroHeap : LoadHeap := ⟨fun _ => 0, fun _ => 0, fun _ => 0⟩

/-- The descriptors, and the buffers of the loader that are not freed. -/
structure LoadState where
  table : FdpArr
  live : List ElfBuffer

namespace LoadState

def malloc (s : LoadState) (b : ElfBuffer) : LoadState := { s with live := b :: s.live }

def free (s : LoadState) (b : ElfBuffer) : LoadState := { s with live := s.live.erase b }

end LoadState

/-- The header, or none for `NULL`. -/
def readelfHeader (fs : Files) (heap : LoadHeap) (fd : Int) (s : LoadState) :
    Option Mem × LoadState :=
  let s := s.malloc .ehdr
  let table := fs.lseekSet s.table fd 0
  let (elfEhdr, table) := fs.read table fd (mallocBuffer heap.ehdr sizeofEhdr) 0 sizeofEhdr
  let s := { s with table }
  if bytes elfEhdr 0 4 ≠ elfMag then (none, s)
  else if elfEhdr 4 ≠ elfClass64 then (none, s)
  else if elfEhdr 5 ≠ elfData2lsb then (none, s)
  else (some elfEhdr, s)

/-- The program header with the segment behind it, or none for `NULL`. -/
def readelfPs (fs : Files) (heap : LoadHeap) (elfEhdr : Mem) (fd : Int) (s : LoadState) :
    Option Mem × LoadState :=
  let entsize := ePhentsize elfEhdr
  let s := s.malloc .phdr
  let table := fs.lseekSet s.table fd (ePhoff elfEhdr)
  let (elfPhdr, table) := fs.read table fd (mallocBuffer heap.phdr entsize) 0 entsize
  let s := { s with table }
  if pType elfPhdr ≠ ptLoad then (none, s)
  else
    let s := s.malloc .ps
    let elfPs := mallocBuffer heap.ps (u64 (entsize + pFilesz elfPhdr))
    let elfPs := put elfPs 0 (bytes elfPhdr 0 entsize)
    let table := fs.lseekSet s.table fd (pOffset elfPhdr)
    let (elfPs, table) := fs.read table fd elfPs entsize (pFilesz elfPhdr)
    (some elfPs, { s with table }.free .phdr)

/-- Whether `readelf` returns `dst`, and what is there then. -/
structure Loaded where
  returned : Bool
  dst : Mem
  state : LoadState

def readelf (fs : Files) (heap : LoadHeap) (dst : Mem) (path : CString) (s : LoadState) :
    FileResult Loaded := do
  let (fd, table) ← s.table.openFd fs.calls path oRdonly
  match readelfHeader fs heap fd { s with table } with
  | (none, s) => return ⟨false, dst, s⟩
  | (some elfEhdr, s) =>
    match readelfPs fs heap elfEhdr fd s with
    | (none, s) => return ⟨false, dst, s.free .ehdr⟩
    | (some elfPs, s) =>
      let loaded : Mem := fun i =>
        if i < pFilesz elfPs then elfPs (ePhentsize elfEhdr + i) else dst i
      let (_, table) ← s.table.closeFd fd
      return ⟨true, loaded, ({ s with table }.free .ehdr).free .ps⟩

/-- The bytes of a file, with zeros behind them. -/
def file (content : List UInt8) : Mem := fun i => content.getD i 0

/-- The header has the magic number, the class and the encoding that are asked for. -/
def HeaderOk (content : List UInt8) : Prop :=
  bytes (file content) 0 4 = elfMag ∧ file content 4 = elfClass64 ∧ file content 5 = elfData2lsb

instance (content : List UInt8) : Decidable (HeaderOk content) :=
  inferInstanceAs (Decidable (_ ∧ _ ∧ _))

/-- Where the program header is read: at `e_phoff`, or behind the header where that is refused. -/
def phdrPosition (fs : Files) (content : List UInt8) : Nat :=
  if fs.seeks (ePhoff (file content)) content.length then ePhoff (file content)
  else fs.advance 0 (min sizeofEhdr content.length)

/-- The buffer of the program header. -/
def phdrSeen (fs : Files) (heap : LoadHeap) (content : List UInt8) : Mem :=
  put (mallocBuffer heap.phdr (ePhentsize (file content))) 0
    ((content.drop (phdrPosition fs content)).take (ePhentsize (file content)))

/-- Where the segment is read. -/
def segmentPosition (fs : Files) (heap : LoadHeap) (content : List UInt8) : Nat :=
  if fs.seeks (pOffset (phdrSeen fs heap content)) content.length
  then pOffset (phdrSeen fs heap content)
  else fs.advance (phdrPosition fs content)
    (min (ePhentsize (file content)) (content.length - phdrPosition fs content))

/-- Where the last `read` leaves the offset. -/
def segmentEnd (fs : Files) (heap : LoadHeap) (content : List UInt8) : Nat :=
  fs.advance (segmentPosition fs heap content) (min (pFilesz (phdrSeen fs heap content))
    (content.length - segmentPosition fs heap content))

/-- The buffer of the program header and the segment. -/
def psSeen (fs : Files) (heap : LoadHeap) (content : List UInt8) : Mem :=
  let entsize := ePhentsize (file content)
  let filesz := pFilesz (phdrSeen fs heap content)
  put (put (mallocBuffer heap.ps (u64 (entsize + filesz))) 0
    (bytes (phdrSeen fs heap content) 0 entsize)) entsize
    ((content.drop (segmentPosition fs heap content)).take filesz)

/-- What is copied to `dst`. -/
def copied (fs : Files) (heap : LoadHeap) (content : List UInt8) (dst : Mem) : Mem := fun i =>
  if i < pFilesz (psSeen fs heap content)
  then psSeen fs heap content (ePhentsize (file content) + i) else dst i

theorem put_window (m : Mem) (a : Nat) (content : List UInt8) (position n x : Nat) :
    put m a ((content.drop position).take n) x =
      if a ≤ x ∧ x < a + n ∧ position + (x - a) < content.length
      then file content (position + (x - a)) else m x := by
  have hlen : ((content.drop position).take n).length = min n (content.length - position) := by
    rw [List.length_take, List.length_drop]
  split
  · next h =>
    obtain ⟨i, rfl⟩ := Nat.exists_eq_add_of_le h.1
    rw [Nat.add_sub_cancel_left] at h ⊢
    rw [put_apply m a (by omega), file, List.getD_eq_getElem?_getD, List.getD_eq_getElem?_getD,
      List.getElem?_take_of_lt (by omega), List.getElem?_drop]
  · next h => exact put_apart m (by omega)

theorem mallocBuffer_of_lt (behind : Mem) (h : i < 32 ∨ i < aalign size 0x10) :
    mallocBuffer behind size i = 0 := by
  rw [mallocBuffer, mallocSize, heapChunkMinSizeBytes, sizeofMallocChunk, if_pos (by omega)]

theorem ehdr_file (behind : Mem) (content : List UInt8) (h : i < sizeofEhdr) :
    put (mallocBuffer behind sizeofEhdr) 0 (content.take sizeofEhdr) i = file content i := by
  have hwindow := put_window (mallocBuffer behind sizeofEhdr) 0 content 0 sizeofEhdr i
  rw [List.drop_zero] at hwindow
  rw [hwindow, Nat.zero_add, Nat.zero_add, Nat.sub_zero]
  split
  · rfl
  · have halign : aalign sizeofEhdr 0x10 = sizeofEhdr := rfl
    rw [mallocBuffer_of_lt behind (.inr (by rw [halign]; exact h)), file,
      List.getD_eq_default _ _ (by omega)]

theorem setOffset_set (t : FdpArr) (i : Nat) (path : CString) (offset offset' : Nat) (flags : Int) :
    (t.set i ⟨some path, offset, flags⟩).setOffset i offset' =
      t.set i ⟨some path, offset', flags⟩ := by
  rw [FdpArr.setOffset, FdpArr.set_self, FdpArr.set, FdpArr.set, FdpArr.set, Function.update_idem]

theorem closeFd_set (t : FdpArr) (path : CString) (hi : i < maxNumOfFileDescriptors) (offset : Nat)
    (flags : Int) :
    (t.set i ⟨some path, offset, flags⟩).closeFd i = .ok (none, t.set i ⟨none, offset, flags⟩) := by
  have hvalid : 0 ≤ (i : Int) ∧ (i : Int) < maxNumOfFileDescriptors :=
    ⟨Int.natCast_nonneg i, Int.ofNat_lt.mpr hi⟩
  rw [FdpArr.closeFd, FdpArr.entry, if_pos hvalid, ok_bind, FdpArr.set_self]
  dsimp only
  rw [FdpArr.set, FdpArr.set, FdpArr.set, Function.update_idem]
  rfl

theorem ePhoff_ehdr (behind : Mem) (content : List UInt8) :
    ePhoff (put (mallocBuffer behind sizeofEhdr) 0 (content.take sizeofEhdr)) =
      ePhoff (file content) :=
  load_congr fun x _ hx => ehdr_file behind content (by rw [sizeofEhdr]; omega)

theorem ePhentsize_ehdr (behind : Mem) (content : List UInt8) :
    ePhentsize (put (mallocBuffer behind sizeofEhdr) 0 (content.take sizeofEhdr)) =
      ePhentsize (file content) :=
  load_congr fun x _ hx => ehdr_file behind content (by rw [sizeofEhdr]; omega)

section Opened

variable {fs : Files} {t : FdpArr} {path : CString} {content : List UInt8} {i : Nat}
  (hi : i < maxNumOfFileDescriptors) (hcontent : fs.content path = some content)
include hi hcontent

theorem opened_set (offset : Nat) (flags : Int) :
    fs.opened (t.set i ⟨some path, offset, flags⟩) i = some content := by
  have hvalid : 0 ≤ (i : Int) ∧ (i : Int) < maxNumOfFileDescriptors :=
    ⟨Int.natCast_nonneg i, Int.ofNat_lt.mpr hi⟩
  have hpath := congrArg Fdp.filePath (FdpArr.set_self t i ⟨some path, offset, flags⟩)
  exact (Files.opened_eq hvalid hpath).trans hcontent

theorem lseekSet_set (offset offset' : Nat) (flags : Int) :
    fs.lseekSet (t.set i ⟨some path, offset, flags⟩) i offset' =
      t.set i ⟨some path, if fs.seeks offset' content.length then offset' else offset, flags⟩ := by
  rw [Files.lseekSet, opened_set hi hcontent]
  dsimp only
  split
  · rw [setOffset_set]
  · rfl

theorem read_set (offset : Nat) (flags : Int) (buf : Mem) (a cnt : Nat) :
    fs.read (t.set i ⟨some path, offset, flags⟩) i buf a cnt =
      (put buf a ((content.drop offset).take cnt),
        t.set i ⟨some path, fs.advance offset (min cnt (content.length - offset)), flags⟩) := by
  rw [Files.read, opened_set hi hcontent]
  dsimp only
  rw [FdpArr.set_self, setOffset_set, List.length_take, List.length_drop]

theorem readelfHeader_opened (heap : LoadHeap) (live : List ElfBuffer) :
    readelfHeader fs heap i ⟨t.set i ⟨some path, 0, oRdonly⟩, live⟩ =
      (if HeaderOk content
        then some (put (mallocBuffer heap.ehdr sizeofEhdr) 0 (content.take sizeofEhdr)) else none,
      ⟨t.set i ⟨some path, fs.advance 0 (min sizeofEhdr content.length), oRdonly⟩,
        .ehdr :: live⟩) := by
  have hbytes : bytes (put (mallocBuffer heap.ehdr sizeofEhdr) 0 (content.take sizeofEhdr)) 0 4 =
      bytes (file content) 0 4 := by
    apply bytes_congr
    intro j hj
    exact ehdr_file heap.ehdr content (by rw [sizeofEhdr]; omega)
  have hfour := ehdr_file heap.ehdr content (show 4 < sizeofEhdr by decide)
  have hfive := ehdr_file heap.ehdr content (show 5 < sizeofEhdr by decide)
  rw [readelfHeader]
  dsimp only [LoadState.malloc]
  rw [lseekSet_set hi hcontent, ite_self, read_set hi hcontent, List.drop_zero, Nat.sub_zero]
  dsimp only
  simp only [hbytes, hfour, hfive]
  by_cases hmag : bytes (file content) 0 4 = elfMag
  · by_cases hclass : file content 4 = elfClass64
    · by_cases hdata : file content 5 = elfData2lsb
      · rw [if_neg (not_not_intro hmag), if_neg (not_not_intro hclass),
          if_neg (not_not_intro hdata), if_pos ⟨hmag, hclass, hdata⟩]
      · rw [if_neg (not_not_intro hmag), if_neg (not_not_intro hclass), if_pos hdata,
          if_neg fun h => hdata h.2.2]
    · rw [if_neg (not_not_intro hmag), if_pos hclass, if_neg fun h => hclass h.2.1]
  · rw [if_pos hmag, if_neg fun h => hmag h.1]

theorem readelfPs_opened (heap : LoadHeap) (live : List ElfBuffer) : ∃ offset,
    readelfPs fs heap (put (mallocBuffer heap.ehdr sizeofEhdr) 0 (content.take sizeofEhdr)) i
      ⟨t.set i ⟨some path, fs.advance 0 (min sizeofEhdr content.length), oRdonly⟩, live⟩ =
    if pType (phdrSeen fs heap content) = ptLoad
    then (some (psSeen fs heap content),
      ⟨t.set i ⟨some path, segmentEnd fs heap content, oRdonly⟩, .ps :: live⟩)
    else (none, ⟨t.set i ⟨some path, offset, oRdonly⟩, .phdr :: live⟩) := by
  rw [readelfPs]
  dsimp only [LoadState.malloc]
  have hposition : (if fs.seeks (ePhoff (file content)) content.length then ePhoff (file content)
      else fs.advance 0 (min sizeofEhdr content.length)) = phdrPosition fs content := rfl
  have hphdr : put (mallocBuffer heap.phdr (ePhentsize (file content))) 0
      ((content.drop (phdrPosition fs content)).take (ePhentsize (file content))) =
        phdrSeen fs heap content := rfl
  rw [ePhoff_ehdr, ePhentsize_ehdr, lseekSet_set hi hcontent, read_set hi hcontent]
  dsimp only
  rw [hposition, hphdr]
  by_cases htype : pType (phdrSeen fs heap content) = ptLoad
  · simp only [if_pos htype, if_neg (not_not_intro htype)]
    rw [lseekSet_set hi hcontent, read_set hi hcontent]
    exact ⟨0, rfl⟩
  · simp only [if_neg htype, if_pos htype]
    exact ⟨_, rfl⟩

theorem readelf_opened
    (hopen : t.openFd fs.calls path oRdonly = .ok ((i : Int), t.set i ⟨some path, 0, oRdonly⟩))
    (heap : LoadHeap) (dst : Mem) (live : List ElfBuffer) :
    ∃ offset, readelf fs heap dst path ⟨t, live⟩ = .ok (
      if HeaderOk content then
        if pType (phdrSeen fs heap content) = ptLoad then
          ⟨true, copied fs heap content dst,
            t.set i ⟨none, segmentEnd fs heap content, oRdonly⟩, live⟩
        else ⟨false, dst, t.set i ⟨some path, offset, oRdonly⟩, .phdr :: live⟩
      else ⟨false, dst, t.set i ⟨some path, offset, oRdonly⟩, .ehdr :: live⟩) := by
  rw [readelf, hopen, ok_bind]
  dsimp only
  rw [readelfHeader_opened hi hcontent]
  by_cases hheader : HeaderOk content
  · obtain ⟨offset, hps⟩ := readelfPs_opened (t := t) hi hcontent heap (.ehdr :: live)
    refine ⟨offset, ?_⟩
    rw [if_pos hheader, if_pos hheader]
    dsimp only
    rw [hps]
    by_cases htype : pType (phdrSeen fs heap content) = ptLoad
    · rw [if_pos htype, if_pos htype]
      dsimp only
      rw [closeFd_set t path hi, ok_bind, ePhentsize_ehdr]
      rfl
    · rw [if_neg htype, if_neg htype]
      rfl
  · exact ⟨_, by rw [if_neg hheader, if_neg hheader]; rfl⟩

end Opened

theorem readelf_unopened {fs : Files} {t : FdpArr}
    (hopen : t.openFd fs.calls path oRdonly = .ok (-1, t)) (heap : LoadHeap) (dst : Mem)
    (live : List ElfBuffer) :
    readelf fs heap dst path ⟨t, live⟩ = .ok ⟨false, dst, t, .ehdr :: live⟩ := by
  have hopened : fs.opened t (-1) = none := rfl
  have hmag : bytes (mallocBuffer heap.ehdr sizeofEhdr) 0 4 ≠ elfMag := by
    intro h
    have hfirst := congrArg (·.headD 0) h
    have hzero : (bytes (mallocBuffer heap.ehdr sizeofEhdr) 0 4).headD 0 =
        mallocBuffer heap.ehdr sizeofEhdr 0 := rfl
    rw [hzero, mallocBuffer_of_lt heap.ehdr (.inl (by decide))] at hfirst
    exact absurd hfirst (by decide)
  rw [readelf, hopen, ok_bind]
  dsimp only
  rw [readelfHeader, Files.lseekSet, LoadState.malloc, hopened]
  dsimp only
  rw [Files.read, hopened]
  dsimp only
  rw [if_pos hmag]
  rfl

/-- The descriptor that the next `open` takes. -/
structure FirstFree (t : FdpArr) (i : Nat) : Prop where
  lt : i < maxNumOfFileDescriptors
  free : (t i).filePath = none
  before : ∀ j < i, (t j).filePath ≠ none

theorem openFd_calls (fs : Files) (t : FdpArr) (path : CString) :
    (∃ i content, FirstFree t i ∧ fs.content path = some content ∧
      t.openFd fs.calls path oRdonly = .ok ((i : Int), t.set i ⟨some path, 0, oRdonly⟩)) ∨
    (t.openFd fs.calls path oRdonly = .ok (-1, t) ∧
      (fs.content path = none ∨ ∀ i < maxNumOfFileDescriptors, (t i).filePath ≠ none)) := by
  have hok (found : Int) (hfound : fs.calls.pathExists path = .ok found) :
      ∃ r, t.openFd fs.calls path oRdonly = .ok r := by
    rw [FdpArr.openFd, FdpArr.openStoring, hfound, Except.mapError, ok_bind]
    split
    · exact ⟨_, rfl⟩
    · split
      · exact ⟨_, rfl⟩
      · exact ⟨_, rfl⟩
  obtain ⟨⟨fd, t'⟩, hopen⟩ := hok _ rfl
  have hexists : fs.calls.pathExists path = .ok 0 ↔ fs.content path = none := by
    show Except.ok (if (fs.content path).isSome then 2 else 0) = Except.ok 0 ↔ _
    cases fs.content path with
    | none => exact iff_of_true rfl rfl
    | some content =>
      refine iff_of_false (fun h => ?_) (Option.some_ne_none _)
      have hzero : (2 : Int) = 0 := Except.ok.inj h
      cases hzero
  rcases FdpArr.openStoring_inv hopen with
    ⟨rfl, rfl, hwhy⟩ | ⟨i, hi, rfl, rfl, hfile, hnone, hbefore⟩
  · exact .inr ⟨hopen, hwhy.imp_left hexists.mp⟩
  · obtain ⟨content, hcontent⟩ := Option.ne_none_iff_exists'.mp (mt hexists.mpr hfile)
    exact .inl ⟨i, content, ⟨hi, hnone, hbefore⟩, hcontent, hopen⟩

theorem phdrSeen_apply (fs : Files) (heap : LoadHeap) (content : List UInt8) (j : Nat) :
    phdrSeen fs heap content j =
      if j < ePhentsize (file content) ∧ phdrPosition fs content + j < content.length
      then file content (phdrPosition fs content + j)
      else mallocBuffer heap.phdr (ePhentsize (file content)) j := by
  rw [phdrSeen, put_window]
  simp only [Nat.zero_le, true_and, Nat.zero_add, Nat.sub_zero]

/-- The type of the program header that is read, where what is missing of it counts as zero. -/
def typeSeen (fs : Files) (content : List UInt8) : Nat :=
  pType fun j => if j < ePhentsize (file content) then file content (phdrPosition fs content + j)
    else 0

theorem file_of_le (content : List UInt8) (h : content.length ≤ j) : file content j = 0 :=
  List.getD_eq_default _ _ h

theorem pType_phdrSeen (fs : Files) (heap : LoadHeap) (content : List UInt8) :
    pType (phdrSeen fs heap content) = typeSeen fs content := by
  apply load_congr
  intro j _ hj
  rw [phdrSeen_apply]
  by_cases hsize : j < ePhentsize (file content)
  · rw [if_pos hsize]
    by_cases hin : phdrPosition fs content + j < content.length
    · rw [if_pos ⟨hsize, hin⟩]
    · rw [if_neg fun h => hin h.2, file_of_le content (Nat.le_of_not_lt hin),
        mallocBuffer_of_lt heap.phdr (.inl (by omega))]
  · rw [if_neg hsize, if_neg fun h => hsize h.1, mallocBuffer_of_lt heap.phdr (.inl (by omega))]

/-- The file passes all checks of the loader. -/
def Accepted (fs : Files) (content : List UInt8) : Prop :=
  HeaderOk content ∧ typeSeen fs content = ptLoad

instance (fs : Files) (content : List UInt8) : Decidable (Accepted fs content) :=
  inferInstanceAs (Decidable (_ ∧ _))

end BiosKernel.Elf
