import BiosKernel.File.Descriptors

namespace BiosKernel
open ByteMem Checked MachineInt
set_option autoImplicit true

/-- The bytes of a text. -/
def ascii (s : String) : List UInt8 := s.toList.map fun c => UInt8.ofNat c.toNat

/-- What `printf` takes from memory for `%s`: the bytes before the first zero. -/
def stringAt (m : Mem) : Nat → Nat → Option (List UInt8)
  | 0, _ => none
  | fuel + 1, i => if m i = 0 then some [] else (stringAt m fuel (i + 1)).map (m i :: ·)

/-- What the command has printed, how large a buffer it has got from `malloc`, how many of its bytes
it has looked at, and the descriptors. -/
structure CatResult where
  output : List UInt8
  allocated : Nat
  examined : Nat
  table : FdpArr

/-- The path that an argument stands for, from the working directory on. -/
def argumentPath (currWd arg : CString) : Option CString :=
  if arg.at0 = pathSeperator then preprocessPath arg
  else preprocessPath (currWd.takeWhile (· ≠ 0) ++ pathSeperator :: arg)

/-- The case of `shcmd_cat` for a file. -/
def catFile (t : FdpArr) (vfs : VfsCalls) (behind : Mem) (path : CString) :
    FileResult CatResult := do
  let (fd, t) ← t.openFd vfs path oRdonly
  let (size, t) ← t.lseek vfs fd 0 .seekEnd
  let buff := mallocBuffer behind size
  let (_, t) ← t.lseek vfs fd 0 .seekSet
  let (_, buff, t) ← t.readFd vfs fd buff size
  let (_, t) ← t.closeFd fd
  match stringAt buff loopBound 0 with
  | none => .error (.vfs .endless)
  | some text => return ⟨text ++ ascii "\n", mallocSize size, text.length + 1, t⟩

/-- `shcmd_cat` with the argument behind the name of the command. `behind` is what lies in memory
behind the buffer. A missing path is looked up as an empty one. -/
def shcmdCat (t : FdpArr) (vfs : VfsCalls) (behind : Mem) (currWd : CString)
    (arg : Option CString) : FileResult CatResult := do
  let notice := if arg.isNone then ascii "Path to cat wasn't provided" else []
  let path := (arg.bind (argumentPath currWd)).getD []
  let found ← (vfs.pathExists path).mapError .vfs
  if found = 2 then catFile t vfs behind path
  else if found = 0 then return ⟨notice ++ ascii "The path doesn't exist\n", 0, 0, t⟩
  else
    return ⟨notice ++ ascii "The path exists but is a dir, So can't cat this path.\n", 0, 0, t⟩

/-- The command prints the content and a new line, from the bytes of its own buffer. -/
def PrintsWhole (r : FileResult CatResult) (content : List UInt8) : Prop :=
  ∃ out, r = .ok out ∧ out.output = content ++ ascii "\n" ∧ out.examined ≤ out.allocated

theorem stringAt_ne_zero (h : stringAt m fuel i = some text) (hk : k < text.length) :
    m (i + k) ≠ 0 := by
  induction fuel generalizing i text k with
  | zero => cases h
  | succ fuel ih =>
    rw [stringAt] at h
    split at h
    · cases h
      cases hk
    · next h0 =>
      obtain ⟨rest, hrest, rfl⟩ := Option.map_eq_some_iff.mp h
      cases k with
      | zero => exact h0
      | succ k =>
        have hnext := ih hrest (Nat.lt_of_succ_lt_succ hk)
        rwa [Nat.add_assoc, Nat.add_comm 1 k] at hnext

/-- What `cat` does to a file of `n` bytes: it asks for one byte less, and from the beginning only
if the file is not empty. -/
theorem catFile_ok {vfs : VfsCalls} {path : CString} (hexists : vfs.pathExists path = .ok 2)
    (hsize : vfs.getFileSize path = .ok n) (h : catFile t vfs behind path = .ok out) :
    ∃ r buff text, vfs.read path (if 0 < n then 0 else u64 (n + 2 ^ 64 - 1)) (u64 (n + 2 ^ 64 - 1))
        (mallocBuffer behind (u64 (n + 2 ^ 64 - 1))) = .ok (r, buff) ∧
      stringAt buff loopBound 0 = some text ∧ out.output = text ++ ascii "\n" ∧
      out.allocated = mallocSize (u64 (n + 2 ^ 64 - 1)) ∧ out.examined = text.length + 1 := by
  generalize hlast : u64 (n + 2 ^ 64 - 1) = last
  rw [catFile] at h
  obtain hopen | ⟨i, hi, hopen⟩ := FdpArr.openFd_cases t hexists oRdonly
  -- Without a free descriptor the next call looks at the entry before the table.
  · rw [hopen] at h
    cases h
  · have hfd : 0 ≤ (i : Int) ∧ (i : Int) < maxNumOfFileDescriptors := ⟨by omega, by omega⟩
    have hself : (t.set i ⟨some path, 0, oRdonly⟩) (i : Int).toNat = ⟨some path, 0, oRdonly⟩ :=
      Function.update_self ..
    generalize t.set i ⟨some path, 0, oRdonly⟩ = t₀ at hopen hself
    obtain ⟨t₁, t₂, position, hend, hbegin, hself₂⟩ :=
      FdpArr.lseek_end_begin hfd (congrArg Fdp.filePath hself) hsize
    rw [hlast] at hend hself₂
    rw [hself] at hself₂
    rw [hopen, ok_bind] at h
    dsimp only at h
    rw [hend, ok_bind] at h
    dsimp only at h
    rw [hbegin, ok_bind] at h
    dsimp only at h
    rw [FdpArr.readFd_opened hfd (congrArg Fdp.filePath hself₂)
      (.inl (congrArg Fdp.flags hself₂)), hself₂] at h
    obtain ⟨⟨r, buff, t₃⟩, hread, h⟩ := of_bind_eq_ok h
    obtain ⟨⟨r', buff'⟩, hread', he⟩ := of_bind_eq_ok hread
    have hbuff : buff' = buff := congrArg (·.2.1) (Except.ok.inj he)
    rw [hbuff] at hread'
    obtain ⟨⟨_, t₄⟩, _, h⟩ := of_bind_eq_ok h
    dsimp only at h
    cases htext : stringAt buff loopBound 0 with
    | none =>
      rw [htext] at h
      cases h
    | some text =>
      rw [htext] at h
      cases h
      exact ⟨r', buff, text, of_mapError_eq_ok hread', htext, rfl, rfl, rfl⟩

/-- The command never prints a file whole. Of a file of two bytes or more the last one is missing;
where the file is shorter the read does not return. -/
theorem shcmdCat_not_whole (v : Vfs) (hv : v.Built) (st : Storage) (t : FdpArr) (behind : Mem)
    (currWd arg path : CString) (hpath : argumentPath currWd arg = some path)
    (hexists : v.vfsPathExists st path = .ok 2) (content : List UInt8)
    (hsize : v.vfsGetFileSize st path = .ok content.length) :
    ¬ PrintsWhole (shcmdCat t (v.calls st) behind currWd (some arg)) content := by
  rintro ⟨out, hrun, hout, hexamined⟩
  have hfile : catFile t (v.calls st) behind path = .ok out := by
    rw [← hrun, shcmdCat]
    simp only [Option.bind_some, hpath, Option.getD_some]
    rw [show (v.calls st).pathExists path = .ok 2 from hexists]
    rfl
  obtain ⟨fs, sb, inodeNum, hinode, hread⟩ := hv.typed.regular_file hexists
  obtain ⟨r, buff, text, hbuff, htext, htext', hallocated, hlooked⟩ :=
    catFile_ok hexists hsize hfile
  have hwhole : text = content := List.append_cancel_right (htext'.symm.trans hout)
  subst hwhole
  rw [hallocated, hlooked] at hexamined
  have hbuff' : ext2ReadInode fs.toFilesystemData sb inodeNum _ _ _ = Except.ok (r, buff) :=
    (hread _ _ _).symm.trans hbuff
  rw [hinode] at hsize
  have hlt := ext2GetInodeSize_lt hsize
  by_cases hshort : text.length ≤ 1
  · refine ext2ReadInode_endless hsize ?_ ?_ _ hbuff'
    · split
      · decide
      · exact u64_lt _
    · rw [u64, u64]
      split
      · omega
      · omega
  · have hlast : u64 (text.length + 2 ^ 64 - 1) = text.length - 1 := by
      rw [u64]
      omega
    rw [hlast] at hbuff' hexamined
    rw [if_pos (by omega)] at hbuff'
    refine stringAt_ne_zero htext (Nat.sub_one_lt (by omega)) ?_
    rw [Nat.zero_add, ext2ReadInode_outside hsize (by omega) hbuff' (Nat.le_refl _), mallocBuffer,
      if_pos (by omega)]

/-- A disk with a root directory that holds the file `a`, of the two bytes `hi`. -/
def hiStorage : Storage where
  disk _ x :=
    match x with
    -- The superblock: eight inodes in a group, the magic number, inodes of 128 bytes.
    | 1064 => 8
    | 1080 => 0x53
    | 1081 => 0xEF
    | 1112 => 128
    -- The table of inodes is in the block behind the third.
    | 2056 => 4
    -- Inode 2, a directory of twelve bytes, and inode 3, a file of two.
    | 4225 => 0x40
    | 4228 => 12
    | 4264 => 10
    | 4353 => 0x80
    | 4356 => 2
    | 4392 => 20
    -- The entry of the directory, and the file.
    | 10240 => 3
    | 10244 => 12
    | 10246 => 1
    | 10247 => 1
    | 10248 => 97
    | 20480 => 104
    | 20481 => 105
    | _ => 0
  behind _ := 0

theorem shcmdCat_not_whole_hi : ¬ PrintsWhole (shcmdCat initFdpArr (Vfs.rootMounted.calls hiStorage)
    (fun _ => 0) [pathSeperator] (some [pathSeperator, 97])) (ascii "hi") :=
  shcmdCat_not_whole Vfs.rootMounted Vfs.rootMounted_built hiStorage initFdpArr (fun _ => 0)
    [pathSeperator] [pathSeperator, 97] [pathSeperator, 97] (by decide +kernel) (by decide +kernel)
    (ascii "hi") (by decide +kernel)

/-- Of `hi` the command prints `h`. -/
theorem shcmdCat_prints_h :
    (Vfs.rootMounted.vfsRead hiStorage [pathSeperator, 97] 0 2 fun _ => 0).map
      (fun r => bytes r.2 0 2) = .ok (ascii "hi") ∧
    (shcmdCat initFdpArr (Vfs.rootMounted.calls hiStorage) (fun _ => 0) [pathSeperator]
      (some [pathSeperator, 97])).map (·.output) = .ok (ascii "h\n") ∧
    ¬ PrintsWhole (shcmdCat initFdpArr (Vfs.rootMounted.calls hiStorage) (fun _ => 0)
      [pathSeperator] (some [pathSeperator, 97])) (ascii "hi") := by
  have hprints : (shcmdCat initFdpArr (Vfs.rootMounted.calls hiStorage) (fun _ => 0)
      [pathSeperator] (some [pathSeperator, 97])).map (·.output) = .ok (ascii "h\n") := by
    decide +kernel
  refine ⟨by decide +kernel, hprints, ?_⟩
  rintro ⟨out, hrun, hout, _⟩
  rw [hrun] at hprints
  have hh := hout.symm.trans (Except.ok.inj hprints)
  exact absurd hh (by decide)

end BiosKernel
