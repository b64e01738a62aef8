import BiosKernel.Ext2.EntryWalk
import BiosKernel.Vfs.Queries

namespace BiosKernel
open ByteMem Checked
set_option autoImplicit true

/-- What the answers of the four queries have to do with each other. -/
structure Agreement (pathExists : Result Int) (fileSize : Result Nat)
    (read : Nat → Nat → Mem → Result (Nat × Mem)) (listDir : Result (List CString)) : Prop where
  size : pathExists = .ok 0 ↔ fileSize = .ok minusOne
  read : ∀ offset count out, offset < 2 ^ 64 → count < 2 ^ 64 →
    ((∃ out', read offset count out = .ok (minusOne, out')) ↔ pathExists = .ok 0)
  list : ∀ l, listDir = .ok l → l ≠ [] → pathExists = .ok 1

def isDirectory (inode : Mem) : Prop := iMode inode &&& ext2SIfmt = ext2SIfdir

/-- Taken for a directory, the file leads to an entry of length 0: each entry begins where the one
before it ends. -/
def LeadsNowhere (fs : MountedFs) (n size : Nat) : Prop :=
  ∀ count data, ext2ReadInode fs.toFilesystemData fs.superBlock n 0 size
      (mallocBuffer fs.behind size) = Except.ok (count, data) →
    ∃ o, Reached data (fun _ => False) size 0 o ∧ o + 1 < size ∧
      (Ext2DirEntry.read data o).sizeOfEntry = 0

/-- The inode at a path, where there is one, is a directory, or its file has no entries, or one of
length 0, and its size is not the one that is -1. -/
def PlainInode (fs : MountedFs) (path : CString) : Prop :=
  ∀ n inode, ext2GetInodeNumberAtPath fs fs.superBlock path = Except.ok n →
    n ≠ 0 → ext2ReadInodeMetadata fs.toFilesystemData fs.superBlock n = Except.ok inode →
    inodeSize inode ≠ minusOne ∧
      (isDirectory inode ∨ inodeSize inode ≤ 1 ∨ LeadsNowhere fs n (inodeSize inode))

variable {path : CString}

theorem existsValue_ne_zero (inode : Mem) : existsValue inode ≠ 0 := by
  rw [existsValue]
  split
  · decide
  · split
    · decide
    · decide

theorem existsValue_eq_one_iff (inode : Mem) : existsValue inode = 1 ↔ isDirectory inode := by
  rw [existsValue, isDirectory]
  split
  · next h => exact ⟨fun _ => h, fun _ => rfl⟩
  · next h =>
    split
    · exact ⟨fun he => absurd he (by decide), fun he => absurd he h⟩
    · exact ⟨fun he => absurd he (by decide), fun he => absurd he h⟩

theorem agreement_error (e : Fault) :
    Agreement (.error e) (.error e) (fun _ _ _ => .error e) (.error e) where
  size := ⟨nofun, nofun⟩
  read _ _ _ _ _ := ⟨nofun, nofun⟩
  list _ h := nomatch h

theorem agreement_not_found :
    Agreement (.ok 0) (.ok minusOne) (fun _ _ out => .ok (minusOne, out)) (.ok []) where
  size := ⟨fun _ => rfl, fun _ => rfl⟩
  read _ _ out _ _ := ⟨fun _ => rfl, fun _ => ⟨out, rfl⟩⟩
  list l h hne := by
    cases h
    exact absurd rfl hne

theorem agreement_inode_iff {read : Nat → Nat → Mem → Result (Nat × Mem)} {size : Nat}
    (hread : ∀ offset count out n out', offset < 2 ^ 64 → read offset count out = .ok (n, out') →
      n ≤ size) (hsize : size < 2 ^ 64) (inode : Mem) (listDir : Result (List CString)) :
    Agreement (.ok (existsValue inode)) (.ok size) read listDir ↔
      size ≠ minusOne ∧ (isDirectory inode ∨ ∀ l, listDir = .ok l → l = []) := by
  have hne := existsValue_ne_zero inode
  constructor
  · intro h
    refine ⟨fun he => hne (Except.ok.inj (h.size.mpr (by rw [he]))), ?_⟩
    by_cases hd : isDirectory inode
    · exact .inl hd
    · right
      intro l hl
      by_contra hnil
      exact hd ((existsValue_eq_one_iff inode).mp (Except.ok.inj (h.list l hl hnil)))
  · rintro ⟨hminus, hdir⟩
    refine ⟨?_, ?_, ?_⟩
    · exact ⟨fun h => absurd (Except.ok.inj h) hne, fun h => absurd (Except.ok.inj h) hminus⟩
    · intro offset count out ho _
      refine ⟨?_, fun h => absurd (Except.ok.inj h) hne⟩
      rintro ⟨out', hr⟩
      have hle := hread offset count out _ out' ho hr
      rw [minusOne] at hle hminus
      omega
    · intro l hl hnil
      rcases hdir with hd | hempty
      · rw [(existsValue_eq_one_iff inode).mpr hd]
      · exact absurd (hempty l hl) hnil

theorem not_ends_iff (data : Mem) (size : Nat) : ¬ Ends data (fun _ => False) size 0 ↔
    ∃ o, Reached data (fun _ => False) size 0 o ∧ o + 1 < size ∧
      (Ext2DirEntry.read data o).sizeOfEntry = 0 := by
  simp only [Ends, false_or, ne_eq, not_forall, not_not, exists_prop]

theorem ext2ListDir_empty_iff {fs : MountedFs} {n : Nat} (h0 : n ≠ 0)
    (hn : ext2GetInodeNumberAtPath fs fs.superBlock path = Except.ok n)
    (hs : ext2GetInodeSize fs.toFilesystemData fs.superBlock n = Except.ok size)
    (hsize : size < 2 ^ 64) :
    (∀ l, ext2ListDir fs path = .ok l → l = []) ↔ size ≤ 1 ∨ LeadsNowhere fs n size := by
  rw [LeadsNowhere, ext2ListDir, ext2ReadSuperBlock_eq, ok_bind, hn, ok_bind, if_neg h0, hs,
    ok_bind]
  cases hread : ext2ReadInode fs.toFilesystemData fs.superBlock n 0 size
      (mallocBuffer fs.behind size) with
  | error e =>
    refine ⟨fun _ => .inr fun count data h => ?_, fun _ l h => ?_⟩
    · cases h
    · cases h
  | ok x =>
    obtain ⟨count, data⟩ := x
    have hcount := ext2ReadInode_eq_size hs hsize hread
    subst hcount
    refine (listEntriesLoop_empty_iff data hsize).trans ?_
    rw [not_ends_iff]
    refine or_congr_right ⟨fun h count' data' heq => ?_, fun h => h _ _ rfl⟩
    cases heq
    exact h

section Found

variable {fs : MountedFs} {n : Nat}
  (hn : ext2GetInodeNumberAtPath fs fs.superBlock path = Except.ok n) (h0 : n ≠ 0)
include hn h0

theorem agreement_unreadable
    (hi : ext2ReadInodeMetadata fs.toFilesystemData fs.superBlock n = Except.error e) :
    Agreement (ext2PathExists fs path) (ext2FileSize fs path)
      (fun offset count out => ext2FileRead offset count out fs path) (ext2ListDir fs path) := by
  have hlist : ext2ListDir fs path = .error e := by
    rw [ext2ListDir, ext2ReadSuperBlock_eq, ok_bind, hn, ok_bind, if_neg h0, ext2GetInodeSize, hi]
    rfl
  rw [ext2PathExists_of_lookup hn h0, ext2FileSize_of_lookup hn h0, hlist, ext2GetInodeSize, hi]
  simp only [ext2FileRead_of_lookup hn h0, ext2ReadInode, ext2GetInodeSize, hi]
  exact agreement_error e

theorem agreement_readable_iff
    (hi : ext2ReadInodeMetadata fs.toFilesystemData fs.superBlock n = Except.ok inode) :
    Agreement (ext2PathExists fs path) (ext2FileSize fs path)
      (fun offset count out => ext2FileRead offset count out fs path) (ext2ListDir fs path) ↔
      inodeSize inode ≠ minusOne ∧
        (isDirectory inode ∨ inodeSize inode ≤ 1 ∨ LeadsNowhere fs n (inodeSize inode)) := by
  have hs : ext2GetInodeSize fs.toFilesystemData fs.superBlock n =
      Except.ok (inodeSize inode) := by
    rw [ext2GetInodeSize, hi]
    rfl
  have hread (offset count out m out') (ho : offset < 2 ^ 64) (hr : ext2ReadInode
      fs.toFilesystemData fs.superBlock n offset count out = Except.ok (m, out')) :
      m ≤ inodeSize inode := ext2ReadInode_le hs ho hr
  rw [ext2PathExists_of_lookup hn h0, ext2FileSize_of_lookup hn h0, hi, hs]
  simp only [ext2FileRead_of_lookup hn h0]
  refine (agreement_inode_iff hread (inodeSize_lt inode) inode _).trans ?_
  rw [ext2ListDir_empty_iff h0 hn hs (inodeSize_lt inode)]

end Found

theorem agreement_ext2_iff (fs : MountedFs) (path : CString) :
    Agreement (ext2PathExists fs path) (ext2FileSize fs path)
      (fun offset count out => ext2FileRead offset count out fs path) (ext2ListDir fs path) ↔
      PlainInode fs path := by
  rw [PlainInode]
  cases hn : ext2GetInodeNumberAtPath fs fs.superBlock path with
  | error e =>
    simp only [ext2PathExists, ext2FileSize, ext2ListDir, ext2FileRead, ext2ReadSuperBlock_eq,
      ok_bind, hn]
    refine ⟨fun _ n inode h => ?_, fun _ => agreement_error e⟩
    cases h
  | ok n =>
    by_cases h0 : n = 0
    · subst h0
      simp only [ext2PathExists, ext2FileSize, ext2ListDir, ext2FileRead, ext2ReadSuperBlock_eq,
        ok_bind, hn]
      refine ⟨fun _ n inode h hne => ?_, fun _ => agreement_not_found⟩
      cases h
      exact absurd rfl hne
    · cases hi : ext2ReadInodeMetadata fs.toFilesystemData fs.superBlock n with
      | error e =>
        refine iff_of_true (agreement_unreadable hn h0 hi) fun m inode h _ hm => ?_
        cases h
        rw [hi] at hm
        cases hm
      | ok inode =>
        rw [agreement_readable_iff hn h0 hi]
        constructor
        · intro h m inode' hm _ hi'
          cases hm
          cases hi.symm.trans hi'
          exact h
        · intro h
          exact h n inode rfl h0 hi

namespace Vfs

/-- The four queries agree on whether the path exists. -/
def QueriesAgree (v : Vfs) (st : Storage) (path : CString) : Prop :=
  Agreement (v.vfsPathExists st path) (v.vfsGetFileSize st path)
    (fun offset count out => v.vfsRead st path offset count out) (v.vfsListDir st path)

/-- The path is consumed where it ends in a directory, and on a mount it is an ext2 one that has a
plain inode or none at the rest of the path. -/
def AgreesAt (v : Vfs) (st : Storage) (path : CString) : Prop :=
  match (v.vfsGetNode path).foundNode with
  | none => True
  | some i =>
    match (v.node i).data with
    | .list _ => (v.vfsGetNode path).remainingPath = none
    | .mount fs => fs.type = .ext2 ∧
        PlainInode (st.mounted fs) ((v.vfsGetNode path).remainingPath.getD [pathSeperator])

/-- In a directory of the tree only a consumed path can be agreed on: the size and the read of a
missing child are 0 and not -1. -/
theorem agreement_dir_iff (consumed : Prop) [Decidable consumed] (names : List CString) :
    Agreement (.ok (if consumed then 1 else 0)) (.ok 0) (fun _ _ out => .ok (0, out)) (.ok names) ↔
      consumed := by
  constructor
  · intro h
    by_contra hc
    have hsize := h.size.mp (by rw [if_neg hc])
    exact absurd (Except.ok.inj hsize) (by decide)
  · intro hc
    rw [if_pos hc]
    refine ⟨⟨?_, ?_⟩, ?_, fun _ _ _ => rfl⟩
    · exact fun h => absurd (Except.ok.inj h) (by decide)
    · exact fun h => absurd (Except.ok.inj h) (by decide)
    · intro offset count out _ _
      refine ⟨?_, fun h => absurd (Except.ok.inj h) (by decide)⟩
      rintro ⟨out', h⟩
      have hminus : 0 = minusOne := congrArg Prod.fst (Except.ok.inj h)
      exact absurd hminus (by decide)

theorem Typed.dir_status {v : Vfs} (hv : v.Typed) (hf : (v.vfsGetNode path).foundNode = some i)
    (ht : (v.node i).type = .dir) : (v.vfsGetNode path).status = .ok := by
  obtain ⟨hnone, _⟩ | ⟨j, _, hj, hs | ⟨_, hfs⟩⟩ := hv.vfsGetNode_cases path
  · rw [hnone] at hf
    cases hf
  · exact hs
  · cases hf.symm.trans hj
    rw [ht] at hfs
    cases hfs

/-- The queries agree on a path exactly when it is consumed in the tree, or its rest has no inode
on an ext2 mount or a plain one. -/
theorem queriesAgree_iff (v : Vfs) (st : Storage) (path : CString) (hv : v.Built) :
    v.QueriesAgree st path ↔ v.AgreesAt st path := by
  rw [QueriesAgree, AgreesAt]
  cases hf : (v.vfsGetNode path).foundNode with
  | none =>
    simp only [vfsPathExists, vfsGetFileSize, vfsListDir, vfsRead, vfsQuery, existsNode, queryNode,
      hf]
    exact ⟨fun _ => trivial, fun _ => agreement_not_found⟩
  | some i =>
    dsimp only
    obtain ⟨ht, l, hd⟩ | ⟨ht, fs, hd⟩ := hv.typed.data i (hv.typed.found_lt hf)
    · simp only [vfsPathExists, vfsGetFileSize, vfsListDir, vfsRead, vfsQuery, existsNode,
        queryNode, hf, ht, hd, hv.typed.dir_status hf ht, true_and]
      exact agreement_dir_iff _ _
    · rw [vfsGetFileSize, vfsListDir, hv.typed.vfsPathExists_mount st hf hd,
        hv.typed.vfsQuery_mount st hf hd, hv.typed.vfsQuery_mount st hf hd, hd]
      simp only [vfsRead, hv.typed.vfsQuery_mount st hf hd]
      cases fs.type with
      | ext2 =>
        rw [agreement_ext2_iff]
        exact ⟨fun h => ⟨rfl, h⟩, fun h => h.2⟩
      | unknown =>
        refine ⟨fun h => ?_, fun h => ?_⟩
        · exact absurd (Except.ok.inj (h.size.mp rfl)) (by decide)
        · cases h.1

theorem queriesAgree_root : initVfs.QueriesAgree ⟨fun _ _ => 0, fun _ => 0⟩ [pathSeperator] := by
  refine (queriesAgree_iff initVfs _ [pathSeperator] ⟨[], rfl⟩).mpr ?_
  have hnode : initVfs.vfsGetNode [pathSeperator] = ⟨some vfsRoot, none, .ok⟩ := by decide +kernel
  rw [AgreesAt, hnode]
  rfl

/-- In the empty tree `/a` does not exist, and has size 0. -/
theorem queriesAgree_missing : initVfs.Built ∧
    ¬ initVfs.QueriesAgree ⟨fun _ _ => 0, fun _ => 0⟩ [pathSeperator, 97] := by
  refine ⟨⟨[], rfl⟩, ?_⟩
  intro h
  have hexists : initVfs.vfsPathExists ⟨fun _ _ => 0, fun _ => 0⟩ [pathSeperator, 97] = .ok 0 := by
    decide +kernel
  have hsize : initVfs.vfsGetFileSize ⟨fun _ _ => 0, fun _ => 0⟩ [pathSeperator, 97] = .ok 0 := by
    decide +kernel
  have hminus := h.size.mp hexists
  rw [hsize] at hminus
  exact absurd (Except.ok.inj hminus) (by decide)

end Vfs

end BiosKernel
