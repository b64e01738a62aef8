import BiosKernel.Vfs.Allocations
import BiosKernel.Vfs.DivideError

namespace BiosKernel
open Accounted ByteMem Checked Runs
set_option autoImplicit true

/-- An ext2 file system is mounted on the node. -/
def VfsNode.IsExt2 (n : VfsNode) : Prop :=
  n.type = .fileSystem ∧ ∃ fs, n.data = .mount fs ∧ fs.type = .ext2

/-- The names of the path lead to a mounted ext2 file system. -/
def Vfs.OnExt2 (v : Vfs) (path : CString) : Prop :=
  normalForm path ≠ [] ∧
    (v.node (v.descend vfsRoot (components (normalForm path))).1).IsExt2

namespace Vfs

variable {v : Vfs}

theorem at0_ne_zero_of_normalForm (h : normalForm path ≠ []) : path.at0 ≠ 0 := by
  intro h0
  refine h (List.eq_nil_of_sublist_nil ?_)
  rw [← CString.text_eq_nil_iff.mpr h0]
  exact normalForm_sublist path

theorem vfsGetNode_normalForm (v : Vfs) (h : normalForm path ≠ []) :
    ∃ remainingPath, v.vfsGetNode path = v.stopped (normalForm path) remainingPath
      (v.descend vfsRoot (components (normalForm path))).1
      (v.descend vfsRoot (components (normalForm path))).2 :=
  ⟨_, vfsGetNode_eq v (preprocessPath_normalForm (at0_ne_zero_of_normalForm h)) h⟩

theorem OnExt2.found (h : v.OnExt2 path) : ∃ i fs, (v.vfsGetNode path).foundNode = some i ∧
    ((v.vfsGetNode path).status = .ok ∨ (v.vfsGetNode path).status = .continuesInFileSystem) ∧
    (v.node i).type = .fileSystem ∧ (v.node i).data = .mount fs ∧ fs.type = .ext2 := by
  obtain ⟨hne, ht, fs, hd, hfs⟩ := h
  obtain ⟨remainingPath, hget⟩ := v.vfsGetNode_normalForm hne
  refine ⟨_, fs, ?_, ?_, ht, hd, hfs⟩
  · rw [hget]
    cases (v.descend vfsRoot (components (normalForm path))).2 with
    | nil => rfl
    | cons c rest => rw [stopped, ht]
  · rw [hget]
    cases (v.descend vfsRoot (components (normalForm path))).2 with
    | nil => exact .inl rfl
    | cons c rest =>
      rw [stopped, ht]
      exact .inr rfl

theorem onExt2_of_found (hf : (v.vfsGetNode path).foundNode = some i) (hi : (v.node i).IsExt2) :
    v.OnExt2 path := by
  obtain ⟨t, cur, hpre, hne, -⟩ := vfsGetNode_walk hf
  have ht : t = normalForm path := by
    have h0 : path.at0 ≠ 0 := by
      intro h0
      rw [preprocessPath, if_pos h0] at hpre
      cases hpre
    exact Option.some.inj (hpre.symm.trans (preprocessPath_normalForm h0))
  subst ht
  obtain ⟨remainingPath, hget⟩ := v.vfsGetNode_normalForm hne
  have hstop : i = (v.descend vfsRoot (components (normalForm path))).1 := by
    rw [hget] at hf
    cases hleft : (v.descend vfsRoot (components (normalForm path))).2 with
    | nil =>
      rw [hleft] at hf
      exact (Option.some.inj hf).symm
    | cons c rest =>
      rw [hleft, stopped] at hf
      split at hf
      · exact (Option.some.inj hf).symm
      · exact (Option.some.inj hf).symm
      · cases hf
  exact ⟨hne, hstop ▸ hi⟩

end Vfs

namespace Allocating

section Gains

variable {fs : MountedFs} {c : UInt8} (hc : PathByte c) (s : CString)
include hc

theorem gains_lookup {f : Ext2SuperBlock → Nat → Accounted α}
    (hmissing : ∀ sb, Gains 0 (f sb 0)) (hfound : ∀ sb n, n ≠ 0 → Gains 1 (f sb n)) :
    Gains 1 (ext2ReadSuperBlock fs.toFilesystemData >>= fun sb =>
      ext2GetInodeNumberAtPath fs sb (c :: s) >>= f sb) := by
  refine (gains_ext2ReadSuperBlock _).before fun sb => Always.bind ?_
  refine (always_ext2GetInodeNumberAtPath fs sb hc).mono fun inodeNum n hn => ?_
  by_cases h0 : inodeNum = 0
  · subst h0
    exact Always.mono (hmissing sb) fun _ m hm => by have := hn.2 rfl; omega
  · exact Always.mono (hfound sb inodeNum h0) fun _ m hm => by omega

theorem gains_ext2FileSize : Gains 1 (ext2FileSize fs (c :: s)) := by
  refine gains_lookup hc s (fun sb => .pure _) fun sb n h0 => ?_
  rw [if_neg h0]
  exact gains_ext2GetInodeSize _ _ _

theorem gains_ext2FileRead (offsetBytes countBytes : Nat) (out : Mem) :
    Gains 1 (ext2FileRead offsetBytes countBytes out fs (c :: s)) := by
  refine gains_lookup hc s (fun sb => .pure _) fun sb n h0 => ?_
  rw [if_neg h0]
  exact gains_ext2ReadInode _ _ _ _ _ _

theorem gains_ext2PathExists : Gains 1 (ext2PathExists fs (c :: s)) := by
  refine gains_lookup hc s (fun sb => .pure _) fun sb n h0 => ?_
  rw [if_neg h0]
  exact (gains_ext2ReadInodeMetadata _ _ _).andThen fun _ => .pure _

end Gains

/-- What a query does with the node leaves something in the heap on an ext2 file system, and does
not touch the heap anywhere else. -/
structure LeaksOnExt2 (v : Vfs) (path : CString) (answer : VfsGetNodeReturn → Accounted α) :
    Prop where
  mounted : v.OnExt2 path → Gains 1 (answer (v.vfsGetNode path))
  elsewhere : ¬ v.OnExt2 path → ∃ a, answer (v.vfsGetNode path) = pure a

theorem leaksOnExt2_queryNode (v : Vfs) (st : Storage) (path : CString) (notFound : α)
    (onDir : Nat → α) (other : α) {onExt2 : MountedFs → CString → Accounted α}
    (h : ∀ fs c s, PathByte c → Gains 1 (onExt2 fs (c :: s))) :
    LeaksOnExt2 v path (v.queryNode st notFound onDir other onExt2) where
  mounted hon := by
    obtain ⟨i, fs, hf, hs, ht, hd, hfs⟩ := hon.found
    obtain ⟨c, s, hrest, hc⟩ := Vfs.remainingPath_getD_cons hf
    have hstatus : ¬ ((v.vfsGetNode path).status ≠ .continuesInFileSystem ∧
        (v.vfsGetNode path).status ≠ .ok) := fun hno => hs.elim hno.2 hno.1
    rw [Vfs.queryNode, hf]
    dsimp only
    rw [ht, hd]
    dsimp only
    rw [if_neg hstatus, hfs, hrest]
    exact h _ c s hc
  elsewhere hoff := by
    rw [Vfs.queryNode]
    cases hf : (v.vfsGetNode path).foundNode with
    | none => exact ⟨_, rfl⟩
    | some i =>
      dsimp only
      split
      · exact ⟨_, rfl⟩
      · next fs ht hd =>
        split
        · exact ⟨_, rfl⟩
        · cases hfs : fs.type with
          | ext2 => exact absurd (Vfs.onExt2_of_found hf ⟨ht, fs, hd, hfs⟩) hoff
          | unknown => exact ⟨_, rfl⟩
      · exact ⟨_, rfl⟩

theorem leaksOnExt2_existsNode (v : Vfs) (st : Storage) (path : CString) :
    LeaksOnExt2 v path (v.existsNode st) where
  mounted hon := by
    obtain ⟨i, fs, hf, -, ht, hd, hfs⟩ := hon.found
    obtain ⟨c, s, hrest, hc⟩ := Vfs.remainingPath_getD_cons hf
    rw [Vfs.existsNode, hf]
    dsimp only
    rw [ht, hd]
    dsimp only
    rw [hfs, hrest]
    exact gains_ext2PathExists hc s
  elsewhere hoff := by
    rw [Vfs.existsNode]
    cases hf : (v.vfsGetNode path).foundNode with
    | none => exact ⟨_, rfl⟩
    | some i =>
      dsimp only
      split
      · exact ⟨_, rfl⟩
      · next fs ht hd =>
        cases hfs : fs.type with
        | ext2 => exact absurd (Vfs.onExt2_of_found hf ⟨ht, fs, hd, hfs⟩) hoff
        | unknown => exact ⟨_, rfl⟩
      · exact ⟨_, rfl⟩

end Allocating

/-- The calls of `malloc` and the calls of `free` that had an effect cancel out, and the same chunks
are live. -/
def AllocationNeutral (l l' : Ledger) : Prop := l.net l' = 0 ∧ l'.live = l.live

theorem AllocationNeutral.of_live {l l' : Ledger} (h : l'.live = l.live) :
    AllocationNeutral l l' := by
  refine ⟨?_, h⟩
  rw [Ledger.net_eq, h, Int.sub_self]

/-- The path is empty and the pointer that the cleanup then frees is that of a live chunk. -/
def FreesStray (stray : Option Nat) (path : CString) (l : Ledger) : Prop :=
  path.at0 = 0 ∧ ∃ p ∈ l.live, stray = some p

namespace Allocating

variable {v : Vfs} {stray : Option Nat} {path : CString} {l l' : Ledger}
  {answer : VfsGetNodeReturn → Accounted α}

/-- The copy of the path is freed, and what the driver left is not. -/
theorem withNode_leaks (ha : LeaksOnExt2 v path answer) (hon : v.OnExt2 path)
    (hrun : withNode v stray path answer l = .ok (a, l')) : 1 ≤ l.net l' := by
  obtain ⟨i, fs, hf, -⟩ := hon.found
  obtain hget | ⟨hnone, -⟩ := vfsGetNode_copy v stray (Vfs.at0_ne_zero_of_normalForm hon.1) l
  · rw [withNode_run v stray hget] at hrun
    obtain ⟨⟨value, l₁⟩, hanswer, hend⟩ := of_bind_eq_ok hrun
    cases hend
    have hgain := ha.mounted hon l.alloc value l₁ hanswer
    have halloc := l.net_alloc
    have hrelease := l₁.net_release_ge l.allocs
    have hfirst := Ledger.net_add l l.alloc l₁
    have hlast := Ledger.net_add l l₁ (l₁.release l.allocs)
    show 1 ≤ l.net (l₁.release l.allocs)
    omega
  · rw [hf] at hnone
    cases hnone

theorem withNode_copy (ha : LeaksOnExt2 v path answer) (hoff : ¬ v.OnExt2 path)
    (hpath : path.at0 ≠ 0) (hrun : withNode v stray path answer l = .ok (a, l')) :
    l'.live = l.live := by
  obtain ⟨b, hanswer⟩ := ha.elsewhere hoff
  obtain hget | ⟨-, hget⟩ := vfsGetNode_copy v stray hpath l
  · rw [withNode_run v stray hget, hanswer] at hrun
    cases hrun
    exact l.alloc_release_live
  · rw [withNode_run v stray hget, hanswer] at hrun
    cases hrun
    show ((l.alloc.release l.allocs).release l.allocs).live = l.live
    rw [l.alloc_release_release]
    exact l.alloc_release_live

theorem withNode_empty (ha : LeaksOnExt2 v path answer) (hoff : ¬ v.OnExt2 path)
    (hpath : path.at0 = 0) (hrun : withNode v stray path answer l = .ok (a, l')) :
    l' = stray.elim l l.release := by
  obtain ⟨b, hanswer⟩ := ha.elsewhere hoff
  rw [withNode_run v stray (vfsGetNode_empty v stray hpath l), hanswer] at hrun
  cases hrun
  rfl

theorem withNode_neutral_iff (ha : LeaksOnExt2 v path answer)
    (hrun : withNode v stray path answer l = .ok (a, l')) :
    AllocationNeutral l l' ↔ ¬ v.OnExt2 path ∧ ¬ FreesStray stray path l := by
  by_cases hon : v.OnExt2 path
  · have hnet := withNode_leaks ha hon hrun
    refine ⟨fun h => ?_, fun h => absurd hon h.1⟩
    rw [h.1] at hnet
    exact absurd hnet (by decide)
  · by_cases hpath : path.at0 = 0
    · have hend := withNode_empty ha hon hpath hrun
      refine ⟨fun h => ⟨hon, ?_⟩, fun h => .of_live ?_⟩
      · rintro ⟨-, p, hp, rfl⟩
        have hnet : l.net l' = -1 := by
          rw [hend]
          exact Ledger.net_release_of_mem hp
        rw [h.1] at hnet
        exact absurd hnet (by decide)
      · cases stray with
        | none => rw [hend]; rfl
        | some p =>
          have hp : p ∉ l.live := fun hp => h.2 ⟨hpath, p, hp, rfl⟩
          rw [hend]
          exact congrArg Ledger.live (Ledger.release_of_not_mem hp)
    · exact ⟨fun _ => ⟨hon, fun h => hpath h.1⟩,
        fun _ => .of_live (withNode_copy ha hon hpath hrun)⟩

end Allocating

inductive FileQuery where
  | pathExists
  | getFileSize
  | read (offsetBytes countBytes : Nat) (outBuffer : Mem)

namespace FileQuery

variable (v : Vfs) (st : Storage) (stray : Option Nat) (path : CString)

/-- The call returns: it meets no division by zero and no loop without end. -/
def Returns : FileQuery → Prop
  | .pathExists => ∃ ret, v.vfsPathExists st path = .ok ret
  | .getFileSize => ∃ ret, v.vfsGetFileSize st path = .ok ret
  | .read offsetBytes countBytes outBuffer =>
    ∃ ret, v.vfsRead st path offsetBytes countBytes outBuffer = .ok ret

/-- The ledger when the call returns. -/
def call (q : FileQuery) (l : Ledger) : Option Ledger :=
  match q with
  | .pathExists => (Allocating.vfsPathExists v st stray path l).toOption.map Prod.snd
  | .getFileSize => (Allocating.vfsGetFileSize v st stray path l).toOption.map Prod.snd
  | .read offsetBytes countBytes outBuffer =>
    (Allocating.vfsRead v st stray path offsetBytes countBytes outBuffer l).toOption.map Prod.snd

/-- Any number of calls leaves the heap as it was. -/
def KeepsHeap (q : FileQuery) (l : Ledger) : Prop :=
  ∀ n l', run (fun l (q : FileQuery) => q.call v st stray path l) l (List.replicate n q) = some l' →
    AllocationNeutral l l'

variable {v : Vfs} {st : Storage} {stray : Option Nat} {path : CString} {q : FileQuery}
  {l l' : Ledger}

theorem Returns.call (h : q.Returns v st path) (stray : Option Nat) (l : Ledger) :
    ∃ l', q.call v st stray path l = some l' := by
  have hledger {α : Type} {x : Accounted α} {ret : α} (hx : Erases x (.ok ret)) :
      ∃ l', (x l).toOption.map Prod.snd = some l' := by
    obtain ⟨⟨ret, l'⟩, hrun, -⟩ := of_map_eq_ok (hx l)
    rw [hrun]
    exact ⟨l', rfl⟩
  cases q with
  | pathExists =>
    obtain ⟨ret, hret⟩ := h
    exact hledger (hret ▸ Allocating.erases_vfsPathExists v stray st path)
  | getFileSize =>
    obtain ⟨ret, hret⟩ := h
    exact hledger (hret ▸ Allocating.erases_vfsGetFileSize v stray st path)
  | read offsetBytes countBytes outBuffer =>
    obtain ⟨ret, hret⟩ := h
    exact hledger (hret ▸
      Allocating.erases_vfsRead v stray st path offsetBytes countBytes outBuffer)

theorem call_neutral_iff (h : q.call v st stray path l = some l') :
    AllocationNeutral l l' ↔ ¬ v.OnExt2 path ∧ ¬ FreesStray stray path l := by
  have hframe {α : Type} {answer : VfsGetNodeReturn → Accounted α}
      (ha : Allocating.LeaksOnExt2 v path answer)
      (hx : (Allocating.withNode v stray path answer l).toOption.map Prod.snd = some l') :
      AllocationNeutral l l' ↔ ¬ v.OnExt2 path ∧ ¬ FreesStray stray path l := by
    obtain ⟨⟨a, l₁⟩, hrun, rfl⟩ := Option.map_eq_some_iff.mp hx
    exact Allocating.withNode_neutral_iff ha (of_toOption_eq_some hrun)
  cases q with
  | pathExists => exact hframe (Allocating.leaksOnExt2_existsNode v st path) h
  | getFileSize =>
    exact hframe (Allocating.leaksOnExt2_queryNode v st path _ _ _
      fun fs c s hc => Allocating.gains_ext2FileSize hc s) h
  | read offsetBytes countBytes outBuffer =>
    exact hframe (Allocating.leaksOnExt2_queryNode v st path _ _ _
      fun fs c s hc => Allocating.gains_ext2FileRead hc s _ _ _) h

theorem KeepsHeap.neutral (h : q.KeepsHeap v st stray path l)
    (hcall : q.call v st stray path l = some l') : AllocationNeutral l l' := by
  refine h 1 l' ?_
  show (q.call v st stray path l).bind some = some l'
  rw [hcall]
  rfl

theorem run_live (hoff : ¬ v.OnExt2 path) (hstray : ¬ FreesStray stray path l)
    (h : run (fun l (q : FileQuery) => q.call v st stray path l) l (List.replicate n q) = some l') :
    l'.live = l.live := by
  induction n generalizing l with
  | zero =>
    cases h
    rfl
  | succ n ih =>
    obtain ⟨l₁, hcall, hrun⟩ := run_cons h
    have hlive := ((call_neutral_iff hcall).mpr ⟨hoff, hstray⟩).2
    have hstray' : ¬ FreesStray stray path l₁ := by
      rwa [FreesStray, hlive]
    exact (ih hstray' hrun).trans hlive

/-- Off ext2 the queries give back all they take. On ext2 every call that returns leaves an inode
behind. -/
theorem keepsHeap_iff (stray : Option Nat) (l : Ledger) (hret : q.Returns v st path) :
    q.KeepsHeap v st stray path l ↔ ¬ v.OnExt2 path ∧ ¬ FreesStray stray path l := by
  constructor
  · intro hkeeps
    obtain ⟨l', hcall⟩ := hret.call stray l
    exact (call_neutral_iff hcall).mp (hkeeps.neutral hcall)
  · rintro ⟨hoff, hstray⟩ n l' hrun
    exact .of_live (run_live hoff hstray hrun)

/-- The size of the root directory of a tree without mounts. -/
theorem keepsHeap_root : FileQuery.getFileSize.KeepsHeap initVfs ⟨fun _ _ => 0, fun _ => 0⟩ none
    [pathSeperator] Ledger.empty := by
  have hret : FileQuery.getFileSize.Returns initVfs ⟨fun _ _ => 0, fun _ => 0⟩
      [pathSeperator] := ⟨0, by decide +kernel⟩
  refine (keepsHeap_iff none Ledger.empty hret).mpr ⟨?_, ?_⟩
  · rintro ⟨-, ht, -⟩
    exact absurd ht (by decide +kernel)
  · rintro ⟨h0, -⟩
    exact absurd h0 (by decide)

/-- To ask whether the root of a mounted ext2 file system exists leaves its inode in the heap: six
chunks are taken and five given back. -/
theorem pathExists_leaks_inode : Vfs.rootMounted.Built ∧
    (FileQuery.pathExists.call Vfs.rootMounted Vfs.goodStorage none [pathSeperator]
      Ledger.empty).map (fun l => (l.allocs, l.releases, l.live.length)) = some (6, 5, 1) ∧
    ¬ FileQuery.pathExists.KeepsHeap Vfs.rootMounted Vfs.goodStorage none [pathSeperator]
      Ledger.empty := by
  have hcount : (FileQuery.pathExists.call Vfs.rootMounted Vfs.goodStorage none [pathSeperator]
      Ledger.empty).map (fun l => (l.allocs, l.releases, l.live.length)) = some (6, 5, 1) := by
    decide +kernel
  refine ⟨Vfs.rootMounted_built, hcount, fun hkeeps => ?_⟩
  obtain ⟨l', hcall, hl⟩ := Option.map_eq_some_iff.mp hcount
  have hlive := congrArg List.length (hkeeps.neutral hcall).2
  simp only [Prod.mk.injEq] at hl
  rw [hl.2.2] at hlive
  exact absurd hlive (by decide)

end FileQuery

end BiosKernel
