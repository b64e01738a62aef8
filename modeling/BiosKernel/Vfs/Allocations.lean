import BiosKernel.Ext2.Allocations
import BiosKernel.Vfs.NormalForm
import BiosKernel.Vfs.Queries
import BiosKernel.Vfs.Resolve

namespace BiosKernel
open Accounted Allocator ByteMem Checked
set_option autoImplicit true

namespace Allocating

/-- What `vfs_get_node` returns, and `path_searched`. Without a copy of the path this pointer is not
set: it is `stray`, whatever the stack holds there. -/
def vfsGetNode (v : Vfs) (stray : Option Nat) (path : CString) :
    Accounted (VfsGetNodeReturn × Option Nat) :=
  match preprocessPath path with
  | none => return (⟨none, none, .memoryErr⟩, stray)
  | some path => do
    let pathPreproccesed ← alloc
    if path.at0 = 0 then
      release pathPreproccesed
      return (⟨none, some path, .invalidPath⟩, some pathPreproccesed)
    else
      let currentPathPosition := if path.at0 = pathSeperator then path.tail else path
      let ret := v.getNodeLoop path path.length vfsRoot path currentPathPosition
      if ret.status = .noDir then
        release pathPreproccesed
        return (ret, some pathPreproccesed)
      else return (ret, some pathPreproccesed)

/-- The end of every query, where a pointer that is not `NULL` is freed. -/
def cleanup : Option Nat → Accounted Unit
  | none => return ()
  | some pathSearched => release pathSearched

/-- The frame of the queries: what they do with a node stands between `vfs_get_node` and the
cleanup. -/
def withNode (v : Vfs) (stray : Option Nat) (path : CString)
    (answer : VfsGetNodeReturn → Accounted α) : Accounted α := do
  let ret ← vfsGetNode v stray path
  let value ← answer ret.1
  cleanup ret.2
  return value

def vfsRead (v : Vfs) (st : Storage) (stray : Option Nat) (path : CString)
    (offsetBytes countBytes : Nat) (out : Mem) : Accounted (Nat × Mem) :=
  withNode v stray path (v.queryNode st (minusOne, out) (fun _ => (0, out)) (0, out)
    (ext2FileRead offsetBytes countBytes out))

def vfsGetFileSize (v : Vfs) (st : Storage) (stray : Option Nat) (path : CString) :
    Accounted Nat :=
  withNode v stray path (v.queryNode st minusOne (fun _ => 0) 0 ext2FileSize)

def vfsPathExists (v : Vfs) (st : Storage) (stray : Option Nat) (path : CString) :
    Accounted Int :=
  withNode v stray path (v.existsNode st)

section Erasure

variable (fs : MountedFs) (remainingPath : CString)

theorem erases_lookup {f : Ext2SuperBlock → Nat → Accounted α} {g : Ext2SuperBlock → Nat → Result α}
    (h : ∀ sb n, Erases (f sb n) (g sb n)) :
    Erases (ext2ReadSuperBlock fs.toFilesystemData >>= fun sb =>
        ext2GetInodeNumberAtPath fs sb remainingPath >>= f sb)
      (ext2ReadSuperBlock fs.toFilesystemData >>= fun sb =>
        ext2GetInodeNumberAtPath fs sb remainingPath >>= g sb) :=
  (erases_ext2ReadSuperBlock _).bind fun sb =>
    (erases_ext2GetInodeNumberAtPath fs sb _).bind (h sb)

theorem erases_ext2FileSize :
    Erases (ext2FileSize fs remainingPath) (ext2FileSize fs remainingPath) :=
  erases_lookup fs remainingPath fun _ _ =>
    .ite (fun _ => .pure _) fun _ => erases_ext2GetInodeSize _ _ _

theorem erases_ext2FileRead (offsetBytes countBytes : Nat) (out : Mem) :
    Erases (ext2FileRead offsetBytes countBytes out fs remainingPath)
      (ext2FileRead offsetBytes countBytes out fs remainingPath) :=
  erases_lookup fs remainingPath fun _ _ =>
    .ite (fun _ => .pure _) fun _ => erases_ext2ReadInode _ _ _ _ _ _

theorem erases_ext2PathExists :
    Erases (ext2PathExists fs remainingPath) (ext2PathExists fs remainingPath) :=
  erases_lookup fs remainingPath fun _ _ =>
    .ite (fun _ => .pure _) fun _ => (erases_ext2ReadInodeMetadata _ _ _).bind fun _ => .pure _

end Erasure

section Frame

variable (v : Vfs) (stray : Option Nat)

theorem stopped_noDir (names : List CString)
    (hs : (v.stopped path remainingPath i names).status = .noDir) :
    (v.stopped path remainingPath i names).foundNode = none := by
  cases names with
  | nil => cases hs
  | cons c rest =>
    rw [Vfs.stopped] at hs ⊢
    cases ht : (v.node i).type with
    | dir =>
      rw [ht] at hs
      cases hs
    | fileSystem =>
      rw [ht] at hs
      cases hs
    | _ => rfl

theorem vfsGetNode_empty (h : path.at0 = 0) (l : Ledger) :
    vfsGetNode v stray path l = .ok ((v.vfsGetNode path, stray), l) := by
  rw [vfsGetNode, Vfs.vfsGetNode, preprocessPath, if_pos h]
  rfl

/-- The copy of the path is still there when the node is looked at, or there is no node. -/
theorem vfsGetNode_copy (h : path.at0 ≠ 0) (l : Ledger) :
    vfsGetNode v stray path l = .ok ((v.vfsGetNode path, some l.allocs), l.alloc) ∨
    (v.vfsGetNode path).foundNode = none ∧ vfsGetNode v stray path l =
      .ok ((v.vfsGetNode path, some l.allocs), l.alloc.release l.allocs) := by
  have hpre := preprocessPath_normalForm h
  by_cases h0 : (normalForm path).at0 = 0
  · right
    rw [vfsGetNode, Vfs.vfsGetNode, hpre]
    simp only [if_pos h0]
    exact ⟨trivial, rfl⟩
  · have hnone : (v.vfsGetNode path).status = .noDir → (v.vfsGetNode path).foundNode = none := by
      rw [Vfs.vfsGetNode_eq v hpre (Vfs.ne_nil_of_at0 h0)]
      exact stopped_noDir v _
    rw [Vfs.vfsGetNode, hpre] at hnone ⊢
    rw [vfsGetNode, hpre]
    simp only [if_neg h0] at hnone ⊢
    generalize v.getNodeLoop _ _ _ _ _ = ret at hnone ⊢
    by_cases hs : ret.status = .noDir
    · simp only [if_pos hs]
      exact .inr ⟨hnone hs, rfl⟩
    · simp only [if_neg hs]
      exact .inl rfl

theorem withNode_run {answer : VfsGetNodeReturn → Accounted α}
    (h : vfsGetNode v stray path l = .ok ((ret, searched), l')) :
    withNode v stray path answer l =
      answer ret l' >>= fun value => .ok (value.1, searched.elim value.2 value.2.release) := by
  show (vfsGetNode v stray path l >>= fun ret => answer ret.1.1 ret.2 >>= fun value =>
    cleanup ret.1.2 value.2 >>= fun u => .ok (value.1, u.2)) = _
  rw [h, ok_bind]
  congr 1
  funext value
  cases searched with
  | none => rfl
  | some p => rfl

theorem erases_withNode {answer : VfsGetNodeReturn → Accounted α}
    (h : Erases (answer (v.vfsGetNode path)) r) : Erases (withNode v stray path answer) r := by
  intro l
  obtain ⟨searched, l', hrun⟩ : ∃ searched l',
      vfsGetNode v stray path l = .ok ((v.vfsGetNode path, searched), l') := by
    by_cases hpath : path.at0 = 0
    · exact ⟨_, _, vfsGetNode_empty v stray hpath l⟩
    · obtain hrun | ⟨_, hrun⟩ := vfsGetNode_copy v stray hpath l
      · exact ⟨_, _, hrun⟩
      · exact ⟨_, _, hrun⟩
  have hanswer := h l'
  rw [withNode_run v stray hrun, ← hanswer]
  cases answer (v.vfsGetNode path) l' with
  | error e => rfl
  | ok value => rfl

theorem erases_queryNode (st : Storage) (notFound : α) (onDir : Nat → α) (other : α)
    {onExt2 : MountedFs → CString → Accounted α} {plain : MountedFs → CString → Result α}
    (h : ∀ fs rest, Erases (onExt2 fs rest) (plain fs rest)) (ret : VfsGetNodeReturn) :
    Erases (v.queryNode st notFound onDir other onExt2 ret)
      (v.queryNode st notFound onDir other plain ret) := by
  rw [Vfs.queryNode, Vfs.queryNode]
  cases ret.foundNode with
  | none => exact .pure _
  | some found =>
    dsimp only
    cases (v.node found).type with
    | fileSystem =>
      cases (v.node found).data with
      | list nodes => exact .pure _
      | mount fs =>
        refine .ite (fun _ => .pure _) fun _ => ?_
        cases fs.type with
        | ext2 => exact h _ _
        | unknown => exact .pure _
    | _ => exact .pure _

/-- Without the ledger the calls are those of the tree alone. -/
theorem erases_vfsRead (st : Storage) (path : CString) (offsetBytes countBytes : Nat) (out : Mem) :
    Erases (vfsRead v st stray path offsetBytes countBytes out)
      (v.vfsRead st path offsetBytes countBytes out) :=
  erases_withNode v stray (erases_queryNode v st _ _ _
    (fun fs rest => erases_ext2FileRead fs rest offsetBytes countBytes out) _)

theorem erases_vfsGetFileSize (st : Storage) (path : CString) :
    Erases (vfsGetFileSize v st stray path) (v.vfsGetFileSize st path) :=
  erases_withNode v stray (erases_queryNode v st _ _ _ erases_ext2FileSize _)

theorem erases_vfsPathExists (st : Storage) (path : CString) :
    Erases (vfsPathExists v st stray path) (v.vfsPathExists st path) := by
  refine erases_withNode v stray ?_
  rw [Vfs.vfsPathExists, Vfs.existsNode, Vfs.existsNode]
  cases (v.vfsGetNode path).foundNode with
  | none => exact .pure _
  | some found =>
    dsimp only
    cases (v.node found).type with
    | fileSystem =>
      cases (v.node found).data with
      | list nodes => exact .pure _
      | mount fs =>
        dsimp only
        cases fs.type with
        | ext2 => exact erases_ext2PathExists _ _
        | unknown => exact .pure _
    | _ => exact .pure _

end Frame

end Allocating

end BiosKernel
