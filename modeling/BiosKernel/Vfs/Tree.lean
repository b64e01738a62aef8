import BiosKernel.Lib.NamedTree
import BiosKernel.Lib.Runs
import BiosKernel.Lib.Segments
import BiosKernel.Vfs.Path

namespace BiosKernel
set_option autoImplicit true

inductive VfsNodeType where
  | unwnownType
  | regularFile
  | dir
  | charDevice
  | blockDevice
  | fifo
  | socket
  | symbolink
  | fileSystem
  deriving DecidableEq

inductive FileSystemType where
  | ext2
  | unknown
  deriving DecidableEq

inductive VfsStatus where
  | ok
  | continuesInFileSystem
  | dirAlreadyExists
  | unsupported
  | invalidPath
  | noDir
  | memoryErr
  deriving DecidableEq

/-- The `filesystem_data` of a mount. Its `mount_data` is never used. -/
structure MountData where
  diskNumber : Nat
  startOffset : Nat
  type : FileSystemType
  deriving DecidableEq

/-- What the `data` pointer of a node leads to: a list of nodes, empty for `NULL`, or a mount. -/
inductive VfsData where
  | list (nodes : List Nat)
  | mount (fs : MountData)
  deriving DecidableEq

def VfsData.children : VfsData → List Nat
  | .list nodes => nodes
  | .mount _ => []

structure VfsNode where
  type : VfsNodeType
  name : CString
  data : VfsData
  deriving DecidableEq

/-- `VFS_NODE_NAME_NUM_OF_CHARS`, the terminator included. -/
def vfsNodeNameNumOfChars : Nat := 256

/-- All nodes. Their addresses are counted in the order in which `malloc` gave them, from
`vfs_root` on. -/
structure Vfs where
  node : Nat → VfsNode
  count : Nat

/-- `remaining_path` points into `path_searched`. -/
structure VfsGetNodeReturn where
  foundNode : Option Nat
  remainingPath : Option CString
  status : VfsStatus
  deriving DecidableEq

def vfsRoot : Nat := 0

def rootNode : VfsNode := ⟨.dir, [pathSeperator], .list []⟩

def initVfs : Vfs := ⟨fun _ => rootNode, 1⟩

/-- The separator behind the segment at a pointer, or the end of the path. -/
def nextSeparatorPosition (currentPathPosition : CString) : CString :=
  match strchr currentPathPosition pathSeperator with
  | some next => next
  | none => (strchr currentPathPosition 0).getD []

namespace Vfs

def children (v : Vfs) (i : Nat) : List Nat := (v.node i).data.children

def findChildNode (v : Vfs) (parent : Nat) (segment : CString) (segmentLength : Nat) : Option Nat :=
  if (v.node parent).type ≠ .dir then none
  else (v.children parent).find? fun c =>
    memcmp (v.node c).name segment segmentLength = 0 ∧
      CString.at0 ((v.node c).name.drop segmentLength) = 0

/-- The loop of `vfs_get_node`. Every round goes on by a byte at least, so that no round is left
where the length of the path is used up. -/
def getNodeLoop (v : Vfs) (path : CString) : Nat → Nat → CString → CString → VfsGetNodeReturn
  | 0, currentNode, _, _ => ⟨some currentNode, none, .ok⟩
  | rounds + 1, currentNode, currentSeperatorPosition, currentPathPosition =>
    if currentPathPosition.at0 = 0 then ⟨some currentNode, none, .ok⟩
    else
      let next := nextSeparatorPosition currentPathPosition
      match (v.node currentNode).type with
      | .dir =>
        match v.findChildNode currentNode currentPathPosition
            (currentPathPosition.length - next.length) with
        | none => ⟨some currentNode, some currentSeperatorPosition, .ok⟩
        | some child => v.getNodeLoop path rounds child next next.tail
      | .fileSystem =>
        ⟨some currentNode, some currentSeperatorPosition, .continuesInFileSystem⟩
      | _ => ⟨none, some path, .noDir⟩

def vfsGetNode (v : Vfs) (path : CString) : VfsGetNodeReturn :=
  match preprocessPath path with
  | none => ⟨none, none, .memoryErr⟩
  | some path =>
    if path.at0 = 0 then ⟨none, some path, .invalidPath⟩
    else
      let currentPathPosition := if path.at0 = pathSeperator then path.tail else path
      v.getNodeLoop path path.length vfsRoot path currentPathPosition

/-- A new empty directory at the head of the list of `parent`. -/
def addDir (v : Vfs) (parent : Nat) (name : CString) : Vfs where
  node := Function.update (Function.update v.node v.count ⟨.dir, name, .list []⟩) parent
    { v.node parent with data := .list (v.count :: v.children parent) }
  count := v.count + 1

/-- The new node, none where the source returns `NULL`. No result at all stands for a name that
is written past its field. -/
def vfsMkdir (v : Vfs) (path : CString) : Option (Option Nat × Vfs) :=
  let ret := v.vfsGetNode path
  match ret.remainingPath, ret.foundNode with
  | some remainingPath, some parentFolder =>
    if (v.node parentFolder).type ≠ .dir then some (none, v)
    else
      let dirName := remainingPath.tail
      if (strchr dirName pathSeperator).isSome then some (none, v)
      else if dirName.length < vfsNodeNameNumOfChars then
        some (some v.count, v.addDir parentFolder dirName)
      else none
  | _, _ => some (none, v)

def mountAt (v : Vfs) (i : Nat) (fs : MountData) : Vfs where
  node := Function.update v.node i { v.node i with type := .fileSystem, data := .mount fs }
  count := v.count

def mountFileSystem (v : Vfs) (path : CString) (fs : MountData) : Option Nat × Vfs :=
  let ret := v.vfsGetNode path
  match ret.foundNode, ret.remainingPath with
  | some found, none =>
    if (v.node found).type ≠ .dir then (none, v)
    else if (v.node found).data ≠ .list [] then (none, v)
    else (some found, v.mountAt found fs)
  | _, _ => (none, v)

end Vfs

inductive VfsOp where
  | mkdir (path : CString)
  | mount (path : CString) (fs : MountData)

def Vfs.step (v : Vfs) : VfsOp → Option Vfs
  | .mkdir path => (v.vfsMkdir path).map (·.2)
  | .mount path fs => some (v.mountFileSystem path fs).2

end BiosKernel
