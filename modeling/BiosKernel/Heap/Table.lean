import BiosKernel.Heap.Malloc
import BiosKernel.Lib.Tiling

namespace BiosKernel
open ByteMem Linked Tiling
set_option autoImplicit true

structure Header where
  size : Nat
  fd : Nat
  bk : Nat
  data : Nat
deriving DecidableEq, Inhabited

/-- The heap as a table of chunk headers, in the order in which `sbrk` carved them. -/
structure HeapTable where
  heapEnd : Nat
  heapTotalSize : Nat
  mchunk : Nat
  unsortedBinHead : Nat
  chunks : List (Nat × Header)
deriving DecidableEq

/-- The two lists a chunk can be on. -/
inductive ListHead where
  | allocated
  | unsortedBin

namespace HeapTable

def lookup (c : Nat) : List (Nat × Header) → Header
  | [] => ⟨0, 0, 0, 0⟩
  | p :: ps => if p.1 = c then p.2 else lookup c ps

def header (t : HeapTable) (c : Nat) : Header := lookup c t.chunks

def addrs (t : HeapTable) : List Nat := t.chunks.map Prod.fst

def size (t : HeapTable) (c : Nat) : Nat := (t.header c).size

def fd (t : HeapTable) (c : Nat) : Nat := (t.header c).fd

def bk (t : HeapTable) (c : Nat) : Nat := (t.header c).bk

def data (t : HeapTable) (c : Nat) : Nat := (t.header c).data

def modify (t : HeapTable) (c : Nat) (f : Header → Header) : HeapTable :=
  { t with chunks := t.chunks.map fun p => if p.1 = c then (p.1, f p.2) else p }

def setFd (t : HeapTable) (c v : Nat) : HeapTable := t.modify c fun h => { h with fd := v }

def setBk (t : HeapTable) (c v : Nat) : HeapTable := t.modify c fun h => { h with bk := v }

def head (t : HeapTable) : ListHead → Nat
  | .allocated => t.mchunk
  | .unsortedBin => t.unsortedBinHead

def setHead (t : HeapTable) (v : Nat) : ListHead → HeapTable
  | .allocated => { t with mchunk := v }
  | .unsortedBin => { t with unsortedBinHead := v }

def unlink (t : HeapTable) (l : ListHead) (cur : Nat) : HeapTable :=
  let t := if t.bk cur ≠ 0 then t.setFd (t.bk cur) (t.fd cur) else t.setHead (t.fd cur) l
  if t.fd cur ≠ 0 then t.setBk (t.fd cur) (t.bk cur) else t

def linkAllocated (t : HeapTable) (cur : Nat) : HeapTable :=
  let next := t.mchunk
  let t := if next ≠ 0 then t.setBk next cur else t
  (t.setHead cur .allocated).setFd cur next

def carve (t : HeapTable) (size : Nat) : HeapTable :=
  { t with
    heapEnd := t.heapEnd + aalign size 64
    chunks := t.chunks ++ [(t.heapEnd, ⟨size, t.mchunk, 0, t.heapEnd + 32⟩)] }

def findFree (t : HeapTable) (need : Nat) : Option (Option Nat) :=
  search 0 t.fd (fun c => decide (need ≤ t.size c)) loopBound t.unsortedBinHead

/-- Allocate a chunk of at least `need` bytes, header included. -/
def malloc (t : HeapTable) (need : Nat) : Option (Nat × HeapTable) :=
  match t.findFree need with
  | none => none
  | some (some cur) => some (cur, (t.unlink .unsortedBin cur).linkAllocated cur)
  | some none => some (t.heapEnd, (t.carve (max 64 need)).linkAllocated t.heapEnd)

def linkFree (t : HeapTable) (cur : Nat) : HeapTable :=
  let t := (t.setBk cur 0).setFd cur t.unsortedBinHead
  let t := if t.fd cur ≠ 0 then t.setBk (t.fd cur) cur else t
  t.setHead cur .unsortedBin

def free (t : HeapTable) (ptr : Nat) : Option HeapTable :=
  match search 0 t.fd (fun c => decide (t.data c = ptr)) loopBound t.mchunk with
  | none => none
  | some none => some t
  | some (some cur) => some ((t.unlink .allocated cur).linkFree cur)

theorem lookup_map (f : Header → Header) (c d : Nat) (ps : List (Nat × Header)) :
    lookup d (ps.map fun p => if p.1 = c then (p.1, f p.2) else p) =
      if d = c ∧ c ∈ ps.map Prod.fst then f (lookup d ps) else lookup d ps := by
  induction ps with
  | nil => simp [lookup]
  | cons p ps ih =>
    rw [List.map_cons, lookup, lookup, ih]
    grind

theorem lookup_append (c : Nat) (ps qs : List (Nat × Header)) :
    lookup c (ps ++ qs) = if c ∈ ps.map Prod.fst then lookup c ps else lookup c qs := by
  induction ps with
  | nil => simp
  | cons p ps ih =>
    rw [List.cons_append, lookup, lookup, ih]
    grind

theorem header_modify (t : HeapTable) (f : Header → Header) (c d : Nat) :
    (t.modify c f).header d = if d = c ∧ c ∈ t.addrs then f (t.header d) else t.header d :=
  lookup_map f c d t.chunks

/-- What is fixed about a chunk when it is carved: its address, size and data pointer. -/
def shape (t : HeapTable) : List (Nat × Nat × Nat) :=
  t.chunks.map fun p => (p.1, p.2.size, p.2.data)

theorem addrs_eq_shape (t : HeapTable) : t.addrs = t.shape.map Prod.fst := by
  rw [addrs, shape, List.map_map]
  rfl

theorem shape_modify (t : HeapTable) (c : Nat) (f : Header → Header)
    (hf : ∀ h, (f h).size = h.size ∧ (f h).data = h.data) : (t.modify c f).shape = t.shape := by
  rw [shape, shape, modify, List.map_map]
  apply List.map_congr_left
  intro p _
  simp only [Function.comp_apply]
  split
  · simp only [hf]
  · rfl

@[simp] theorem shape_setFd (t : HeapTable) (c v : Nat) : (t.setFd c v).shape = t.shape :=
  t.shape_modify c _ (fun _ => ⟨rfl, rfl⟩)

@[simp] theorem shape_setBk (t : HeapTable) (c v : Nat) : (t.setBk c v).shape = t.shape :=
  t.shape_modify c _ (fun _ => ⟨rfl, rfl⟩)

@[simp] theorem shape_setHead (t : HeapTable) (v : Nat) (l : ListHead) :
    (t.setHead v l).shape = t.shape := by
  cases l <;> rfl

@[simp] theorem addrs_setFd (t : HeapTable) (c v : Nat) : (t.setFd c v).addrs = t.addrs := by
  rw [addrs_eq_shape, shape_setFd, addrs_eq_shape]

@[simp] theorem addrs_setBk (t : HeapTable) (c v : Nat) : (t.setBk c v).addrs = t.addrs := by
  rw [addrs_eq_shape, shape_setBk, addrs_eq_shape]

@[simp] theorem addrs_setHead (t : HeapTable) (v : Nat) (l : ListHead) :
    (t.setHead v l).addrs = t.addrs := by
  cases l <;> rfl

@[simp] theorem mchunk_setFd (t : HeapTable) (c v : Nat) : (t.setFd c v).mchunk = t.mchunk := rfl

@[simp] theorem mchunk_setBk (t : HeapTable) (c v : Nat) : (t.setBk c v).mchunk = t.mchunk := rfl

@[simp] theorem unsortedBinHead_setFd (t : HeapTable) (c v : Nat) :
    (t.setFd c v).unsortedBinHead = t.unsortedBinHead := rfl

@[simp] theorem unsortedBinHead_setBk (t : HeapTable) (c v : Nat) :
    (t.setBk c v).unsortedBinHead = t.unsortedBinHead := rfl

theorem field_modify {t : HeapTable} {f : Header → Header} (field : Header → Nat)
    (hf : ∀ h, field (f h) = v) (hc : c ∈ t.addrs) :
    (fun d => field ((t.modify c f).header d)) =
      Function.update (fun d => field (t.header d)) c v := by
  funext d
  rw [header_modify]
  by_cases hd : d = c
  · subst hd
    rw [if_pos ⟨rfl, hc⟩, Function.update_self, hf]
  · rw [if_neg (fun h => hd h.1), Function.update_of_ne hd]

theorem fd_setFd (t : HeapTable) (v : Nat) (hc : c ∈ t.addrs) :
    (t.setFd c v).fd = Function.update t.fd c v := field_modify (·.fd) (fun _ => rfl) hc

theorem bk_setBk (t : HeapTable) (v : Nat) (hc : c ∈ t.addrs) :
    (t.setBk c v).bk = Function.update t.bk c v := field_modify (·.bk) (fun _ => rfl) hc

@[simp] theorem bk_setFd (t : HeapTable) (c v : Nat) : (t.setFd c v).bk = t.bk := by
  funext d
  rw [bk, setFd, header_modify, bk]
  split <;> rfl

@[simp] theorem fd_setBk (t : HeapTable) (c v : Nat) : (t.setBk c v).fd = t.fd := by
  funext d
  rw [fd, setBk, header_modify, fd]
  split <;> rfl

@[simp] theorem fd_setHead (t : HeapTable) (v : Nat) (l : ListHead) :
    (t.setHead v l).fd = t.fd := by
  cases l <;> rfl

@[simp] theorem bk_setHead (t : HeapTable) (v : Nat) (l : ListHead) :
    (t.setHead v l).bk = t.bk := by
  cases l <;> rfl

theorem size_modify (t : HeapTable) (c : Nat) (f : Header → Header)
    (h : ∀ k, (f k).size = k.size) : (t.modify c f).size = t.size := by
  funext d
  rw [size, header_modify, size]
  split
  · exact h _
  · rfl

theorem data_modify (t : HeapTable) (c : Nat) (f : Header → Header)
    (h : ∀ k, (f k).data = k.data) : (t.modify c f).data = t.data := by
  funext d
  rw [data, header_modify, data]
  split
  · exact h _
  · rfl

@[simp] theorem size_setFd (t : HeapTable) (c v : Nat) : (t.setFd c v).size = t.size :=
  t.size_modify c _ (fun _ => rfl)

@[simp] theorem size_setBk (t : HeapTable) (c v : Nat) : (t.setBk c v).size = t.size :=
  t.size_modify c _ (fun _ => rfl)

@[simp] theorem size_setHead (t : HeapTable) (v : Nat) (l : ListHead) :
    (t.setHead v l).size = t.size := by
  cases l <;> rfl

@[simp] theorem data_setFd (t : HeapTable) (c v : Nat) : (t.setFd c v).data = t.data :=
  t.data_modify c _ (fun _ => rfl)

@[simp] theorem data_setBk (t : HeapTable) (c v : Nat) : (t.setBk c v).data = t.data :=
  t.data_modify c _ (fun _ => rfl)

@[simp] theorem data_setHead (t : HeapTable) (v : Nat) (l : ListHead) :
    (t.setHead v l).data = t.data := by
  cases l <;> rfl

theorem lookup_of_mem (hn : (ps.map Prod.fst).Nodup) (hp : p ∈ ps) : lookup p.1 ps = p.2 := by
  induction ps with
  | nil => cases hp
  | cons q ps ih =>
    rw [List.map_cons, List.nodup_cons] at hn
    rw [lookup]
    rcases List.mem_cons.mp hp with he | hp
    · rw [he, if_pos rfl]
    · rw [if_neg, ih hn.2 hp]
      intro h
      exact hn.1 (h ▸ List.mem_map_of_mem hp)

theorem lookup_of_not_mem (hc : c ∉ ps.map Prod.fst) : lookup c ps = ⟨0, 0, 0, 0⟩ := by
  induction ps with
  | nil => rfl
  | cons p ps ih =>
    rw [List.map_cons, List.mem_cons, not_or] at hc
    rw [lookup, if_neg (Ne.symm hc.1), ih hc.2]

theorem lookup_mem (hc : c ∈ ps.map Prod.fst) : (c, lookup c ps) ∈ ps := by
  induction ps with
  | nil => cases hc
  | cons p ps ih =>
    rw [lookup]
    by_cases hp : p.1 = c
    · rw [if_pos hp, ← hp]
      exact List.mem_cons_self
    · rw [if_neg hp]
      rcases List.mem_cons.mp hc with he | hc
      · exact absurd he.symm hp
      · exact List.mem_cons_of_mem _ (ih hc)

theorem mem_shape (t : HeapTable) (ha : c ∈ t.addrs) : (c, t.size c, t.data c) ∈ t.shape :=
  List.mem_map_of_mem (f := fun p => (p.1, p.2.size, p.2.data)) (lookup_mem ha)

end HeapTable

end BiosKernel
