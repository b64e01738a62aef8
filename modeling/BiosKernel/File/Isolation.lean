import BiosKernel.File.Descriptors

namespace BiosKernel
open ByteMem Checked MachineInt Runs
set_option autoImplicit true

/-- The table, with the descriptors that `open` has returned and `close` has not been called for
since. -/
structure Descriptors where
  table : FdpArr
  live : Nat → Bool

/-- A call with a descriptor of the table. -/
inductive FileCall where
  | openFd (path : CString) (flags : Int)
  | closeFd (fd : Fin maxNumOfFileDescriptors)
  | readFd (fd : Fin maxNumOfFileDescriptors) (buf : Mem) (cnt : Nat)
  | lseek (fd : Fin maxNumOfFileDescriptors) (offset : Nat) (whence : LseekOp)

namespace Descriptors

/-- A call with the files as they are. What it returns is none for a `close` that has closed a
file. -/
def call (s : Descriptors) (vfs : VfsCalls) : FileCall → FileResult (Option Int × Descriptors)
  | .openFd path flags => do
    let (fd, table) ← s.table.openFd vfs path flags
    return (some fd, ⟨table, if 0 ≤ fd then Function.update s.live fd.toNat true else s.live⟩)
  | .closeFd fd => do
    let (ret, table) ← s.table.closeFd fd
    return (ret, ⟨table, Function.update s.live fd false⟩)
  | .readFd fd buf cnt => do
    let (cntRead, _, table) ← s.table.readFd vfs fd buf cnt
    return (some (signed64 cntRead), ⟨table, s.live⟩)
  | .lseek fd offset whence => do
    let (position, table) ← s.table.lseek vfs fd offset whence
    return (some (signed64 position), ⟨table, s.live⟩)

def step (s : Descriptors) (c : VfsCalls × FileCall) : Option Descriptors :=
  (s.call c.1 c.2).toOption.map (·.2)

/-- An entry that `open` may take. -/
def Reusable (s : Descriptors) (i : Nat) : Prop := (s.table i).filePath = none

/-- No other entry is different. -/
def OnlyAt (s s' : Descriptors) (fd : Nat) : Prop := ∀ i ≠ fd, s'.table i = s.table i

/-- What a call that returns may do. -/
def Isolated (s : Descriptors) (vfs : VfsCalls) (c : FileCall) (ret : Option Int)
    (s' : Descriptors) : Prop :=
  match c with
  | .openFd path flags =>
    (ret = some (-1) ↔
      vfs.pathExists path = .ok 0 ∨ ∀ i < maxNumOfFileDescriptors, s.live i = true) ∧
    (ret = some (-1) ∧ s' = s ∨
      ∃ i < maxNumOfFileDescriptors, ret = some (i : Int) ∧ s.live i = false ∧ s.Reusable i ∧
        (∀ j < i, ¬ s.Reusable j) ∧ s'.table i = ⟨some path, 0, flags⟩ ∧ s.OnlyAt s' i)
  | .closeFd fd => s.OnlyAt s' fd ∧
    ∀ i < maxNumOfFileDescriptors, s'.Reusable i ↔ s.Reusable i ∨ i = fd
  | .readFd fd _ _ | .lseek fd _ _ => s.OnlyAt s' fd ∧ ∀ i, s'.Reusable i ↔ s.Reusable i

/-- The descriptors in use are those with a path. -/
def Tracks (s : Descriptors) : Prop :=
  ∀ i < maxNumOfFileDescriptors, s.live i = true ↔ ¬ s.Reusable i

end Descriptors

namespace FdpArr

variable {t : FdpArr} {vfs : VfsCalls} {fd : Int} {path : CString}

theorem set_self (t : FdpArr) (fd : Int) (e : Fdp) : t.set fd e fd.toNat = e :=
  Function.update_self ..

theorem set_ne (t : FdpArr) (e : Fdp) (h : i ≠ fd.toNat) : t.set fd e i = t i :=
  Function.update_of_ne h ..

theorem setOffset_filePath (t : FdpArr) (fd : Int) (offset i : Nat) :
    (t.setOffset fd offset i).filePath = (t i).filePath := by
  by_cases hi : i = fd.toNat
  · rw [hi, setOffset_self]
  · rw [setOffset, set_ne t _ hi]

theorem openStoring_inv {stored : CString}
    (h : t.openStoring vfs path stored flags = .ok (fd, t')) :
    (fd = -1 ∧ t' = t ∧ (vfs.pathExists path = .ok 0 ∨
      ∀ i < maxNumOfFileDescriptors, (t i).filePath ≠ none)) ∨
    ∃ i < maxNumOfFileDescriptors, fd = i ∧ t' = t.set i ⟨some stored, 0, flags⟩ ∧
      vfs.pathExists path ≠ .ok 0 ∧ (t i).filePath = none ∧ ∀ j < i, (t j).filePath ≠ none := by
  rw [openStoring] at h
  obtain ⟨found, hfound, h⟩ := of_bind_eq_ok h
  have hexists := of_mapError_eq_ok hfound
  rw [hexists]
  split at h
  · next h0 =>
    cases h
    exact .inl ⟨rfl, rfl, .inl (by rw [h0])⟩
  · next h0 =>
    have hne : (Except.ok found : Result Int) ≠ .ok 0 := fun he => h0 (Except.ok.inj he)
    split at h
    · next i hi =>
      cases h
      obtain ⟨hnone, hi, hbefore⟩ := List.find?_range_eq_some.mp hi
      refine .inr ⟨i, List.mem_range.mp hi, rfl, rfl, hne, Option.isNone_iff_eq_none.mp hnone, ?_⟩
      intro j hj hj'
      have hsome := hbefore j hj
      rw [hj'] at hsome
      cases hsome
    · next hnone =>
      cases h
      refine .inl ⟨rfl, rfl, .inr fun i hi hi' => ?_⟩
      have hsome := List.find?_range_eq_none.mp hnone i hi
      rw [hi'] at hsome
      cases hsome

theorem entry_inv (h : t.entry fd = .ok e) :
    (0 ≤ fd ∧ fd < maxNumOfFileDescriptors) ∧ e = t fd.toNat := by
  rw [entry] at h
  split at h
  · next hfd =>
    cases h
    exact ⟨hfd, rfl⟩
  · cases h

theorem closeFd_inv (h : t.closeFd fd = .ok (ret, t')) :
    (t fd.toNat).filePath = none ∧ t' = t ∨
      t' = t.set fd { t fd.toNat with filePath := none } := by
  rw [closeFd] at h
  obtain ⟨e, he, h⟩ := of_bind_eq_ok h
  obtain ⟨-, rfl⟩ := entry_inv he
  split at h
  · next hnone =>
    cases h
    exact .inl ⟨hnone, rfl⟩
  · cases h
    exact .inr rfl

theorem readFd_inv (h : t.readFd vfs fd buf cnt = .ok (r, buf', t')) :
    ∃ offset, t' = t.setOffset fd offset := by
  have hsame : t = t.setOffset fd (t fd.toNat).currentOffset :=
    (setOffset_current t fd).symm
  rw [readFd] at h
  obtain ⟨e, he, h⟩ := of_bind_eq_ok h
  split at h
  · cases h
    exact ⟨_, hsame⟩
  · split at h
    · cases h
      exact ⟨_, hsame⟩
    · obtain ⟨r, hr, h⟩ := of_bind_eq_ok h
      cases h
      exact ⟨_, rfl⟩

theorem lseek_inv (h : t.lseek vfs fd offset whence = .ok (r, t')) :
    ∃ offset, t' = t.setOffset fd offset := by
  have hsame : t = t.setOffset fd (t fd.toNat).currentOffset :=
    (setOffset_current t fd).symm
  rw [lseek_eq_seekTo] at h
  obtain ⟨e, he, h⟩ := of_bind_eq_ok h
  split at h
  · cases h
    exact ⟨_, hsame⟩
  · obtain ⟨size, hsize, h⟩ := of_bind_eq_ok h
    cases hposition : seekPosition size e.currentOffset offset whence with
    | none =>
      rw [hposition] at h
      cases h
      exact ⟨_, hsame⟩
    | some position =>
      rw [hposition] at h
      cases h
      exact ⟨_, rfl⟩

/-- No memory outside of the table is touched. -/
def Within (x : FileResult α) : Prop := x ≠ .error .outside

theorem Within.bind {x : FileResult α} {f : α → FileResult β} (hx : Within x)
    (hf : ∀ a, Within (f a)) : Within (x >>= f) := by
  cases x with
  | ok a => exact hf a
  | error e => exact fun h => hx (congrArg Except.error (Except.error.inj h))

section Valid

variable (hfd : 0 ≤ fd ∧ fd < maxNumOfFileDescriptors)
include hfd

end Valid

end FdpArr

namespace Descriptors
open FdpArr

variable {s s' : Descriptors} {vfs : VfsCalls}

theorem Tracks.openFd (h : s.Tracks) (hc : s.call vfs (.openFd path flags) = .ok (ret, s')) :
    s.Isolated vfs (.openFd path flags) ret s' ∧ s'.Tracks := by
  obtain ⟨⟨fd, table⟩, hopen, hc⟩ := of_bind_eq_ok hc
  cases hc
  rcases openStoring_inv hopen with ⟨rfl, rfl, hwhy⟩ | ⟨i, hi, rfl, rfl, hexists, hnone, hbefore⟩
  · refine ⟨⟨iff_of_true rfl (hwhy.imp_right fun hall i hi => (h i hi).mpr (hall i hi)),
      .inl ⟨rfl, rfl⟩⟩, h⟩
  · have hlive : s.live i = false := Bool.eq_false_iff.mpr fun hl => (h i hi).mp hl hnone
    have hself : s.table.set (i : Int) ⟨some path, 0, flags⟩ i = ⟨some path, 0, flags⟩ :=
      set_self ..
    refine ⟨⟨?_, .inr ⟨i, hi, rfl, hlive, hnone, hbefore, hself, ?_⟩⟩, ?_⟩
    · refine iff_of_false (fun he => ?_) ?_
      · have := Option.some.inj he
        omega
      · rintro (hzero | hall)
        · exact hexists hzero
        · rw [hall i hi] at hlive
          cases hlive
    · exact fun j hj => set_ne s.table _ hj
    · intro j hj
      dsimp only [Reusable]
      rw [if_pos (Int.natCast_nonneg i), Int.toNat_natCast]
      by_cases hji : j = i
      · rw [hji, Function.update_self]
        refine iff_of_true rfl fun he => ?_
        rw [hself] at he
        cases he
      · rw [Function.update_of_ne hji, set_ne s.table _ hji]
        exact h j hj

theorem Tracks.closeFd (h : s.Tracks) (fd : Fin maxNumOfFileDescriptors)
    (hc : s.call vfs (.closeFd fd) = .ok (ret, s')) :
    s.Isolated vfs (.closeFd fd) ret s' ∧ s'.Tracks := by
  obtain ⟨⟨ret, table⟩, hclose, hc⟩ := of_bind_eq_ok hc
  cases hc
  have hself : (table fd).filePath = none := by
    rcases closeFd_inv hclose with ⟨hnone, rfl⟩ | rfl
    · exact hnone
    · exact congrArg Fdp.filePath (set_self s.table (fd : Nat) _)
  have hother (i : Nat) (hi : i ≠ fd) : table i = s.table i := by
    rcases closeFd_inv hclose with ⟨-, rfl⟩ | rfl
    · rfl
    · exact set_ne s.table _ hi
  refine ⟨⟨hother, fun i _ => ?_⟩, fun i hi => ?_⟩
  · dsimp only [Reusable]
    by_cases hif : i = fd
    · rw [hif]
      exact iff_of_true hself (.inr rfl)
    · rw [hother i hif]
      exact ⟨.inl, fun h => h.resolve_right hif⟩
  · dsimp only [Reusable]
    by_cases hif : i = fd
    · rw [hif, Function.update_self]
      exact iff_of_false Bool.false_ne_true (not_not_intro hself)
    · rw [Function.update_of_ne hif, hother i hif]
      exact h i hi

theorem Tracks.setOffset (h : s.Tracks) (fd : Fin maxNumOfFileDescriptors) (offset : Nat) :
    (s.OnlyAt ⟨s.table.setOffset fd offset, s.live⟩ fd ∧
      ∀ i, Reusable ⟨s.table.setOffset fd offset, s.live⟩ i ↔ s.Reusable i) ∧
    Tracks ⟨s.table.setOffset fd offset, s.live⟩ := by
  have hsame (i : Nat) : Reusable ⟨s.table.setOffset fd offset, s.live⟩ i ↔ s.Reusable i := by
    rw [Reusable, setOffset_filePath]
    rfl
  refine ⟨⟨fun i hi => set_ne s.table _ hi, hsame⟩, fun i hi => ?_⟩
  rw [hsame]
  exact h i hi

/-- What one call does, and that the descriptors in use stay those with a path. -/
theorem Tracks.call (h : s.Tracks) (hc : s.call vfs c = .ok (ret, s')) :
    s.Isolated vfs c ret s' ∧ s'.Tracks := by
  cases c with
  | openFd path flags => exact h.openFd hc
  | closeFd fd => exact h.closeFd fd hc
  | readFd fd buf cnt =>
    obtain ⟨⟨r, buf', table⟩, hread, hc⟩ := of_bind_eq_ok hc
    cases hc
    obtain ⟨offset, rfl⟩ := readFd_inv hread
    exact h.setOffset fd offset
  | lseek fd offset whence =>
    obtain ⟨⟨r, table⟩, hseek, hc⟩ := of_bind_eq_ok hc
    cases hc
    obtain ⟨offset, rfl⟩ := lseek_inv hseek
    exact h.setOffset fd offset

theorem Tracks.step (h : s.Tracks) (hs : s.step c = some s') : s'.Tracks := by
  obtain ⟨⟨ret, u⟩, hc, rfl⟩ := Option.map_eq_some_iff.mp hs
  exact (h.call (of_toOption_eq_some hc)).2

end Descriptors

namespace FdpArr

/-- A descriptor that names no entry, or none that is open. -/
def BadFd (t : FdpArr) (fd : Int) : Prop :=
  fd < 0 ∨ (maxNumOfFileDescriptors : Int) ≤ fd ∨ (t fd.toNat).filePath = none

/-- All four calls return a negative value and leave the table as it is. -/
structure Rejects (t : FdpArr) (fd : Int) : Prop where
  close : ∃ r, t.closeFd fd = .ok (some r, t) ∧ r < 0
  read : ∀ vfs buf cnt, ∃ r, t.readFd vfs fd buf cnt = .ok (r, buf, t) ∧ signed64 r < 0
  write : ∃ r, t.writeFd fd = .ok (r, t) ∧ signed64 r < 0
  lseek : ∀ vfs offset whence, ∃ r, t.lseek vfs fd offset whence = .ok (r, t) ∧ signed64 r < 0

/-- A bad descriptor is rejected exactly where it names an entry: no call looks at its range. -/
theorem rejects_iff (t : FdpArr) (fd : Int) (hbad : t.BadFd fd) :
    t.Rejects fd ↔ 0 ≤ fd ∧ fd < maxNumOfFileDescriptors := by
  constructor
  · intro h
    obtain ⟨r, hclose, -⟩ := h.close
    obtain ⟨e, he, -⟩ := of_bind_eq_ok hclose
    exact (entry_inv he).1
  · intro hfd
    have hnone : (t fd.toNat).filePath = none := by
      rcases hbad with hlt | hge | hnone
      · omega
      · omega
      · exact hnone
    have hentry : t.entry fd = .ok (t fd.toNat) := if_pos hfd
    have hone : signed64 minusOne < 0 := by decide
    have hthree : signed64 minusThree < 0 := by decide
    refine ⟨⟨-1, ?_, by decide⟩, fun vfs buf cnt => ?_, ?_, fun vfs offset whence => ?_⟩
    · rw [closeFd, hentry, ok_bind, hnone]
      rfl
    · rw [readFd, hentry, ok_bind, hnone]
      split
      · exact ⟨_, rfl, hthree⟩
      · exact ⟨_, rfl, hone⟩
    · rw [writeFd, hentry, ok_bind, hnone]
      split
      · exact ⟨_, rfl, hthree⟩
      · exact ⟨_, rfl, hone⟩
    · rw [lseek, hentry, ok_bind, hnone]
      exact ⟨_, rfl, hone⟩

/-- Descriptor 7 before anything is opened. -/
theorem rejects_closed : initFdpArr.Rejects 7 :=
  (rejects_iff initFdpArr 7 (.inr (.inr rfl))).mpr (by decide)

/-- -1, which `open` returns for a missing file, reads memory before the table. -/
theorem minus_one_reads_outside : initFdpArr.BadFd (-1) ∧
    initFdpArr.closeFd (-1) = .error .outside ∧ ¬ initFdpArr.Rejects (-1) := by
  refine ⟨.inl (by decide), rfl, fun h => ?_⟩
  obtain ⟨r, hclose, -⟩ := h.close
  cases hclose

end FdpArr

end BiosKernel
