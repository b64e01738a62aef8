import BiosKernel.Shell.Cat
import BiosKernel.Shell.Tty

namespace BiosKernel
open Checked Runs
set_option autoImplicit true

/-- `MAX_PATH_SIZE`. -/
def maxPathSize : Nat := 256

/-- Why a command does not come back to the prompt. -/
inductive ShellFault where
  /-- A pointer is read that is `NULL` or not one of the array. -/
  | pointer
  /-- `curr_wd` is written past its end. -/
  | overflow
  | trap (fault : Fault)
  | file (fault : FileFault)
  | powerOff
  /-- There is no more input. -/
  | waiting
  deriving DecidableEq

abbrev ShellResult := Except ShellFault

/-- What `cd` has printed, the working directory, how many bytes from its beginning on have been
written, and what `path_exists` has said. -/
structure CdResult where
  output : List UInt8
  currWd : CString
  written : Nat
  found : Int

/-- `shcmd_cd` with the pointer behind the name of the command, which is read without a look at
`argc`. -/
def shcmdCd (vfs : VfsCalls) (currWd : CString) (argc : Nat) (arg : Option CString) :
    ShellResult CdResult := do
  let notice :=
    if argc ≤ 1 then ascii "Path to change work directory to wasn't provided\n" else []
  match arg with
  | none => .error .pointer
  | some arg =>
    let path := (argumentPath currWd arg).getD []
    let found ← (vfs.pathExists path).mapError .trap
    if found = 1 then return ⟨notice, path, path.length + 1, found⟩
    else if found = 2 then
      return ⟨notice ++ ascii "The path exists but isn't a dir\n", currWd, 0, found⟩
    else return ⟨notice ++ ascii "The path doesn't exist\n", currWd, 0, found⟩

/-- A `cd` command as it is entered, with the file system as it is then. -/
structure CdCommand where
  vfs : VfsCalls
  argc : Nat
  arg : CString

/-- The working directory before and behind the last command, and what that has done. -/
structure CdRun where
  before : CString
  currWd : CString
  written : Nat
  found : Int

namespace CdRun

def start : CdRun := ⟨[pathSeperator], [pathSeperator], 2, 1⟩

def step (s : CdRun) (c : CdCommand) : Option CdRun :=
  match shcmdCd c.vfs s.currWd c.argc (some c.arg) with
  | .ok r => some ⟨s.currWd, r.currWd, r.written, r.found⟩
  | .error _ => none

/-- The working directory is a normal path that fits in its field, nothing else has been written,
and where the command has failed it is what it was. -/
structure Fits (s : CdRun) : Prop where
  length : strlen s.currWd < maxPathSize
  written : s.written ≤ maxPathSize
  normal : NormalPath s.currWd
  unchanged : s.found ≠ 1 → s.currWd = s.before

/-- A directory that the command finds has a path shorter than the field. -/
def PathFits (s : CdRun) (c : CdCommand) : Prop :=
  ∀ path, argumentPath s.currWd c.arg = some path → c.vfs.pathExists path = .ok 1 →
    path.length < maxPathSize

end CdRun

theorem NormalPath.zero_not_mem (h : NormalPath p) : 0 ∉ p := fun h0 => (h.bytes 0 h0).1 rfl

theorem NormalPath.eq_cons (h : NormalPath p) : ∃ s, p = pathSeperator :: s :=
  List.head?_eq_some_iff.mp h.absolute

theorem argumentPath_normal (h : NormalPath currWd) (arg : CString) :
    ∃ path, argumentPath currWd arg = some path ∧ NormalPath path := by
  have hnormal :
      ∀ s, ∃ path, preprocessPath (pathSeperator :: s) = some path ∧ NormalPath path := by
    intro s
    obtain ⟨x, t, ht⟩ :=
      preprocessPath_cons (s := s) (⟨by decide, by decide⟩ : PathByte pathSeperator)
    exact ⟨x :: t, ht, preprocessPath_normal ht⟩
  rw [argumentPath]
  split
  · rename_i hsep
    cases arg with
    | nil => exact absurd hsep (by decide)
    | cons c s =>
      cases hsep
      exact hnormal s
  · obtain ⟨s, hs⟩ := h.eq_cons
    have htext : currWd.takeWhile (· ≠ 0) = currWd := CString.text_eq_self h.zero_not_mem
    rw [htext, hs, List.cons_append]
    exact hnormal _

namespace CdRun

theorem step_cases (s : CdRun) (c : CdCommand) (hpath : argumentPath s.currWd c.arg = some path) :
    (c.vfs.pathExists path = .ok 1 ∧ s.step c = some ⟨s.currWd, path, path.length + 1, 1⟩) ∨
      (c.vfs.pathExists path ≠ .ok 1 ∧ ∀ s', s.step c = some s' →
        s'.currWd = s.currWd ∧ s'.before = s.currWd ∧ s'.written = 0) := by
  rw [step, shcmdCd, hpath]
  simp only [Option.getD_some]
  cases hfound : c.vfs.pathExists path with
  | error fault => exact .inr ⟨nofun, nofun⟩
  | ok found =>
    by_cases h1 : found = 1
    · subst h1
      exact .inl ⟨rfl, rfl⟩
    · refine .inr ⟨fun h => h1 (Except.ok.inj h), ?_⟩
      simp only [Except.mapError, ok_bind, if_neg h1]
      intro s' hs'
      by_cases h2 : found = 2
      · rw [if_pos h2] at hs'
        cases hs'
        exact ⟨rfl, rfl, rfl⟩
      · rw [if_neg h2] at hs'
        cases hs'
        exact ⟨rfl, rfl, rfl⟩

theorem fits_step_iff (h : Fits s) (c : CdCommand) :
    s.PathFits c ↔ ∀ s', s.step c = some s' → Fits s' := by
  obtain ⟨path, hpath, hnormal⟩ := argumentPath_normal h.normal c.arg
  have hlen : strlen path = path.length := strlen_eq_length hnormal.zero_not_mem
  rcases s.step_cases c hpath with ⟨hfound, hstep⟩ | ⟨hfound, hstep⟩
  · rw [hstep]
    constructor
    · rintro hfits _ ⟨⟩
      have hlt := hfits path hpath hfound
      exact ⟨by rwa [hlen], hlt, hnormal, fun hne => absurd rfl hne⟩
    · intro hfits path' hpath' _
      rw [hpath] at hpath'
      cases hpath'
      rw [← hlen]
      exact (hfits _ rfl).length
  · constructor
    · intro _ s' hs'
      obtain ⟨hwd, hbefore, hwritten⟩ := hstep s' hs'
      refine ⟨by rw [hwd]; exact h.length, by rw [hwritten]; exact Nat.zero_le _, ?_, ?_⟩
      · rw [hwd]
        exact h.normal
      · intro _
        rw [hwd, hbefore]
    · intro _ path' hpath' hfound'
      rw [hpath] at hpath'
      cases hpath'
      exact absurd hfound' hfound

theorem start_fits : start.Fits := by
  refine ⟨by decide, by decide, ⟨rfl, .singleton _, ?_, fun h => absurd rfl h⟩, fun _ => rfl⟩
  intro c hc
  rw [List.mem_singleton.mp hc]
  exact ⟨by decide, by decide⟩

/-- The working directory fits behind every command exactly if each directory that is entered has a
path shorter than the field. -/
theorem behind_fits_iff (commands : List CdCommand) :
    Behind step Fits start commands ↔ Meets step PathFits start commands :=
  behind_iff_meets (fun _ c hs => fits_step_iff hs c) start_fits

/-- A name of 15 characters. -/
def longName : CString := List.replicate 15 97

/-- Sixteen directories, each in the one before. -/
def deepOps : List VfsOp :=
  (List.range 16).map fun n =>
    .mkdir ((List.replicate (n + 1) (pathSeperator :: longName)).flatten)

/-- Entering sixteen nested directories one by one writes 257 bytes to the field of 256. -/
theorem deep_directory_overflows :
    ∃ v s, run Vfs.step initVfs deepOps = some v ∧
      run step start (List.replicate 16 ⟨v.calls hiStorage, 2, longName⟩) = some s ∧
      strlen s.currWd = 256 ∧ s.written = 257 := by
  have hrun : ((run Vfs.step initVfs deepOps).bind fun v =>
      (run step start (List.replicate 16 ⟨v.calls hiStorage, 2, longName⟩)).map fun s =>
        (strlen s.currWd, s.written)) = some (256, 257) := by decide +kernel
  obtain ⟨v, hv, hs⟩ := Option.bind_eq_some_iff.mp hrun
  obtain ⟨s, hs, he⟩ := Option.map_eq_some_iff.mp hs
  exact ⟨v, s, hv, hs, congrArg Prod.fst he, congrArg Prod.snd he⟩

end CdRun

end BiosKernel
