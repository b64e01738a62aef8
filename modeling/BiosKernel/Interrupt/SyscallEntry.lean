import BiosKernel.Interrupt.UserMode

namespace BiosKernel
set_option autoImplicit true

open X64

namespace SyscallPath

/-- The assembly of `fvsyscall` up to the instruction `syscall`. -/
def callerEntry : List Instr :=
  .subImm .rsp 24 :: Isr.pushed.map .push ++ [.mov .rbx .rsp]

/-- The assembly of `fvsyscall` behind the instruction. The place of `rax` goes to `rcx`, since
`rax` is the result. -/
def callerExit : List Instr :=
  [.r15, .r14, .r13, .r12, .rbp, .rbx, .r11, .r10, .r9, .r8].map .pop ++
    .pop .rcx :: [.rcx, .rdx, .rsi, .rdi].map .pop

/-- `syscall_entry` up to the comparison of `ax`. -/
def saveUser : List Instr :=
  [.swapgs, .store .rbx 120 .r11, .store .rbx 128 .rcx, .store .rbx 136 .rsp, .mov .rdi .rsp,
    .storeGs 8 .rsp, .loadGs .rsp 0]

/-- `syscall_entry` behind the call of `syscall_handler`, up to `sysret`. -/
def restoreUser : List Instr :=
  [.pop .rbx, .loadGs .rsp 8, .load .r11 .rbx 120, .load .rcx .rbx 128, .load .rsp .rbx 136,
    .swapgs, .movImm .r11 0x002]

def starValue : Word := (0x08 : Word) <<< 32 ||| (0x18 : Word) <<< 48

/-- What `init_syscall` writes. No code writes the mask of the flags. -/
def msrs (syscallEntry : Word) : Msrs where
  star := starValue
  lstar := syscallEntry
  fmask := 0

/-- The comparison of `ax` with `proc_exit_syscall_num`, where the handler is not called but jumped
to. -/
def jumps (m : Machine) : Bool := (m.reg .rax).truncate 16 == 0#16

/-- The stack pointer of the caller at the system call, which is the pointer to the registers. -/
def callerRsp (m : Machine) : Word := m.reg .rsp - 144

/-- The structure that the handler gets. Its stack pointer is the one at the system call. -/
def contextWords (m : Machine) (next : Word) : List Word :=
  Isr.popped.map m.reg ++ [m.sys.rflags, next, callerRsp m]

/-- The stack of the caller has room, and lies apart from `kgb` and from the word below the kernel's
stack pointer. -/
structure Layout (m : Machine) (kstack : Word) : Prop where
  room : 144 ≤ m.rsp
  kgb_lt : m.sys.kernelGsBase.toNat + 16 ≤ 2 ^ 64
  kstack_eq : readWord m.mem m.sys.kernelGsBase.toNat = kstack
  kstack_room : 8 ≤ kstack.toNat
  apart_kgb : m.rsp ≤ m.sys.kernelGsBase.toNat ∨ m.sys.kernelGsBase.toNat + 16 + 144 ≤ m.rsp
  apart_kstack : m.rsp + 8 ≤ kstack.toNat ∨ kstack.toNat + 144 ≤ m.rsp

variable {m : Machine} {kstack : Word}

theorem Layout.callerRsp_toNat (h : Layout m kstack) : (callerRsp m).toNat = m.rsp - 144 := by
  have h144 : (144 : Word) ≤ m.reg .rsp := BitVec.le_def.mpr h.room
  rw [callerRsp, BitVec.toNat_sub_of_le h144]
  rfl

/-- The registers of the caller lie below the 24 bytes that it reserves. -/
theorem callerEntry_spec (h : Layout m kstack) :
    X64.Holds (exec callerEntry m).mem (m.rsp - 144) (Isr.popped.map m.reg) ∧
      (exec callerEntry m).reg .rsp = callerRsp m ∧ (exec callerEntry m).reg .rbx = callerRsp m ∧
      (∀ q, q ≠ .rsp → q ≠ .rbx → (exec callerEntry m).reg q = m.reg q) ∧
      (exec callerEntry m).sys = m.sys ∧
      ∀ x, m.rsp ≤ x ∨ x + 144 < m.rsp → (exec callerEntry m).mem x = m.mem x := by
  have hroom := h.room
  let m₀ := m.setReg .rsp (m.reg .rsp - 24)
  have hsp : m₀.rsp = m.rsp - 24 := by
    have h24 : (24 : Word) ≤ m.reg .rsp := BitVec.le_def.mpr (show 24 ≤ m.rsp by omega)
    rw [Machine.rsp, m.setReg_self, BitVec.toNat_sub_of_le h24]
    rfl
  obtain ⟨hp, hregs, hsys⟩ := exec_pushes Isr.pushed
    (onStack_nil m₀ (m.rsp - 144) (by omega)) (by decide)
    (by rw [hsp, show Isr.pushed.length = 15 from rfl]; omega)
  have hmap : (Isr.pushed.map m₀.reg).reverse = Isr.popped.map m.reg := by
    rw [← List.map_reverse]
    apply List.map_congr_left
    intro q hq
    apply m.setReg_of_ne
    rintro rfl
    exact absurd hq (by decide)
  rw [hmap, List.append_nil] at hp
  have hexec : exec callerEntry m =
      Instr.step (exec (Isr.pushed.map .push) m₀) (.mov .rbx .rsp) := by
    rw [callerEntry, exec_append, exec_cons, exec_cons, exec_nil]
    rfl
  rw [hexec]
  generalize exec (Isr.pushed.map .push) m₀ = m₁ at hp hregs hsys
  have hadd := hp.rsp_add
  rw [hsp, List.length_map, show Isr.popped.length = 15 from rfl] at hadd
  have hrsp : m₁.reg .rsp = callerRsp m := by
    apply BitVec.eq_of_toNat_eq
    rw [h.callerRsp_toNat]
    show m₁.rsp = _
    omega
  refine ⟨?_, (m₁.setReg_of_ne _ (by decide)).trans hrsp, (m₁.setReg_self _ _).trans hrsp, ?_,
    hsys, ?_⟩
  · rw [show m.rsp - 144 = m₁.rsp by omega]
    exact hp.holds
  · intro q hq hb
    exact ((m₁.setReg_of_ne _ hb).trans (hregs q hq)).trans (m.setReg_of_ne _ hq)
  · intro x hx
    exact hp.frame x (by omega)

section saveUser

variable (m₁ : Machine) {u : Word} {regs : List Word}

/-- `syscall_entry` completes the structure at `rbx`, keeps the stack pointer of the caller behind
`gs` and takes its own from there. -/
theorem saveUser_exec (hrbx : m₁.reg .rbx = u) (hrsp : m₁.reg .rsp = u)
    (hregs : X64.Holds m₁.mem u.toNat regs) (hlen : regs.length = 15) (hu : u.toNat + 144 < 2 ^ 64)
    (hk : m₁.sys.kernelGsBase.toNat + 16 ≤ 2 ^ 64)
    (hap : u.toNat + 144 ≤ m₁.sys.kernelGsBase.toNat ∨ m₁.sys.kernelGsBase.toNat + 16 ≤ u.toNat) :
    X64.Holds (exec saveUser m₁).mem u.toNat (regs ++ [m₁.reg .r11, m₁.reg .rcx, u]) ∧
      readWord (exec saveUser m₁).mem (m₁.sys.kernelGsBase.toNat + 8) = u ∧
      (exec saveUser m₁).reg .rsp = readWord m₁.mem m₁.sys.kernelGsBase.toNat ∧
      (exec saveUser m₁).reg .rdi = u ∧
      (∀ q, q ≠ .rsp → q ≠ .rdi → (exec saveUser m₁).reg q = m₁.reg q) ∧
      (exec saveUser m₁).sys = { m₁.sys with
        gsBase := m₁.sys.kernelGsBase, kernelGsBase := m₁.sys.gsBase } := by
  have haddr (d : Nat) (hd : d < 144) : m₁.addr .rbx d = u.toNat + d := by
    rw [Machine.addr_of_lt (by rw [hrbx]; omega), hrbx]
  have hgs : (m₁.sys.kernelGsBase + 8).toNat = m₁.sys.kernelGsBase.toNat + 8 := by
    rw [BitVec.toNat_add]
    exact Nat.mod_eq_of_lt (by show _ + 8 < _; omega)
  let mem₃ := writeWord (writeWord (writeWord m₁.mem (m₁.addr .rbx 120) (m₁.reg .r11))
    (m₁.addr .rbx 128) (m₁.reg .rcx)) (m₁.addr .rbx 136) (m₁.reg .rsp)
  let m₃ := ({ m₁ with mem := mem₃ } : Machine).setReg .rdi (m₁.reg .rsp)
  let mem₄ := writeWord mem₃ (m₁.sys.kernelGsBase + 8).toNat (m₃.reg .rsp)
  have hexec : exec saveUser m₁ = ({ m₃ with
      mem := mem₄
      sys := { m₁.sys with gsBase := m₁.sys.kernelGsBase, kernelGsBase := m₁.sys.gsBase } } :
      Machine).setReg .rsp (readWord mem₄ (m₁.sys.kernelGsBase + 0).toNat) := rfl
  have hrsp₃ : m₃.reg .rsp = u := (Machine.setReg_of_ne _ _ (by decide)).trans hrsp
  have hrdi₃ : m₃.reg .rdi = u := (Machine.setReg_self ..).trans hrsp
  -- The three words behind the registers complete the structure.
  have hctx : X64.Holds mem₃ u.toNat (regs ++ [m₁.reg .r11, m₁.reg .rcx, u]) := by
    have h := ((hregs.snoc (m₁.reg .r11)).snoc (m₁.reg .rcx)).snoc u
    simp only [List.append_assoc, List.length_append, List.length_singleton, hlen] at h
    simp only [mem₃, haddr 120 (by decide), haddr 128 (by decide), haddr 136 (by decide), hrsp]
    exact h
  have hkstack : readWord mem₄ (m₁.sys.kernelGsBase + 0).toNat =
      readWord m₁.mem m₁.sys.kernelGsBase.toNat := by
    rw [show m₁.sys.kernelGsBase + 0 = m₁.sys.kernelGsBase from BitVec.add_zero _]
    apply readWord_congr
    intro x hx hx'
    simp only [mem₄, mem₃, haddr 120 (by decide), haddr 128 (by decide), haddr 136 (by decide), hgs]
    rw [writeWord_apart _ _ (by omega), writeWord_apart _ _ (by omega),
      writeWord_apart _ _ (by omega), writeWord_apart _ _ (by omega)]
  rw [hexec]
  refine ⟨?_, ?_, ?_, ?_, ?_, rfl⟩
  · apply hctx.write
    rw [List.length_append, hlen, hgs]
    simp only [List.length_cons, List.length_nil]
    omega
  · rw [← hgs, ← hrsp₃]
    exact readWord_writeWord ..
  · rw [Machine.setReg_self, hkstack]
  · rw [Machine.setReg_of_ne _ _ (by decide)]
    exact hrdi₃
  · intro q hq hd
    rw [Machine.setReg_of_ne _ _ hq]
    exact Machine.setReg_of_ne _ _ hd

end saveUser

theorem saveUser_spec (syscallEntry next : Word) (h : Layout m kstack) :
    let m₂ := exec saveUser (syscall (msrs syscallEntry) next (exec callerEntry m))
    X64.Holds m₂.mem (m.rsp - 144) (contextWords m next) ∧
      readWord m₂.mem (m.sys.kernelGsBase.toNat + 8) = callerRsp m ∧
      m₂.reg .rsp = kstack ∧ m₂.reg .rdi = callerRsp m ∧ m₂.reg .rbx = callerRsp m ∧
      m₂.reg .rax = m.reg .rax ∧
      m₂.sys = { m.sys with
        rip := syscallEntry, cs := 0x08, ss := 0x10
        gsBase := m.sys.kernelGsBase, kernelGsBase := m.sys.gsBase } := by
  obtain ⟨hholds, hrsp, hrbx, hregs, hsys, hframe⟩ := callerEntry_spec h
  have hu := h.callerRsp_toNat
  have hroom := h.room
  have hap := h.apart_kgb
  have hk := h.kgb_lt
  have hlt : m.rsp < 2 ^ 64 := (m.reg .rsp).isLt
  have hkstack : readWord (exec callerEntry m).mem m.sys.kernelGsBase.toNat = kstack := by
    rw [← h.kstack_eq]
    apply readWord_congr
    intro x hx hx'
    exact hframe x (by omega)
  generalize exec callerEntry m = m₀ at *
  rw [← hu] at hholds ⊢
  rw [← hsys] at hap hk hkstack
  have hap' : (callerRsp m).toNat + 144 ≤ m₀.sys.kernelGsBase.toNat ∨
      m₀.sys.kernelGsBase.toNat + 16 ≤ (callerRsp m).toNat := by omega
  obtain ⟨hctx, hustack, hksp, hrdi, hothers, hsys₂⟩ := saveUser_exec
    (syscall (msrs syscallEntry) next m₀) ((syscall_of_ne _ _ _ (by decide) (by decide)).trans hrbx)
    ((syscall_of_ne _ _ _ (by decide) (by decide)).trans hrsp) hholds (List.length_map _)
    (by omega) hk hap'
  rw [syscall_r11, syscall_rcx, hsys] at hctx
  refine ⟨hctx, ?_, hksp.trans hkstack, hrdi, ?_, ?_, ?_⟩
  · rw [← hsys]
    exact hustack
  · rw [hothers .rbx (by decide) (by decide), syscall_of_ne _ _ _ (by decide) (by decide), hrbx]
  · rw [hothers .rax (by decide) (by decide), syscall_of_ne _ _ _ (by decide) (by decide),
      hregs .rax (by decide) (by decide)]
  · have hflags : m₀.sys.rflags &&& ~~~(0 : Word) = m₀.sys.rflags := BitVec.and_allOnes
    rw [hsys₂, ← hsys]
    simp only [syscall, msrs, hflags]
    rfl

/-- The handler has returned: its stack pointer is back, and it has left the words alone that
`syscall_entry` and the caller read again. -/
structure Returned (called m₂ : Machine) : Prop where
  rsp : m₂.reg .rsp = called.reg .rsp
  gsBase : m₂.sys.gsBase = called.sys.gsBase
  kernelGsBase : m₂.sys.kernelGsBase = called.sys.kernelGsBase
  saved : ∀ x, called.rsp ≤ x → x < called.rsp + 8 → m₂.mem x = called.mem x
  context : ∀ x, (called.reg .rbx).toNat ≤ x → x < (called.reg .rbx).toNat + 144 →
    m₂.mem x = called.mem x

/-- The machine at the first instruction of the handler. -/
def called (syscallEntry next : Word) (m : Machine) : Machine :=
  Instr.step (exec saveUser (syscall (msrs syscallEntry) next (exec callerEntry m))) (.push .rbx)

/-- `syscall_entry` and `fvsyscall` behind the handler. -/
def returns (syscallEntry : Word) (m₂ : Machine) : Machine :=
  exec callerExit (sysret (msrs syscallEntry) (exec restoreUser m₂))

section restoreUser

variable {m₂ : Machine} {u flags next : Word} {regs : List Word}

/-- The stack pointer behind `gs` does not matter, since the structure has it too. -/
theorem restoreUser_exec (htop : m₂.top = u)
    (hctx : X64.Holds m₂.mem u.toNat (regs ++ [flags, next, u])) (hlen : regs.length = 15)
    (hu : u.toNat + 144 < 2 ^ 64) :
    (exec restoreUser m₂).reg .rcx = next ∧ (exec restoreUser m₂).reg .rsp = u ∧
      (exec restoreUser m₂).reg .r11 = 2 ∧
      (exec restoreUser m₂).reg .rax = m₂.reg .rax ∧ (exec restoreUser m₂).mem = m₂.mem ∧
      (exec restoreUser m₂).sys = { m₂.sys with
        gsBase := m₂.sys.kernelGsBase, kernelGsBase := m₂.sys.gsBase } := by
  let m₃ := (m₂.drop.setReg .rbx m₂.top).setReg .rsp
    (readWord m₂.mem (m₂.sys.gsBase + 8).toNat)
  have hrbx₃ : m₃.reg .rbx = u :=
    (Machine.setReg_of_ne _ _ (by decide)).trans ((Machine.setReg_self ..).trans htop)
  have hrax₃ : m₃.reg .rax = m₂.reg .rax :=
    (Machine.setReg_of_ne _ _ (by decide)).trans
      ((Machine.setReg_of_ne _ _ (by decide)).trans (m₂.drop_of_ne (by decide)))
  have hread {m' : Machine} {i : Nat} {v : Word} (hb : m'.reg .rbx = u) (hm : m'.mem = m₂.mem)
      (hi : (regs ++ [flags, next, u])[i]? = some v) :
      readWord m'.mem (m'.addr .rbx (8 * i)) = v := by
    have hlt := (List.getElem?_eq_some_iff.mp hi).1
    rw [List.length_append, hlen] at hlt
    simp only [List.length_cons, List.length_nil] at hlt
    rw [Machine.addr_of_lt (by rw [hb]; omega), hb, hm]
    exact hctx.get hi
  have hword (j : Nat) : (regs ++ [flags, next, u])[15 + j]? = [flags, next, u][j]? := by
    rw [List.getElem?_append_right (by omega), hlen, Nat.add_sub_cancel_left]
  let m₄ := m₃.setReg .r11 flags
  let m₅ := m₄.setReg .rcx next
  have h11 : Instr.step m₃ (.load .r11 .rbx 120) = m₄ :=
    congrArg (m₃.setReg .r11) (hread (i := 15) hrbx₃ rfl (hword 0))
  have hrbx₄ : m₄.reg .rbx = u := (Machine.setReg_of_ne _ _ (by decide)).trans hrbx₃
  have hcx : Instr.step m₄ (.load .rcx .rbx 128) = m₅ :=
    congrArg (m₄.setReg .rcx) (hread (i := 16) hrbx₄ rfl (hword 1))
  have hrbx₅ : m₅.reg .rbx = u := (Machine.setReg_of_ne _ _ (by decide)).trans hrbx₄
  have hsp : Instr.step m₅ (.load .rsp .rbx 136) = m₅.setReg .rsp u :=
    congrArg (m₅.setReg .rsp) (hread (i := 17) hrbx₅ rfl (hword 2))
  have hexec : exec restoreUser m₂ = (Instr.step (m₅.setReg .rsp u) .swapgs).setReg .r11 2 := by
    have hgs : Instr.step (Instr.step m₂ (.pop .rbx)) (.loadGs .rsp 8) = m₃ := rfl
    rw [restoreUser, exec_cons, exec_cons, hgs, exec_cons, h11, exec_cons, hcx, exec_cons, hsp,
      exec_cons, exec_cons, exec_nil]
    rfl
  rw [hexec]
  have hstep (q : Reg) (h11 : q ≠ .r11) :
      ((Instr.step (m₅.setReg .rsp u) .swapgs).setReg .r11 2).reg q = (m₅.setReg .rsp u).reg q :=
    Machine.setReg_of_ne _ _ h11
  refine ⟨?_, ?_, Machine.setReg_self .., ?_, rfl, rfl⟩
  · rw [hstep .rcx (by decide), Machine.setReg_of_ne _ _ (by decide)]
    exact Machine.setReg_self ..
  · rw [hstep .rsp (by decide), Machine.setReg_self]
  · rw [hstep .rax (by decide), Machine.setReg_of_ne _ _ (by decide)]
    exact (Machine.setReg_of_ne _ _ (by decide)).trans
      ((Machine.setReg_of_ne _ _ (by decide)).trans hrax₃)

end restoreUser

section callerExit

variable {m₃ : Machine} {f : Reg → Word} {vs : List Word}

theorem callerExit_exec (h : OnStack top low base (Isr.popped.map f ++ vs) m₃)
    (htop : top < 2 ^ 64) :
    OnStack top low base vs (exec callerExit m₃) ∧
      (∀ q, q ≠ .rax → q ≠ .rsp → (exec callerExit m₃).reg q = f q) ∧
      (exec callerExit m₃).reg .rax = m₃.reg .rax ∧ (exec callerExit m₃).sys = m₃.sys ∧
      (exec callerExit m₃).mem = m₃.mem := by
  have h₁ : OnStack top low base
      ([.r15, .r14, .r13, .r12, .rbp, .rbx, .r11, .r10, .r9, .r8].map f ++
        (f .rax :: ([.rcx, .rdx, .rsi, .rdi].map f ++ vs))) m₃ := h
  obtain ⟨hs₁, hr₁, hsys₁, hmem₁⟩ := exec_pops h₁ htop (by decide)
  rw [callerExit, exec_append, exec_cons]
  generalize exec _ m₃ = m₄ at hs₁ hr₁ hsys₁ hmem₁ ⊢
  rw [show Instr.step m₄ (.pop .rcx) = m₄.drop.setReg .rcx m₄.top from rfl]
  have h₂ := (hs₁.drop htop).setReg (r := .rcx) (by decide) m₄.top
  obtain ⟨hs₂, hr₂, hsys₂, hmem₂⟩ := exec_pops h₂ htop (by decide)
  have hmid (q : Reg) (hc : q ≠ .rcx) (hsp : q ≠ .rsp) : (m₄.drop.setReg .rcx m₄.top).reg q =
      m₄.reg q := (Machine.setReg_of_ne _ _ hc).trans (m₄.drop_of_ne hsp)
  refine ⟨hs₂, ?_, ?_, ?_, ?_⟩
  · intro q ha hsp
    rw [hr₂ q hsp]
    by_cases hl : q ∈ [.rcx, .rdx, .rsi, .rdi]
    · rw [if_pos hl]
    · have hc : q ≠ .rcx := by
        rintro rfl
        exact hl (by decide)
      rw [if_neg hl, hmid q hc hsp, hr₁ q hsp, if_pos]
      cases q <;>
        first | exact absurd rfl ha | exact absurd rfl hsp | exact absurd (by decide) hl | decide
  · rw [hr₂ .rax (by decide), if_neg (by decide), hmid .rax (by decide) (by decide),
      hr₁ .rax (by decide), if_neg (by decide)]
  · rw [hsys₂, Machine.setReg_sys, Machine.drop_sys, hsys₁]
  · rw [hmem₂, Machine.setReg_mem, Machine.drop_mem, hmem₁]

end callerExit

theorem called_context (syscallEntry next : Word) (h : Layout m kstack) :
    X64.Holds (called syscallEntry next m).mem (callerRsp m).toNat (contextWords m next) ∧
      (called syscallEntry next m).reg .rdi = callerRsp m ∧
      (called syscallEntry next m).reg .rbx = callerRsp m ∧
      (called syscallEntry next m).top = callerRsp m ∧
      (called syscallEntry next m).sys = { m.sys with
        rip := syscallEntry, cs := 0x08, ss := 0x10
        gsBase := m.sys.kernelGsBase, kernelGsBase := m.sys.gsBase } := by
  obtain ⟨hctx, -, hrsp, hrdi, hrbx, -, hsys⟩ := saveUser_spec syscallEntry next h
  have hu := h.callerRsp_toNat
  have hroom := h.room
  have hks := h.kstack_room
  have hap := h.apart_kstack
  rw [called]
  generalize exec saveUser (syscall (msrs syscallEntry) next (exec callerEntry m)) = m₁ at *
  have hksp : m₁.rsp = kstack.toNat := congrArg BitVec.toNat hrsp
  have hpush := (onStack_nil m₁ (m₁.rsp - 8) (Nat.sub_le ..)).push (by omega) (m₁.reg .rbx)
  rw [show Instr.step m₁ (.push .rbx) = m₁.push (m₁.reg .rbx) from rfl]
  refine ⟨?_, (m₁.push_of_ne _ (by decide)).trans hrdi, (m₁.push_of_ne _ (by decide)).trans hrbx,
    hpush.top_eq.trans hrbx, hsys⟩
  rw [hu]
  apply hctx.congr
  intro x hx hx'
  rw [show (contextWords m next).length = 18 from rfl] at hx'
  exact hpush.frame x (by omega)

/-- A system call gives the caller every register back but the result and the stack pointer, which
is 24 bytes too low. Behind it the caller runs with interrupts off, and its selector is the one of
the TSS. -/
theorem returns_spec {m₂ : Machine} (syscallEntry next : Word) (h : Layout m kstack)
    (hr : Returned (called syscallEntry next m) m₂) :
    (∀ q, q ≠ .rax → q ≠ .rsp → (returns syscallEntry m₂).reg q = m.reg q) ∧
      (returns syscallEntry m₂).reg .rax = m₂.reg .rax ∧
      (returns syscallEntry m₂).reg .rsp = m.reg .rsp - 24 ∧
      (returns syscallEntry m₂).mem = m₂.mem ∧
      (returns syscallEntry m₂).sys = { m₂.sys with
        rip := next, cs := 0x2B, ss := 0x23, rflags := 2
        gsBase := m.sys.gsBase, kernelGsBase := m.sys.kernelGsBase } := by
  obtain ⟨hctx, -, hrbx, htop, hsys⟩ := called_context syscallEntry next h
  have hu := h.callerRsp_toNat
  have hroom := h.room
  have hlt : m.rsp < 2 ^ 64 := (m.reg .rsp).isLt
  generalize called syscallEntry next m = m₁ at *
  -- The handler has kept the word with the pointer, and the structure that it points to.
  have htop₂ : m₂.top = callerRsp m := by
    have hrsp₂ : m₂.rsp = m₁.rsp := congrArg BitVec.toNat hr.rsp
    rw [← htop, Machine.top, Machine.top, hrsp₂]
    exact readWord_congr hr.saved
  have hctx₂ : X64.Holds m₂.mem (callerRsp m).toNat (contextWords m next) := by
    have hsaved := hr.context
    rw [hrbx] at hsaved
    exact hctx.congr fun x hx hx' => hsaved x hx hx'
  obtain ⟨hrcx, hrsp₃, hr11, hrax₃, hmem₃, hsys₃⟩ := restoreUser_exec htop₂ hctx₂ rfl (by omega)
  let m₄ := sysret (msrs syscallEntry) (exec restoreUser m₂)
  have hrsp₄ : m₄.rsp = m.rsp - 144 := (congrArg BitVec.toNat hrsp₃).trans hu
  have hst : OnStack m.rsp (m.rsp - 144) m₄.mem (contextWords m next) m₄ := by
    refine ⟨?_, by omega, ?_, fun _ _ => rfl⟩
    · rw [hrsp₄, show (contextWords m next).length = 18 from rfl]
      omega
    · rw [hrsp₄, ← hu, show m₄.mem = m₂.mem from hmem₃]
      exact hctx₂
  obtain ⟨hs, hregs, hrax₄, hsys₄, hmem₄⟩ := callerExit_exec hst hlt
  refine ⟨hregs, hrax₄.trans hrax₃, ?_, hmem₄.trans hmem₃, ?_⟩
  · have h24 : (24 : Word) ≤ m.reg .rsp := BitVec.le_def.mpr (show 24 ≤ m.rsp by omega)
    have hadd₅ := hs.rsp_add
    apply BitVec.eq_of_toNat_eq
    rw [BitVec.toNat_sub_of_le h24]
    show (exec callerExit m₄).rsp = m.rsp - 24
    simp only [List.length_cons, List.length_nil] at hadd₅
    omega
  · refine hsys₄.trans ?_
    have hgs : m₂.sys.gsBase = m.sys.kernelGsBase := hr.gsBase.trans (congrArg System.gsBase hsys)
    have hkgs : m₂.sys.kernelGsBase = m.sys.gsBase :=
      hr.kernelGsBase.trans (congrArg System.kernelGsBase hsys)
    have hcs : (starValue >>> 48) + 16 ||| 3 = 0x2B := by decide
    have hss : (starValue >>> 48) + 8 ||| 3 = 0x23 := by decide
    have hflags : (2 : Word) &&& 0x3C7FD7 ||| 2 = 2 := by decide
    simp only [m₄, sysret, msrs, hsys₃, hrcx, hr11, hgs, hkgs, hcs, hss, hflags]

end SyscallPath

end BiosKernel
