import BiosKernel.Interrupt.Entry

namespace BiosKernel
set_option autoImplicit true

open X64

namespace CpuState

/-- The general registers of the context. -/
def reg (c : CpuState) : Reg → Word
  | .rax => BitVec.ofNat 64 c.rax
  | .rbx => BitVec.ofNat 64 c.rbx
  | .rcx => BitVec.ofNat 64 c.rcx
  | .rdx => BitVec.ofNat 64 c.rdx
  | .rsi => BitVec.ofNat 64 c.rsi
  | .rdi => BitVec.ofNat 64 c.rdi
  | .rbp => BitVec.ofNat 64 c.rbp
  | .rsp => BitVec.ofNat 64 c.rsp
  | .r8 => BitVec.ofNat 64 c.r8
  | .r9 => BitVec.ofNat 64 c.r9
  | .r10 => BitVec.ofNat 64 c.r10
  | .r11 => BitVec.ofNat 64 c.r11
  | .r12 => BitVec.ofNat 64 c.r12
  | .r13 => BitVec.ofNat 64 c.r13
  | .r14 => BitVec.ofNat 64 c.r14
  | .r15 => BitVec.ofNat 64 c.r15

/-- The structure as it lies in memory. -/
def words (c : CpuState) : List Word :=
  [c.r15, c.r14, c.r13, c.r12, c.rbp, c.rbx, c.r11, c.r10, c.r9, c.r8, c.rax, c.rcx, c.rdx, c.rsi,
    c.rdi, c.eflags, c.rip, c.rsp].map (BitVec.ofNat 64)

end CpuState

/-- The selectors of the user's code and data, with privilege level 3. -/
def userCsSelector : Word := 0x18 ||| 3

def userDsSelector : Word := 0x20 ||| 3

/-- The first part of `jump_usermode`, which builds the frame for `iretq`. Loading `ds`, `es` and
`fs` changes nothing else. -/
def buildFrame : List Instr :=
  [.movImm16 .rax 0x23, .movGs,
    .pushImm userDsSelector,
    .load .rax .rdi (8 * 17), .push .rax,
    .pushMem .rdi (8 * 15), .orMem .rsp 0 0x200, .orMem .rsp 0 0x202,
    .pushImm userCsSelector,
    .load .rax .rdi (8 * 16), .push .rax]

/-- `jump_usermode` up to `iretq`. The last of the loads takes the pointer away. -/
def jumpUsermode : List Instr :=
  buildFrame ++
    loads .rdi 0
      [.r15, .r14, .r13, .r12, .rbp, .rbx, .r11, .r10, .r9, .r8, .rax, .rcx, .rdx, .rsi] ++
    [.load .rdi .rdi 112]

/-- `rdi` points to the context `c`, and the five words below the stack pointer are apart from it.
-/
structure PointsTo (c : CpuState) (m : Machine) : Prop where
  holds : X64.Holds m.mem (m.reg .rdi).toNat c.words
  lt : (m.reg .rdi).toNat + 144 ≤ 2 ^ 64
  room : 40 ≤ m.rsp
  apart : m.rsp ≤ (m.reg .rdi).toNat ∨ (m.reg .rdi).toNat + 144 + 40 ≤ m.rsp

/-- A state on the way through `buildFrame`. -/
structure Building (m : Machine) (vs : List Word) (m' : Machine) : Prop where
  stack : OnStack m.rsp (m.rsp - 40) m.mem vs m'
  rdi : m'.reg .rdi = m.reg .rdi
  sys : m'.sys = { m.sys with gsBase := 0 }

namespace Building

variable {m m' : Machine} {c : CpuState}

theorem push (h : Building m vs m') (hp : PointsTo c m) (hlen : vs.length < 5) (v : Word) :
    Building m (v :: vs) (m'.push v) := by
  have hadd := h.stack.rsp_add
  have hroom := hp.room
  exact ⟨h.stack.push (by omega) v, (m'.push_of_ne v (by decide)).trans h.rdi, h.sys⟩

theorem setRax (h : Building m vs m') (v : Word) : Building m vs (m'.setReg .rax v) :=
  ⟨h.stack.setReg (by decide) v, (m'.setReg_of_ne v (by decide)).trans h.rdi, h.sys⟩

theorem read (h : Building m vs m') (hp : PointsTo c m) (hi : c.words[i]? = some v) :
    readWord m'.mem (m'.addr .rdi (8 * i)) = v := by
  have hlen : i < 18 := (List.getElem?_eq_some_iff.mp hi).1
  have hlt := hp.lt
  have hap := hp.apart
  have hroom := hp.room
  rw [← h.rdi] at hlt
  rw [Machine.addr_of_lt (by omega), h.rdi]
  refine (h.stack.holds_apart hp.holds ?_).get hi
  rw [show c.words.length = 18 from rfl]
  omega

theorem pushLoad (h : Building m vs m') (hp : PointsTo c m) (hlen : vs.length < 5)
    (hi : c.words[i]? = some v) :
    Building m (v :: vs) (exec [.load .rax .rdi (8 * i), .push .rax] m') := by
  have hstep : Instr.step m' (.load .rax .rdi (8 * i)) = m'.setReg .rax v :=
    congrArg (m'.setReg .rax) (h.read hp hi)
  have hpush := (h.setRax v).push hp hlen ((m'.setReg .rax v).reg .rax)
  rw [exec_cons, hstep]
  rw [Machine.setReg_self] at hpush
  exact hpush

theorem pushMem (h : Building m vs m') (hp : PointsTo c m) (hlen : vs.length < 5)
    (hi : c.words[i]? = some v) : Building m (v :: vs) (Instr.step m' (.pushMem .rdi (8 * i))) := by
  rw [Instr.step, h.read hp hi]
  exact h.push hp hlen v

theorem orTop (h : Building m (v :: vs) m') (x : Word) :
    Building m ((v ||| x) :: vs) (Instr.step m' (.orMem .rsp 0 x)) :=
  ⟨h.stack.orTop x, h.rdi, h.sys⟩

end Building

theorem buildFrame_builds {m : Machine} {c : CpuState} (hp : PointsTo c m) :
    Building m [BitVec.ofNat 64 c.rip, userCsSelector,
      BitVec.ofNat 64 c.eflags ||| 0x200 ||| 0x202, BitVec.ofNat 64 c.rsp, userDsSelector]
      (exec buildFrame m) := by
  have h₀ : Building m [] (exec [.movImm16 .rax 0x23, .movGs] m) := by
    let m₀ := m.setReg .rax (m.reg .rax &&& ~~~0xFFFF ||| 0x23)
    have hrdi : m₀.reg .rdi = m.reg .rdi := m.setReg_of_ne _ (by decide)
    have hstack : OnStack m.rsp (m.rsp - 40) m.mem [] m₀ :=
      (onStack_nil m _ (Nat.sub_le ..)).setReg (by decide) _
    exact ⟨hstack.congr rfl rfl, hrdi, rfl⟩
  have h₁ := h₀.push hp (by decide) userDsSelector
  have h₂ := h₁.pushLoad hp (by decide) (i := 17) rfl
  have h₃ := ((h₂.pushMem hp (by simp) (i := 15) rfl).orTop 0x200).orTop 0x202
  have h₄ := h₃.push hp (by simp) userCsSelector
  exact h₄.pushLoad hp (by simp) (i := 16) rfl

/-- `jump_usermode` starts a process in user mode with the registers of its context, and with
interrupts on. -/
theorem jumpUsermode_enters {m : Machine} {c : CpuState} (hp : PointsTo c m) :
    ∃ m', iretq codeSegment (exec jumpUsermode m) = some m' ∧ m'.reg = c.reg ∧
      m'.sys = { m.sys with
        rip := BitVec.ofNat 64 c.rip, cs := userCsSelector,
        rflags := BitVec.ofNat 64 c.eflags ||| 0x202, ss := userDsSelector, gsBase := 0 } ∧
      ∀ x, m.rsp ≤ x ∨ x + 40 < m.rsp → m'.mem x = m.mem x := by
  have hb := buildFrame_builds hp
  have hlt := hp.lt
  have hap := hp.apart
  have hroom := hp.room
  have hctx : X64.Holds (exec buildFrame m).mem (m.reg .rdi).toNat c.words := by
    apply hb.stack.holds_apart hp.holds
    rw [show c.words.length = 18 from rfl]
    omega
  rw [jumpUsermode, exec_append, exec_append]
  generalize exec buildFrame m = m₁ at hb hctx
  have hrdi := hb.rdi
  rw [← hrdi] at hctx hlt
  have hwords : c.words =
      [.r15, .r14, .r13, .r12, .rbp, .rbx, .r11, .r10, .r9, .r8, .rax, .rcx, .rdx,
        .rsi].map c.reg ++
        [c.rdi, c.eflags, c.rip, c.rsp].map (BitVec.ofNat 64) := rfl
  have hloads := hctx
  rw [hwords] at hloads
  obtain ⟨hregs, hmem, hsys⟩ := exec_loads (m := m₁) .rdi []
    [.r15, .r14, .r13, .r12, .rbp, .rbx, .r11, .r10, .r9, .r8, .rax, .rcx, .rdx, .rsi] c.reg
    (holds_append.mp hloads).1 (by simp only [List.length]; omega) (by decide)
  rw [List.length_nil, Nat.mul_zero] at hregs hmem hsys
  generalize exec (loads _ _ _) m₁ = m₂ at hregs hmem hsys
  have hstep : Instr.step m₂ (.load .rdi .rdi 112) = m₂.setReg .rdi (BitVec.ofNat 64 c.rdi) := by
    have hr : m₂.reg .rdi = m₁.reg .rdi := hregs .rdi
    have hv : readWord m₂.mem (m₂.addr .rdi 112) = BitVec.ofNat 64 c.rdi := by
      rw [Machine.addr_of_lt (by rw [hr]; omega), hr, hmem]
      exact hctx.get (i := 14) rfl
    exact congrArg (m₂.setReg .rdi) hv
  have hrsp : m₂.reg .rsp = m₁.reg .rsp := hregs .rsp
  have hstack : OnStack _ _ _ _ m₂ := hb.stack.congr hrsp hmem
  have hframe := hstack.setReg (r := .rdi) (by decide) (BitVec.ofNat 64 c.rdi)
  rw [exec_cons, hstep, exec_nil, iretq_of_onStack hframe (BitVec.isLt _) (by decide)]
  refine ⟨_, rfl, ?_, ?_, ?_⟩
  · dsimp only
    funext q
    by_cases hq : q = .rsp
    · subst hq
      exact Machine.setReg_self ..
    · rw [Machine.setReg_of_ne _ _ hq]
      by_cases hd : q = .rdi
      · subst hd
        exact Machine.setReg_self ..
      · rw [m₂.setReg_of_ne _ hd, hregs q, if_pos]
        cases q <;> first | exact absurd rfl hq | exact absurd rfl hd | decide
  · have hsys' : (m₂.setReg .rdi (BitVec.ofNat 64 c.rdi)).sys = { m.sys with gsBase := 0 } :=
      hsys.trans hb.sys
    dsimp only
    rw [hsys', BitVec.or_assoc]
    rfl
  · intro x hx
    exact hframe.frame x (by omega)

end BiosKernel
