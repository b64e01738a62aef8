import BiosKernel.Lib.Cyclic
import BiosKernel.Process.Sched

namespace BiosKernel
set_option autoImplicit true

namespace Sched

/-- The states in which calls of `alloc_proc` have built the list `xs`, with any use of the
scheduler in between. `malloc` returns blocks that are not in use. -/
inductive Built : Sched → List Nat → Prop where
  | boot (hl : s.pcbList = 0) (hc : s.currentPcb = 0) : Built s []
  | allocProc (h : Built s xs) (p : Pcb) (hp : ptr ≠ 0 ∧ ptr ∉ xs)
      (hn : n ≠ 0 ∧ ∀ q ∈ xs, (s.pcb q).listNode ≠ n) : Built (s.allocProc ptr n p) (ptr :: xs)
  | setState (h : Built s xs) (ptr : Nat) (st : ProcState) : Built (s.setState ptr st) xs
  | runProc (h : Built s xs) (hp : ptr ∈ xs) : Built (s.runProc ptr) xs
  | tick (h : Built s xs) (now : Nat) (r : Registers) : Built (s.tick now r) xs

variable {s s' : Sched} {xs : List Nat}

/-- `pcb_list` holds the PCBs `xs`, each of which names its own node. -/
structure Threaded (s : Sched) (xs : List Nat) : Prop where
  chain : Linked.Chain 0 (fun n => (s.node n).next) s.pcbList (xs.map fun p => (s.pcb p).listNode)
  data : ∀ p ∈ xs, (s.node (s.pcb p).listNode).data = p
  nonnull : 0 ∉ xs
  current : s.currentPcb = 0 ∨ s.currentPcb ∈ xs

theorem Threaded.nodup (h : s.Threaded xs) : xs.Nodup := h.chain.nodup.of_map

theorem Threaded.congr (h : s.Threaded xs) (hnode : s'.node = s.node)
    (hlist : s'.pcbList = s.pcbList)
    (hpcb : ∀ p, (s'.pcb p).listNode = (s.pcb p).listNode)
    (hcur : s'.currentPcb = 0 ∨ s'.currentPcb ∈ xs) : s'.Threaded xs := by
  refine ⟨?_, ?_, h.nonnull, hcur⟩
  · simp only [hnode, hlist, hpcb]
    exact h.chain
  · simp only [hnode, hpcb]
    exact h.data

theorem Threaded.head (h : s.Threaded xs) (hl : s.pcbList ≠ 0) :
    (s.node s.pcbList).data = xs.headD 0 := by
  cases xs with
  | nil => exact absurd h.chain hl
  | cons p xs =>
    rw [h.chain.head_eq]
    exact h.data p List.mem_cons_self

theorem Threaded.pick_eq (h : s.Threaded xs) (hl : s.pcbList ≠ 0) :
    s.pick = Cyclic.next 0 xs s.currentPcb := by
  rcases h.current with hc | hc
  · rw [pick, if_pos (.inl hc), h.head hl, Cyclic.next_of_not_mem]
    rw [hc]
    exact h.nonnull
  · have hc0 : s.currentPcb ≠ 0 := by
      intro h0
      exact h.nonnull (h0 ▸ hc)
    obtain ⟨pre, post, hxs⟩ := List.append_of_mem hc
    have hd := h.nodup
    have hchain := h.chain
    rw [hxs] at hd
    have hpre : s.currentPcb ∉ pre := by
      intro hm
      exact List.disjoint_of_nodup_append hd hm List.mem_cons_self
    rw [hxs, List.map_append, List.map_cons] at hchain
    obtain ⟨_, hn0, hr⟩ := hchain.suffix
    cases post with
    | nil =>
      have hnext : (s.node (s.pcb s.currentPcb).listNode).next = 0 := hr
      rw [pick, if_pos (.inr (.inr hnext)), h.head hl, hxs, Cyclic.next_of_last 0 hpre]
    | cons q post =>
      obtain ⟨hnext, hq0, _⟩ := hr
      have hq : q ∈ xs := by
        rw [hxs]
        simp
      have hnext : (s.node (s.pcb s.currentPcb).listNode).next = (s.pcb q).listNode := hnext
      rw [pick, if_neg, hnext, h.data q hq, hxs, Cyclic.next_of_split 0 hpre]
      rw [hnext]
      rintro (h0 | h0 | h0)
      · exact hc0 h0
      · exact hn0 h0
      · exact hq0 h0

theorem Threaded.tick (h : s.Threaded xs) (now : Nat) (r : Registers) :
    (s.tick now r).Threaded xs := by
  have hpcb (p : Nat) : ((s.saved now r).pcb p).listNode = (s.pcb p).listNode :=
    saveContext_listNode _ r p
  have hnode : (s.saved now r).node = s.node := saveContext_node _ r
  have hlist : (s.saved now r).pcbList = s.pcbList := saveContext_pcbList _ r
  rcases s.tick_cases now r with he | ⟨hl, _, he⟩ | ⟨_, _, he⟩
  · rw [he]
    exact h.congr rfl rfl (fun _ => rfl) h.current
  · rw [he]
    refine h.congr hnode hlist hpcb (.inr ?_)
    show s.pick ∈ xs
    rw [h.pick_eq hl]
    apply Cyclic.next_mem
    rintro rfl
    exact hl h.chain
  · rw [he]
    refine h.congr hnode hlist hpcb ?_
    have hcur : (s.saved now r).currentPcb = s.currentPcb := saveContext_currentPcb _ r
    show (s.saved now r).currentPcb = 0 ∨ (s.saved now r).currentPcb ∈ xs
    rw [hcur]
    exact h.current

theorem allocProc_pcb_self (s : Sched) (ptr n : Nat) (p : Pcb) :
    ((s.allocProc ptr n p).pcb ptr).listNode = n := by
  simp only [allocProc, appendNode, Function.update_self]

theorem allocProc_pcb_of_ne (s : Sched) (n : Nat) (p : Pcb) (h : q ≠ ptr) :
    (s.allocProc ptr n p).pcb q = s.pcb q := by
  simp only [allocProc, appendNode, Function.update_of_ne h]

theorem allocProc_node (s : Sched) (ptr n : Nat) (p : Pcb) : (s.allocProc ptr n p).node =
    Function.update s.node n { data := ptr, next := s.pcbList } := rfl

theorem Threaded.allocProc (h : s.Threaded xs) (p : Pcb) (hp : ptr ≠ 0 ∧ ptr ∉ xs)
    (hn : n ≠ 0 ∧ ∀ q ∈ xs, (s.pcb q).listNode ≠ n) :
    (s.allocProc ptr n p).Threaded (ptr :: xs) := by
  have hold (q : Nat) (hq : q ∈ xs) :
      ((s.allocProc ptr n p).pcb q).listNode = (s.pcb q).listNode := by
    rw [allocProc_pcb_of_ne]
    rintro rfl
    exact hp.2 hq
  have hmap : (xs.map fun q => ((s.allocProc ptr n p).pcb q).listNode) =
      xs.map fun q => (s.pcb q).listNode := List.map_congr_left hold
  refine ⟨?_, ?_, ?_, ?_⟩
  · rw [List.map_cons, allocProc_pcb_self, hmap]
    refine ⟨rfl, hn.1, ?_⟩
    simp only [allocProc_node, Function.update_self]
    apply h.chain.congr
    intro m hm
    obtain ⟨q, hq, rfl⟩ := List.mem_map.mp hm
    rw [Function.update_of_ne (hn.2 q hq)]
  · intro q hq
    rcases List.mem_cons.mp hq with rfl | hq
    · rw [allocProc_pcb_self, allocProc_node, Function.update_self]
    · rw [hold q hq, allocProc_node, Function.update_of_ne (hn.2 q hq)]
      exact h.data q hq
  · intro h0
    rcases List.mem_cons.mp h0 with h0 | h0
    · exact hp.1 h0.symm
    · exact h.nonnull h0
  · exact h.current.imp_right (List.mem_cons_of_mem ptr)

theorem Built.threaded (h : Built s xs) : s.Threaded xs := by
  induction h with
  | boot hl hc => exact ⟨hl, fun p hp => absurd hp List.not_mem_nil, List.not_mem_nil, .inl hc⟩
  | allocProc _ p hp hn ih => exact ih.allocProc p hp hn
  | setState _ ptr st ih =>
    refine ih.congr rfl rfl (fun q => ?_) ih.current
    by_cases hq : q = ptr
    · simp only [hq, Sched.setState, Function.update_self]
    · simp only [Sched.setState, Function.update_of_ne hq]
  | runProc _ hp ih => exact ih.congr rfl rfl (fun _ => rfl) (.inr hp)
  | tick _ now r ih => exact ih.tick now r

/-- A run of timer interrupts, each with the time and the interrupted frame. -/
def runTicks (s : Sched) (ts : List (Nat × Registers)) : Sched :=
  ts.foldl (fun s t => s.tick t.1 t.2) s

/-- The processes that the switches of a run go to, in order. -/
def switches : Sched → List (Nat × Registers) → List Nat
  | _, [] => []
  | s, t :: ts =>
    let s := s.tick t.1 t.2
    if s.schedTriggered then s.currentPcb :: s.switches ts else s.switches ts

def AllReady (s : Sched) (xs : List Nat) : Prop :=
  ∀ p ∈ xs, (s.pcb p).state = .ready ∧ 2 ≤ (s.pcb p).pid

instance (s : Sched) (xs : List Nat) : Decidable (s.AllReady xs) :=
  inferInstanceAs (Decidable (∀ p ∈ xs, (s.pcb p).state = .ready ∧ 2 ≤ (s.pcb p).pid))

/-- A context with the register values of the interrupted frame. -/
structure HoldsFrame (c : CpuState) (r : Registers) : Prop where
  callerSaved : c.rax = r.rax ∧ c.rcx = r.rcx ∧ c.rdx = r.rdx ∧ c.rsi = r.rsi ∧ c.rdi = r.rdi ∧
    c.r8 = r.r8 ∧ c.r9 = r.r9 ∧ c.r10 = r.r10 ∧ c.r11 = r.r11
  calleeSaved : c.rbx = r.rbx ∧ c.rbp = r.rbp ∧ c.r12 = r.r12 ∧ c.r13 = r.r13 ∧ c.r14 = r.r14 ∧
    c.r15 = r.r15
  control : c.rip = r.rip ∧ c.rsp = r.rsp ∧ c.eflags = r.eflags

theorem holdsFrame (r : Registers) : HoldsFrame (toCpuStateFromSyscall r) r :=
  ⟨⟨rfl, rfl, rfl, rfl, rfl, rfl, rfl, rfl, rfl⟩, ⟨rfl, rfl, rfl, rfl, rfl, rfl⟩, ⟨rfl, rfl, rfl⟩⟩

theorem AllReady.tick (h : s.AllReady xs) (now : Nat) (r : Registers) :
    (s.tick now r).AllReady xs := by
  intro p hp
  have hs : ((s.saved now r).pcb p).state = .ready ∧ 2 ≤ ((s.saved now r).pcb p).pid := by
    rw [saved, saveContext_state, saveContext_pid]
    exact h p hp
  rcases s.tick_cases now r with he | ⟨_, _, he⟩ | ⟨_, _, he⟩
  · rw [he]
    exact h p hp
  · rw [he]
    exact hs
  · rw [he]
    exact hs

theorem Threaded.tick_ready (h : s.Threaded xs) (hr : s.AllReady xs) (now : Nat) (r : Registers) :
    ((s.tick now r).schedTriggered = false ∧ (s.tick now r).currentPcb = s.currentPcb) ∨
    ((s.tick now r).schedTriggered = true ∧ xs ≠ [] ∧
      (s.tick now r).currentPcb = Cyclic.next 0 xs s.currentPcb ∧
      (s.currentPcb ≠ 0 → HoldsFrame ((s.tick now r).pcb s.currentPcb).cpuContext r)) := by
  have hne (hl : s.pcbList ≠ 0) : xs ≠ [] := by
    rintro rfl
    exact hl h.chain
  rcases s.tick_cases now r with he | ⟨hl, _, he⟩ | ⟨hl, hno, he⟩
  · rw [he]
    exact .inl ⟨rfl, rfl⟩
  · rw [he]
    refine .inr ⟨rfl, hne hl, h.pick_eq hl, ?_⟩
    intro h0
    show HoldsFrame ((s.saved now r).pcb s.currentPcb).cpuContext r
    rw [saved, saveContext_pcb, if_pos ⟨rfl, h0⟩]
    exact holdsFrame r
  · have hm : s.pick ∈ xs := by
      rw [h.pick_eq hl]
      exact Cyclic.next_mem 0 _ (hne hl)
    obtain ⟨hstate, hpid⟩ := hr _ hm
    exact absurd ⟨by omega, by rw [kernelPid]; omega, hstate⟩ hno

theorem Threaded.runTicks (h : s.Threaded xs) (hr : s.AllReady xs) (ts : List (Nat × Registers)) :
    (s.runTicks ts).Threaded xs ∧ (s.runTicks ts).AllReady xs := by
  induction ts generalizing s with
  | nil => exact ⟨h, hr⟩
  | cons t ts ih => exact ih (h.tick t.1 t.2) (hr.tick t.1 t.2)

theorem Threaded.switches_chain (h : s.Threaded xs) (hr : s.AllReady xs)
    (ts : List (Nat × Registers)) :
    (s.currentPcb :: s.switches ts).IsChain (fun a b => b = Cyclic.next 0 xs a) ∧
      ∀ p ∈ s.switches ts, p ∈ xs := by
  induction ts generalizing s with
  | nil => exact ⟨List.isChain_singleton _, fun p hp => absurd hp List.not_mem_nil⟩
  | cons t ts ih =>
    obtain ⟨hc, hm⟩ := ih (h.tick t.1 t.2) (hr.tick t.1 t.2)
    rcases h.tick_ready hr t.1 t.2 with ⟨hno, hcur⟩ | ⟨hyes, hne, hcur, _⟩
    · rw [switches, hno, ← hcur]
      exact ⟨hc, hm⟩
    · rw [switches, if_pos hyes]
      refine ⟨List.isChain_cons_cons.mpr ⟨hcur, hc⟩, ?_⟩
      intro p hp
      rcases List.mem_cons.mp hp with rfl | hp
      · rw [hcur]
        exact Cyclic.next_mem 0 _ hne
      · exact hm p hp

/-- Each switch goes to the process behind the current one, whose registers it saves, and as many
switches as there are processes go to each of them once. -/
theorem roundRobin (h : Built s xs) (hr : s.AllReady xs) (ts : List (Nat × Registers)) :
    (∀ pre t post, ts = pre ++ t :: post →
      ((s.runTicks pre).tick t.1 t.2).schedTriggered = true →
      ((s.runTicks pre).tick t.1 t.2).currentPcb =
        Cyclic.next 0 xs (s.runTicks pre).currentPcb ∧
      ((s.runTicks pre).currentPcb ≠ 0 →
        HoldsFrame (((s.runTicks pre).tick t.1 t.2).pcb (s.runTicks pre).currentPcb).cpuContext
          t.2)) ∧
    xs.Nodup ∧ ∀ k, k + xs.length ≤ (s.switches ts).length →
      (((s.switches ts).drop k).take xs.length).Perm xs := by
  have ht := h.threaded
  refine ⟨?_, ht.nodup, ?_⟩
  · intro pre t post _ htrig
    obtain ⟨ht', hr'⟩ := ht.runTicks hr pre
    rcases ht'.tick_ready hr' t.1 t.2 with ⟨hno, _⟩ | ⟨_, _, hcur, hctx⟩
    · rw [hno] at htrig
      cases htrig
    · exact ⟨hcur, hctx⟩
  · intro k hk
    obtain ⟨hc, hm⟩ := ht.switches_chain hr ts
    have hc : (s.switches ts).IsChain _ := hc.tail
    apply Cyclic.perm_of_isChain 0 ht.nodup ((hc.drop k).take xs.length)
    · intro p hp
      exact hm p (List.mem_of_mem_drop (List.mem_of_mem_take (List.mem_of_mem_head? hp)))
    · rw [List.length_take, List.length_drop]
      omega

/-- Two processes that have just been made ready. -/
def twoProcesses : Sched :=
  let pcb := { Pcb.cleared with state := .waiting, cpuContext := initialContext, listNode := 0 }
  let s : Sched :=
    { pcb := fun _ => pcb, node := fun _ => ⟨0, 0⟩, pcbList := 0, currentPcb := 0, pitTimeMs := 0
      lastContextSwitchTime := 0, pcbToRun := 0, skipped := false, schedTriggered := false
      runNextProc := 0x810400 }
  let s := s.allocProc 0x2000060 0x2000220 { Pcb.cleared with pid := 2 }
  let s := s.allocProc 0x2000260 0x2000420 { Pcb.cleared with pid := 3 }
  (s.setState 0x2000060 .ready).setState 0x2000260 .ready

theorem twoProcesses_built : Built twoProcesses [0x2000260, 0x2000060] := by
  apply Built.setState
  apply Built.setState
  apply Built.allocProc
  · apply Built.allocProc (Built.boot rfl rfl)
    · decide
    · decide
  · decide
  · decide

/-- A frame from user mode. -/
def userFrame : Registers :=
  { cr2 := 0, r15 := 15, r14 := 14, r13 := 13, r12 := 12, rbp := 0x3fff000, rbx := 3, r11 := 11
    r10 := 10, r9 := 9, r8 := 8, rax := 1, rcx := 2, rdx := 4, rsi := 5, rdi := 6, irqNumber := 0
    errorCode := 0, rip := 0x4000123, cs := 0x1b, eflags := 0x202, rsp := 0x3ffefe8, ss := 0x23 }

/-- Three timer interrupts switch three times. -/
theorem roundRobin_twoProcesses :
    twoProcesses.switches [(60, userFrame), (120, userFrame), (180, userFrame)] =
      [0x2000260, 0x2000060, 0x2000260] ∧
    (((twoProcesses.switches [(60, userFrame), (120, userFrame), (180, userFrame)]).drop 1).take
      2).Perm [0x2000260, 0x2000060] := by
  have hs : twoProcesses.switches [(60, userFrame), (120, userFrame), (180, userFrame)] =
      [0x2000260, 0x2000060, 0x2000260] := by decide
  refine ⟨hs, ?_⟩
  apply (roundRobin twoProcesses_built (by decide) _).2.2 1
  rw [hs]
  decide

end Sched

end BiosKernel
