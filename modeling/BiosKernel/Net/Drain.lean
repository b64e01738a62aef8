import BiosKernel.Net.RingPosition

namespace BiosKernel
open ByteMem Runs RingBuffer
set_option autoImplicit true

namespace Rtl8139

/-- A handler run that saw every frame has passed all of them on, each once and in their order. -/
def Drained (s : Rtl8139) : Prop :=
  s.phase = .idle → s.quiet = true → s.passed = s.arrived.map payload

/-- The frames fit into the ring, in their length and beside those that are there already. -/
def NoOverflow (s : Rtl8139) : NetOp → Prop
  | .arrive f => ValidLength f ∧ s.Fits f
  | .sent => True
  | .handler => True

instance (s : Rtl8139) : (op : NetOp) → Decidable (s.NoOverflow op)
  | .arrive f => inferInstanceAs (Decidable (ValidLength f ∧ s.Fits f))
  | .sent => inferInstanceAs (Decidable True)
  | .handler => inferInstanceAs (Decidable True)

/-- Where the handler reads the status register, there is at most one frame to pass on, and the
register tells of it. -/
def OnePending (s : Rtl8139) : NetOp → Prop
  | .arrive f => ValidLength f
  | .sent => True
  | .handler => s.phase = .idle → s.arrived.length ≤ s.passed.length + 1 ∧
      (s.passed.length < s.arrived.length → s.isr &&& rok ≠ 0)

instance (s : Rtl8139) : (op : NetOp) → Decidable (s.OnePending op)
  | .arrive f => inferInstanceAs (Decidable (ValidLength f))
  | .sent => inferInstanceAs (Decidable True)
  | .handler => inferInstanceAs (Decidable (s.phase = .idle → _ ∧ (_ → _)))

/-- What the status bits promise: so many frames at least have not been passed on yet. -/
def Promise (s : Rtl8139) (n : Nat) : Prop :=
  (s.isr &&& rok ≠ 0 → 1 ≤ n) ∧
  match s.phase with
  | .statusRead status => status &&& rok ≠ 0 → 1 ≤ n
  | .acknowledged status => status &&& rok ≠ 0 → 1 ≤ n ∧ (s.isr &&& rok ≠ 0 → 2 ≤ n)
  | _ => True

/-- What is left to do for a handler run that no frame has disturbed. -/
def Undisturbed (s : Rtl8139) (n : Nat) : Prop :=
  match s.phase with
  | .statusRead status => n ≤ 1 ∧ (n = 1 → status &&& rok ≠ 0)
  | .acknowledged status => n ≤ 1 ∧ (n = 1 → status &&& rok ≠ 0)
  | _ => n = 0

structure Draining (s : Rtl8139) (old cur new : List Frame) : Prop
    extends s.Synced old cur new where
  promise : s.Promise new.length
  undisturbed : s.quiet = true → s.Undisturbed new.length

variable {s s' : Rtl8139} {old cur new : List Frame}

theorem draining_reset (buf : Mem) : (reset buf).Draining [] [] [] where
  toSynced := synced_reset buf
  promise := ⟨fun h => absurd (Nat.zero_and rok) h, trivial⟩
  undisturbed h := nomatch h

theorem Promise.succ (h : s.Promise n) (hp : s'.phase = s.phase) : s'.Promise (n + 1) := by
  refine ⟨fun _ => Nat.le_add_left 1 n, ?_⟩
  rw [hp]
  obtain ⟨_, h⟩ := h
  split at h
  · exact fun _ => Nat.le_add_left 1 n
  · exact fun hst => ⟨Nat.le_add_left 1 n, fun _ => Nat.succ_le_succ (h hst).1⟩
  · trivial

theorem Draining.arrive (h : s.Draining old cur new) (hv : ValidLength f) :
    ∃ new', (s.arrive f).Draining old cur new' := by
  by_cases hf : s.Fits f
  · refine ⟨new ++ [f], h.toSynced.arrive_fits hv hf, ?_, ?_⟩
    · rw [List.length_append, Rtl8139.arrive, if_pos hf]
      exact h.promise.succ rfl
    · rw [Rtl8139.arrive, if_pos hf]
      intro hq
      cases hq
  · rw [Rtl8139.arrive, if_neg hf]
    exact ⟨new, h⟩

theorem Draining.sent (h : s.Draining old cur new) :
    Draining { s with isr := s.isr ||| tok } old cur new := by
  have hrok : (s.isr ||| tok) &&& rok = s.isr &&& rok := by
    rw [Nat.and_or_distrib_right]
    exact Nat.or_zero _
  have hpr := h.promise
  rw [Promise, ← hrok] at hpr
  exact ⟨⟨h.arrived, h.lengths, h.cbr, h.rxOffset, h.capr, h.room, h.stored, h.passed,
    h.receiveCnt, h.phase⟩, hpr, h.undisturbed⟩

theorem rok_cleared (isr : Nat) : isr &&& (2 ^ 16 - 1 - (tok + rok)) &&& rok = 0 := by
  rw [Nat.and_assoc]
  exact Nat.and_zero isr

theorem Synced.length_arrived (h : s.Synced old cur new) :
    s.arrived.length = s.passed.length + new.length := by
  rw [h.arrived, h.passed, List.length_append, List.length_map]

theorem Draining.handlerStep_idle (h : s.Draining old cur new) (hok : s.OnePending .handler)
    (hp : s.phase = .idle) : s.handlerStep.Draining old cur new := by
  cases h.cur_eq_nil (by rw [hp]; exact fun _ => HandlerPhase.noConfusion)
  obtain ⟨hone, htold⟩ := hok hp
  have hlen := h.length_arrived
  rw [handlerStep, hp]
  refine ⟨h.congr s.isr _ true fun _ => HandlerPhase.noConfusion, ⟨h.promise.1, h.promise.1⟩, ?_⟩
  exact fun _ => ⟨by omega, fun _ => htold (by omega)⟩

theorem Draining.handlerStep_statusRead (h : s.Draining old cur new)
    (hp : s.phase = .statusRead status) : s.handlerStep.Draining old cur new := by
  cases h.cur_eq_nil (by rw [hp]; exact fun _ => HandlerPhase.noConfusion)
  have hpr := h.promise.2
  have hun := h.undisturbed
  rw [Undisturbed] at hun
  rw [hp] at hpr hun
  rw [handlerStep, hp]
  refine ⟨h.congr _ (.acknowledged status) s.quiet fun _ => HandlerPhase.noConfusion, ⟨?_, ?_⟩, hun⟩
  · exact fun hr => absurd (rok_cleared _) hr
  · exact fun hr => ⟨hpr hr, fun hr' => absurd (rok_cleared _) hr'⟩

theorem Draining.handlerStep_acknowledged (h : s.Draining old cur new)
    (hp : s.phase = .acknowledged status) :
    ∃ old' cur' new', s.handlerStep.Draining old' cur' new' := by
  cases h.cur_eq_nil (by rw [hp]; exact fun _ => HandlerPhase.noConfusion)
  have hpr := h.promise.2
  have hun := h.undisturbed
  rw [Undisturbed] at hun
  rw [hp] at hpr hun
  by_cases hr : status &&& rok = 0
  · have hstep : s.handlerStep = { s with phase := .idle } := by
      rw [handlerStep, hp]
      exact if_neg (not_not_intro hr)
    rw [hstep]
    refine ⟨old, [], new, h.congr s.isr .idle s.quiet fun _ => HandlerPhase.noConfusion,
      ⟨h.promise.1, trivial⟩, ?_⟩
    intro hq
    obtain ⟨hone, htold⟩ := hun hq
    show new.length = 0
    by_contra hne
    exact htold (by omega) hr
  · have hstep : s.handlerStep = s.callReceivePacket := by
      rw [handlerStep, hp]
      exact if_pos hr
    cases new with
    | nil => exact absurd (hpr hr).1 (Nat.not_succ_le_zero 0)
    | cons f new =>
      obtain ⟨hlen, hlt⟩ := h.packetLen_eq
      rw [hstep]
      refine ⟨old, [f], new, h.callReceivePacket, ?_, ?_⟩
      · rw [callReceivePacket_eq hlen hlt]
        exact ⟨fun hi => Nat.le_of_succ_le_succ ((hpr hr).2 hi), trivial⟩
      · rw [callReceivePacket_eq hlen hlt]
        exact fun hq => Nat.le_zero.mp (Nat.le_of_succ_le_succ (hun hq).1)

theorem Draining.handlerStep_handled (h : s.Draining old cur new) (hp : s.phase = .handled len) :
    s.handlerStep.Draining (old ++ cur) [] new := by
  have hun := h.undisturbed
  rw [Undisturbed, hp] at hun
  have hstep : s.handlerStep = s.advance len := by
    rw [handlerStep, hp]
  rw [hstep]
  refine ⟨h.toSynced.advance hp, ?_, ?_⟩
  · rw [advance]
    exact ⟨h.promise.1, trivial⟩
  · rw [advance]
    exact hun

theorem Draining.handlerStep (h : s.Draining old cur new) (hok : s.OnePending .handler) :
    ∃ old' cur' new', s.handlerStep.Draining old' cur' new' := by
  match hp : s.phase with
  | .idle => exact ⟨_, _, _, h.handlerStep_idle hok hp⟩
  | .statusRead status => exact ⟨_, _, _, h.handlerStep_statusRead hp⟩
  | .acknowledged status => exact h.handlerStep_acknowledged hp
  | .handled len => exact ⟨_, _, _, h.handlerStep_handled hp⟩

theorem Draining.step (h : s.Draining old cur new) (hok : s.OnePending op) :
    ∃ s', s.step op = some s' ∧ ∃ old' cur' new', s'.Draining old' cur' new' := by
  cases op with
  | arrive f => exact ⟨_, rfl, old, cur, h.arrive hok⟩
  | sent => exact ⟨_, rfl, old, cur, new, h.sent⟩
  | handler => exact ⟨_, rfl, h.handlerStep hok⟩

theorem Draining.drained (h : s.Draining old cur new) : s.Drained := by
  intro hp hq
  cases h.cur_eq_nil (by rw [hp]; exact fun _ => HandlerPhase.noConfusion)
  have hun := h.undisturbed hq
  rw [Undisturbed, hp] at hun
  rw [h.passed, h.arrived, List.eq_nil_of_length_eq_zero hun, List.append_nil,
    List.append_nil]

/-- No frame is left behind in any run in which the handler finds at most one frame, with `ROK`. -/
theorem always_drained (buf : Mem) (ops : List NetOp)
    (hok : Meets Rtl8139.step OnePending (reset buf) ops) :
    Always Rtl8139.step Drained (reset buf) ops :=
  always_of_meets (I := fun s => ∃ old cur new, Draining s old cur new)
    (fun _ _ ⟨_, _, _, h⟩ hop => h.step hop) (fun _ ⟨_, _, _, h⟩ => h.drained)
    ⟨[], [], [], draining_reset buf⟩ hok

def oneFrame : List NetOp :=
  [.arrive (List.replicate 64 7), .handler, .handler, .handler, .handler]

theorem always_drained_oneFrame : Meets Rtl8139.step OnePending (reset fun _ => 0) oneFrame ∧
    Always Rtl8139.step Drained (reset fun _ => 0) oneFrame := by
  have hok : Meets Rtl8139.step OnePending (reset fun _ => 0) oneFrame := by decide +kernel
  exact ⟨hok, always_drained _ oneFrame hok⟩

/-- Two frames come before the handler runs, and the single `ROK` bit stands for both. -/
def twoArrivals : List NetOp :=
  [.arrive (List.replicate 64 7), .arrive (List.replicate 64 9), .handler, .handler, .handler,
    .handler]

/-- The second frame stays in the ring. -/
theorem second_frame_left : Meets Rtl8139.step NoOverflow (reset fun _ => 0) twoArrivals ∧
    ¬ Always Rtl8139.step Drained (reset fun _ => 0) twoArrivals := by
  refine ⟨by decide +kernel, ?_⟩
  intro halways
  obtain ⟨s, hrun, hdrained⟩ := halways.last
  have hend : (run Rtl8139.step (reset fun _ => 0) twoArrivals).map
      (fun s => (s.phase, s.quiet, s.passed.length, s.arrived.length)) =
        some (.idle, true, 1, 2) := by decide +kernel
  rw [hrun] at hend
  obtain ⟨hphase, hquiet, hpassed, harrived⟩ : s.phase = .idle ∧ s.quiet = true ∧
      s.passed.length = 1 ∧ s.arrived.length = 2 := by simpa using hend
  have hlen := congrArg List.length (hdrained hphase hquiet)
  rw [List.length_map, hpassed, harrived] at hlen
  cases hlen

end Rtl8139

end BiosKernel
