import Mathlib.Tactic.Common

namespace DoubleRead
set_option autoImplicit true

/-- What an access finds: the contents of a device, or that it is about to change them. -/
structure Sample (α : Type) where
  value : α
  busy : Bool

variable {α β : Type}

/-- Wait until the device is not busy. The first number bounds the accesses, and the second counts
them. -/
def await (s : Nat → Sample α) : Nat → Nat → Option Nat
  | 0, _ => none
  | wait + 1, t => if (s t).busy then await s wait (t + 1) else some (t + 1)

/-- One register after the other. -/
def collect (s : Nat → Sample α) : List (α → β) → Nat → List β
  | [], _ => []
  | g :: gs, t => g (s t).value :: collect s gs (t + 1)

/-- Read the registers again until they are as they were. -/
def again [DecidableEq β] (s : Nat → Sample α) (gs : List (α → β)) (wait : Nat) :
    Nat → List β → Nat → Option (List β × Nat)
  | 0, _, _ => none
  | n + 1, last, t =>
    (await s wait t).bind fun t =>
      let v := collect s gs t
      if v = last then some (v, t + gs.length) else again s gs wait n v (t + gs.length)

def read [DecidableEq β] (s : Nat → Sample α) (gs : List (α → β)) (wait n t : Nat) :
    Option (List β × Nat) :=
  (await s wait t).bind fun t => again s gs wait n (collect s gs t) (t + gs.length)

/-- An access finds the registers as they are in some contents of the device. What it would find
elsewhere does not matter. -/
def Shows (s : Nat → Sample α) (gs : List (α → β)) (k : Nat) (a : α) : Prop :=
  (s k).busy = false ∧ ∀ g ∈ gs, g (s k).value = g a

/-- From the access `lo` on and before `hi` the device changes its registers once at most, and is
busy for at most `len` accesses while it does. Meanwhile a register may read as anything. -/
structure Once (s : Nat → Sample α) (gs : List (α → β)) (lo hi len : Nat) where
  before : α
  after : α
  start : Nat
  stop : Nat
  start_le : start ≤ stop
  stop_le : stop ≤ start + len
  shows_before : ∀ k, lo ≤ k → k < start → k < hi → Shows s gs k before
  busy : ∀ k, lo ≤ k → start ≤ k → k < stop → k < hi → (s k).busy = true
  shows_after : ∀ k, lo ≤ k → stop ≤ k → k < hi → Shows s gs k after

/-- The registers as they were at one access from `lo` on and before `hi`. -/
def Shown (s : Nat → Sample α) (gs : List (α → β)) (lo hi : Nat) (v : List β) : Prop :=
  ∃ k, lo ≤ k ∧ k < hi ∧ (s k).busy = false ∧ v = gs.map fun g => g (s k).value

theorem collect_eq {s : Nat → Sample α} {gs : List (α → β)} {a : α}
    (h : ∀ k, t ≤ k → k < t + gs.length → ∀ g ∈ gs, g (s k).value = g a) :
    collect s gs t = gs.map fun g => g a := by
  induction gs generalizing t with
  | nil => rfl
  | cons g gs ih =>
    rw [List.length_cons] at h
    rw [collect, List.map_cons, h t (Nat.le_refl _) (by omega) g List.mem_cons_self]
    congr 1
    apply ih
    intro k hk hk' g' hg'
    exact h k (by omega) (by omega) g' (List.mem_cons_of_mem _ hg')

theorem Shows.shown {s : Nat → Sample α} {gs : List (α → β)} (h : Shows s gs k a) (hlo : lo ≤ k)
    (hhi : k < hi) : Shown s gs lo hi (gs.map fun g => g a) :=
  ⟨k, hlo, hhi, h.1, List.map_congr_left fun g hg => (h.2 g hg).symm⟩

theorem await_of_idle {s : Nat → Sample α} (h : (s t).busy = false) :
    await s (wait + 1) t = some (t + 1) := by
  rw [await, h, if_neg Bool.false_ne_true]

theorem await_of_busy {s : Nat → Sample α} (hb : ∀ k, t ≤ k → k < u → (s k).busy = true)
    (hu : (s u).busy = false) (htu : t ≤ u) (hw : u < t + wait) :
    await s wait t = some (u + 1) := by
  induction wait generalizing t with
  | zero => omega
  | succ wait ih =>
    by_cases he : t = u
    · subst he
      exact await_of_idle hu
    · rw [await, hb t (Nat.le_refl _) (by omega), if_pos rfl]
      apply ih
      · intro k hk hk'
        exact hb k (by omega) hk'
      · omega
      · omega

section Once

variable {s : Nat → Sample α} {gs : List (α → β)} (h : Once s gs lo hi len)

theorem await_once (hlo : lo ≤ t) (hhi : t + len + 1 ≤ hi) (hw : len < wait) :
    (t < h.start ∧ await s wait t = some (t + 1)) ∨
    ∃ u, h.stop ≤ u ∧ t ≤ u ∧ u ≤ t + len ∧ await s wait t = some (u + 1) := by
  have hse := h.start_le
  have hlen := h.stop_le
  obtain ⟨wait, rfl⟩ : ∃ w, wait = w + 1 := ⟨wait - 1, by omega⟩
  by_cases h1 : t < h.start
  · exact .inl ⟨h1, await_of_idle (h.shows_before t hlo h1 (by omega)).1⟩
  · right
    by_cases h2 : h.stop ≤ t
    · exact ⟨t, h2, Nat.le_refl _, by omega,
        await_of_idle (h.shows_after t hlo h2 (by omega)).1⟩
    · refine ⟨h.stop, Nat.le_refl _, by omega, by omega, await_of_busy ?_ ?_ (by omega) (by omega)⟩
      · intro k hk hk'
        exact h.busy k (by omega) (by omega) hk' (by omega)
      · exact (h.shows_after h.stop (by omega) (Nat.le_refl _) (by omega)).1

theorem Once.collect_after (hlo : lo ≤ t) (ht : h.stop ≤ t) (hhi : t + gs.length ≤ hi) :
    collect s gs t = gs.map fun g => g h.after :=
  collect_eq fun k hk hk' => (h.shows_after k (by omega) (by omega) (by omega)).2

theorem Once.collect_before (hlo : lo ≤ t) (ht : t + gs.length ≤ h.start)
    (hhi : t + gs.length ≤ hi) : collect s gs t = gs.map fun g => g h.before :=
  collect_eq fun k hk hk' => (h.shows_before k (by omega) (by omega) (by omega)).2

/-- The result of a read that returns before `hi`, with registers that the device showed. -/
def Returns (s : Nat → Sample α) (gs : List (α → β)) (lo hi : Nat) (r : Option (List β × Nat)) :
    Prop :=
  ∃ v e, r = some (v, e) ∧ e ≤ hi ∧ Shown s gs lo e v

variable [DecidableEq β]

theorem Once.again_after (hlo : lo ≤ t) (ht : h.stop ≤ t) (hhi : t + (len + 1 + gs.length) ≤ hi)
    (hw : len < wait) :
    Returns s gs lo hi (again s gs wait (n + 1) (gs.map fun g => g h.after) t) := by
  have hse := h.start_le
  obtain ⟨h1, -⟩ | ⟨u, hu, htu, hul, he⟩ := await_once h hlo (by omega) hw
  · omega
  · rw [again, he, Option.bind_some]
    dsimp only
    rw [h.collect_after (by omega) (by omega) (by omega), if_pos rfl]
    exact ⟨_, _, rfl, by omega, (h.shows_after u (by omega) hu (by omega)).shown (by omega)
      (by omega)⟩

theorem Once.again_started (hlo : lo ≤ t) (ht : h.start ≤ t)
    (hhi : t + 2 * (len + 1 + gs.length) ≤ hi) (hw : len < wait) (last : List β) :
    Returns s gs lo hi (again s gs wait (n + 2) last t) := by
  obtain ⟨h1, -⟩ | ⟨u, hu, htu, hul, he⟩ := await_once h hlo (by omega) hw
  · omega
  · rw [again, he, Option.bind_some]
    dsimp only
    rw [h.collect_after (by omega) (by omega) (by omega)]
    split
    · exact ⟨_, _, rfl, by omega, (h.shows_after u (by omega) hu (by omega)).shown (by omega)
        (by omega)⟩
    · exact h.again_after (by omega) (by omega) (by omega) hw

theorem Once.again_before (hlo : lo ≤ t) (hhi : t + 3 * (len + 1 + gs.length) ≤ hi)
    (hw : len < wait) :
    Returns s gs lo hi (again s gs wait (n + 3) (gs.map fun g => g h.before) t) := by
  obtain ⟨h1, he⟩ | ⟨u, hu, htu, hul, he⟩ := await_once h hlo (by omega) hw
  · rw [again, he, Option.bind_some]
    dsimp only
    split
    · next hv =>
      rw [hv]
      exact ⟨_, _, rfl, by omega, (h.shows_before t hlo h1 (by omega)).shown hlo (by omega)⟩
    · next hv =>
      apply h.again_started (by omega) _ (by omega) hw
      by_contra hlt
      exact hv (h.collect_before (by omega) (by omega) (by omega))
  · rw [again, he, Option.bind_some]
    dsimp only
    rw [h.collect_after (by omega) (by omega) (by omega)]
    split
    · exact ⟨_, _, rfl, by omega, (h.shows_after u (by omega) hu (by omega)).shown (by omega)
        (by omega)⟩
    · exact h.again_after (by omega) (by omega) (by omega) hw

/-- If the device changes its contents once at most, the registers are read four times at most, and
the result is what the device showed at one access. -/
theorem Once.read_returns (h : Once s gs lo hi len) (n : Nat) (hlo : lo ≤ t)
    (hhi : t + 4 * (len + 1 + gs.length) ≤ hi) (hw : len < wait) :
    Returns s gs lo hi (read s gs wait (n + 3) t) := by
  obtain ⟨h1, he⟩ | ⟨u, hu, htu, hul, he⟩ := await_once h hlo (by omega) hw
  · rw [read, he, Option.bind_some]
    by_cases h2 : t + 1 + gs.length ≤ h.start
    · rw [h.collect_before (by omega) h2 (by omega)]
      exact h.again_before (by omega) (by omega) hw
    · exact h.again_started (by omega) (by omega) (by omega) hw _
  · rw [read, he, Option.bind_some, h.collect_after (by omega) (by omega) (by omega)]
    exact h.again_after (by omega) (by omega) (by omega) hw

end Once

end DoubleRead
