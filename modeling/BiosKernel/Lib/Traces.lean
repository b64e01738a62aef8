import Mathlib.Tactic.Common

namespace Traces
set_option autoImplicit true

/-- A run of a transition system with the labels of its steps. -/
inductive Trace (Step : σ → ε → σ → Prop) : σ → List ε → σ → Prop where
  | nil : Trace Step x [] x
  | cons (h : Step x e y) (ht : Trace Step y es z) : Trace Step x (e :: es) z

variable {Step : σ → ε → σ → Prop} {P : σ → Prop} {Q R : ε → Prop}

/-- Where an invariant decides which of the labels in `Q` the next step can have, a run with labels
in `Q` keeps it and has no others. -/
theorem Trace.labels (hstep : ∀ x e y, Step x e y → Q e → P x → P y ∧ R e)
    (h : Trace Step x es y) (hq : ∀ e ∈ es, Q e) (hx : P x) : P y ∧ ∀ e ∈ es, R e := by
  induction h with
  | nil => exact ⟨hx, fun e he => absurd he List.not_mem_nil⟩
  | cons h _ ih =>
    obtain ⟨hy, hr⟩ := hstep _ _ _ h (hq _ List.mem_cons_self) hx
    obtain ⟨hz, hrs⟩ := ih (fun e he => hq e (List.mem_cons_of_mem _ he)) hy
    exact ⟨hz, List.forall_mem_cons.mpr ⟨hr, hrs⟩⟩

theorem Trace.keeps (hstep : ∀ x e y, Step x e y → Q e → P x → P y) (h : Trace Step x es y)
    (hq : ∀ e ∈ es, Q e) (hx : P x) : P y :=
  (h.labels (R := fun _ => True) (fun x e y hs he hx => ⟨hstep x e y hs he hx, trivial⟩) hq hx).1

end Traces
