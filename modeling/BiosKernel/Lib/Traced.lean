import BiosKernel.Lib.Allocator
import Mathlib.Tactic.Common

set_option autoImplicit true

/-- A computation with the events up to its end, whether it has a result or not. -/
structure Traced (E ε α : Type) where
  events : List E
  result : Except ε α

namespace Traced

instance : Monad (Traced E ε) where
  pure a := ⟨[], .ok a⟩
  bind r f :=
    match r.result with
    | .ok a => ⟨r.events ++ (f a).events, (f a).result⟩
    | .error fault => ⟨r.events, .error fault⟩

/-- An allocator whose calls are no events. -/
instance : Allocator (Traced E ε) where
  alloc := pure 0
  release _ := pure ()

def emit (event : E) : Traced E ε Unit := ⟨[event], .ok ()⟩

/-- A computation without events. -/
def silent (r : Except ε α) : Traced E ε α := ⟨[], r⟩

@[simp] theorem pure_result (a : α) : (pure a : Traced E ε α).result = .ok a := rfl

@[simp] theorem emit_result (event : E) : (emit event : Traced E ε Unit).result = .ok () := rfl

@[simp] theorem silent_result (r : Except ε α) : (silent r : Traced E ε α).result = r := rfl

@[simp] theorem bind_result (r : Traced E ε α) (f : α → Traced E ε β) :
    (r >>= f).result = r.result >>= fun a => (f a).result := by
  obtain ⟨events, result⟩ := r
  cases result with
  | ok a => rfl
  | error fault => rfl

@[simp] theorem alloc_events (f : Nat → Traced E ε α) :
    (Allocator.alloc >>= f).events = (f 0).events := rfl

theorem emit_silent_events (event : E) (r : Except ε α) (f : α → Traced E ε β) :
    ((do emit event; silent r : Traced E ε α) >>= f).events =
      event :: match r with
        | .ok a => (f a).events
        | .error _ => [] := by
  cases r with
  | ok a => rfl
  | error e => rfl

section Acceptance

variable {step : S → E → Option S} {halt : ε → Prop}

/-- The automaton takes every event from the state `s` on. With a result it ends as `Q` says, and
without one the fault is of the kind `halt`. -/
def Accepts (step : S → E → Option S) (halt : ε → Prop) (s : S) (r : Traced E ε α)
    (Q : α → S → Prop) : Prop :=
  ∃ s', r.events.foldlM step s = some s' ∧
    match r.result with
    | .ok a => Q a s'
    | .error fault => halt fault

theorem accepts_pure (h : Q a s) : Accepts step halt s (pure a) Q := ⟨s, rfl, h⟩

theorem accepts_emit (h : step s event = some s') (hQ : Q () s') :
    Accepts step halt s (emit event) Q := by
  refine ⟨s', ?_, hQ⟩
  rw [emit, List.foldlM_cons, h]
  rfl

theorem Accepts.bind {f : α → Traced E ε β} (h : Accepts step halt s r Q)
    (hf : ∀ a s', Q a s' → Accepts step halt s' (f a) R) : Accepts step halt s (r >>= f) R := by
  obtain ⟨events, result⟩ := r
  obtain ⟨s', hevents, h⟩ := h
  cases result with
  | error fault => exact ⟨s', hevents, h⟩
  | ok a =>
    obtain ⟨s'', hrest, h⟩ := hf a s' h
    refine ⟨s'', ?_, h⟩
    change (events ++ (f a).events).foldlM step s = some s''
    rw [List.foldlM_append, hevents]
    exact hrest

theorem Accepts.mono (h : Accepts step halt s r Q) (hQ : ∀ a s', Q a s' → R a s') :
    Accepts step halt s r R := by
  obtain ⟨s', hevents, h⟩ := h
  refine ⟨s', hevents, ?_⟩
  cases hr : r.result with
  | ok a =>
    rw [hr] at h
    exact hQ a s' h
  | error fault =>
    rw [hr] at h
    exact h

end Acceptance

end Traced
