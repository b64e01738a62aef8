import Mathlib.Data.Nat.Basic

namespace Checked
set_option autoImplicit true

/-- Why a computation has no result. -/
inductive Fault where
  | divideError
  | endless
  deriving DecidableEq

abbrev Result := Except Fault

def div (a b : Nat) : Result Nat := if b = 0 then .error .divideError else .ok (a / b)

def mod (a b : Nat) : Result Nat := if b = 0 then .error .divideError else .ok (a % b)

theorem div_of_ne (a : Nat) (h : b ≠ 0) : div a b = .ok (a / b) := if_neg h

theorem mod_of_ne (a : Nat) (h : b ≠ 0) : mod a b = .ok (a % b) := if_neg h

/-- A fault in any monad that has them. -/
def raise [MonadLiftT Result m] (e : Fault) : m α := liftM (.error e : Result α)

@[simp] theorem liftM_self (r : Result α) : (liftM r : Result α) = r := rfl

@[simp] theorem ok_bind (a : α) (f : α → Except ε β) : ((.ok a : Except ε α) >>= f) = f a := rfl

/-- No division by zero is met. -/
def Safe (x : Result α) : Prop := x ≠ .error .divideError

theorem safe_ok (a : α) : Safe (.ok a : Result α) := nofun

theorem safe_endless : Safe (.error .endless : Result α) := nofun

theorem Safe.bind {x : Result α} {f : α → Result β} (hx : Safe x)
    (hf : ∀ a, x = .ok a → Safe (f a)) : Safe (x >>= f) := by
  cases x with
  | ok a => exact hf a rfl
  | error e =>
    cases e with
    | divideError => exact absurd rfl hx
    | endless => exact nofun

theorem of_toOption_eq_some {x : Except ε α} (h : x.toOption = some a) : x = .ok a := by
  cases x with
  | ok b => exact congrArg Except.ok (Option.some.inj h)
  | error e => cases h

theorem of_bind_eq_ok {x : Except ε α} {f : α → Except ε β} (h : (x >>= f) = .ok b) :
    ∃ a, x = .ok a ∧ f a = .ok b := by
  cases x with
  | ok a => exact ⟨a, rfl, h⟩
  | error e => cases h

theorem of_map_eq_ok {x : Except ε α} {f : α → β} (h : f <$> x = .ok b) :
    ∃ a, x = .ok a ∧ f a = b := by
  cases x with
  | ok a => exact ⟨a, rfl, Except.ok.inj h⟩
  | error e => cases h

theorem of_mapError_eq_ok {x : Except ε α} {f : ε → δ} (h : x.mapError f = .ok a) : x = .ok a := by
  cases x with
  | ok b =>
    cases h
    rfl
  | error e => cases h

end Checked
