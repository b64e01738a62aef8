import BiosKernel.Lib.Allocator
import Mathlib.Data.List.Basic

set_option autoImplicit true

/-- The chunks that an allocator has handed out, numbered in the order of the calls. -/
structure Ledger where
  allocs : Nat
  releases : Nat
  live : List Nat
  fresh : ∀ p ∈ live, p < allocs
  balanced : live.length + releases = allocs

namespace Ledger

/-- Nothing has been handed out. -/
def empty : Ledger := ⟨0, 0, [], fun _ hp => absurd hp List.not_mem_nil, rfl⟩

def alloc (l : Ledger) : Ledger where
  allocs := l.allocs + 1
  releases := l.releases
  live := l.allocs :: l.live
  fresh p hp := by
    rcases List.mem_cons.mp hp with rfl | hp
    · exact Nat.lt_succ_self _
    · exact Nat.lt_succ_of_lt (l.fresh p hp)
  balanced := by
    rw [List.length_cons, Nat.succ_add, l.balanced]

/-- Only the pointer of a live chunk has an effect. -/
def release (l : Ledger) (p : Nat) : Ledger :=
  if hp : p ∈ l.live then
    { allocs := l.allocs
      releases := l.releases + 1
      live := l.live.erase p
      fresh := fun q hq => l.fresh q (List.mem_of_mem_erase hq)
      balanced := by
        have hlen := List.length_erase_of_mem hp
        have hpos := List.length_pos_of_mem hp
        have hbal := l.balanced
        omega }
  else l

/-- The calls of `alloc` between two ledgers, less the calls of `release` that had an effect. -/
def net (l l' : Ledger) : Int := (l'.allocs - l.allocs : Int) - (l'.releases - l.releases)

variable {l l' l'' : Ledger} {p : Nat}

theorem net_eq (l l' : Ledger) : net l l' = (l'.live.length : Int) - l.live.length := by
  have h := l.balanced
  have h' := l'.balanced
  rw [net]
  omega

theorem net_add (l l' l'' : Ledger) : net l l' + net l' l'' = net l l'' := by
  rw [net, net, net]
  omega

theorem net_self (l : Ledger) : net l l = 0 := by
  rw [net]
  omega

theorem net_alloc (l : Ledger) : net l l.alloc = 1 := by
  rw [net_eq, alloc, List.length_cons]
  omega

theorem release_live (l : Ledger) (p : Nat) : (l.release p).live = l.live.erase p := by
  rw [release]
  split
  · rfl
  · next hp => exact (List.erase_of_not_mem hp).symm

theorem release_of_not_mem (hp : p ∉ l.live) : l.release p = l := dif_neg hp

theorem net_release_ge (l : Ledger) (p : Nat) : -1 ≤ net l (l.release p) := by
  have h := List.le_length_erase (a := p) (l := l.live)
  rw [net_eq, release_live]
  omega

theorem net_release_of_mem (hp : p ∈ l.live) : net l (l.release p) = -1 := by
  have h := List.length_erase_of_mem hp
  have hpos := List.length_pos_of_mem hp
  rw [net_eq, release_live]
  omega

theorem alloc_release_live (l : Ledger) : (l.alloc.release l.allocs).live = l.live := by
  rw [release_live, alloc, List.erase_cons_head]

theorem alloc_release_release (l : Ledger) :
    (l.alloc.release l.allocs).release l.allocs = l.alloc.release l.allocs := by
  refine release_of_not_mem ?_
  rw [alloc_release_live]
  exact fun hp => Nat.lt_irrefl _ (l.fresh _ hp)

end Ledger

/-- A computation that may fail and that keeps a ledger. -/
abbrev Accounted := StateT Ledger Checked.Result

namespace Accounted
open Allocator Checked

variable {α β : Type}

/-- The number of the new chunk stands for its pointer. -/
instance : Allocator Accounted where
  alloc l := .ok (l.allocs, l.alloc)
  release p l := .ok ((), l.release p)

/-- The results are those of a computation without a ledger. -/
def Erases (x : Accounted α) (r : Result α) : Prop := ∀ l, Prod.fst <$> x l = r

theorem Erases.pure (a : α) : Erases (Pure.pure a : Accounted α) (.ok a) := fun _ => rfl

theorem Erases.lift (r : Result α) : Erases (liftM r : Accounted α) r := by
  intro l
  cases r with
  | error e => rfl
  | ok a => rfl

theorem Erases.bind {x : Accounted α} {f : α → Accounted β} {g : α → Result β}
    (hx : Erases x r) (hf : ∀ a, Erases (f a) (g a)) : Erases (x >>= f) (r >>= g) := by
  intro l
  have hr := hx l
  subst hr
  show Prod.fst <$> (x l >>= fun p => f p.1 p.2) = _
  cases x l with
  | error e => rfl
  | ok p => exact hf p.1 p.2

/-- Which pointer it is makes no difference to the result. -/
theorem Erases.alloc_bind {f : Nat → Accounted α} {g : Nat → Result α}
    (hf : ∀ p q, Erases (f p) (g q)) : Erases (alloc >>= f) (alloc >>= g) :=
  fun l => hf l.allocs 0 l.alloc

theorem Erases.release (p q : Nat) :
    Erases (release p : Accounted Unit) (release q : Result Unit) := fun _ => rfl

theorem Erases.ite {c : Prop} [Decidable c] {x y : Accounted α} (hx : c → Erases x r)
    (hy : ¬ c → Erases y s) : Erases (if c then x else y) (if c then r else s) := by
  split
  · next hc => exact hx hc
  · next hc => exact hy hc

/-- Whenever it returns, its value and the net number of its chunks satisfy `Q`. -/
def Always (x : Accounted α) (Q : α → Int → Prop) : Prop :=
  ∀ l a l', x l = .ok (a, l') → Q a (l.net l')

theorem Always.mono {x : Accounted α} (hx : Always x P) (h : ∀ a n, P a n → Q a n) :
    Always x Q := fun l a l' hrun => h a _ (hx l a l' hrun)

theorem Always.bind {x : Accounted α} {f : α → Accounted β} {Q : β → Int → Prop}
    (hx : Always x fun a n => Always (f a) fun b m => Q b (n + m)) : Always (x >>= f) Q := by
  intro l b l'' hrun
  obtain ⟨⟨a, l'⟩, hfirst, hrest⟩ := of_bind_eq_ok (x := x l) hrun
  have h : Q b (l.net l' + l'.net l'') := hx l a l' hfirst l' b l'' hrest
  rwa [Ledger.net_add] at h

/-- At least `k` chunks more are live whenever it returns. -/
def Gains (k : Int) (x : Accounted α) : Prop := Always x fun _ n => k ≤ n

theorem Gains.mono {x : Accounted α} (hx : Gains k x) (h : j ≤ k) : Gains j x :=
  Always.mono hx fun _ _ hn => Int.le_trans h hn

theorem Gains.bind {x : Accounted α} {f : α → Accounted β} (hx : Gains j x)
    (hf : ∀ a, Gains k (f a)) : Gains (j + k) (x >>= f) := by
  refine Always.bind (Always.mono hx fun a n hn => ?_)
  exact Always.mono (hf a) fun _ m hm => Int.add_le_add hn hm

theorem Gains.before {x : Accounted α} {f : α → Accounted β} (hx : Gains 0 x)
    (hf : ∀ a, Gains k (f a)) : Gains k (x >>= f) :=
  (hx.bind hf).mono (Int.le_of_eq (Int.zero_add k).symm)

theorem Gains.andThen {x : Accounted α} {f : α → Accounted β} (hx : Gains k x)
    (hf : ∀ a, Gains 0 (f a)) : Gains k (x >>= f) :=
  (hx.bind hf).mono (Int.le_of_eq (Int.add_zero k).symm)

theorem Gains.pure (a : α) : Gains 0 (Pure.pure a : Accounted α) := by
  rintro l _ _ ⟨⟩
  exact Int.le_of_eq l.net_self.symm

theorem Gains.error (e : Fault) : Gains k (liftM (.error e : Result α) : Accounted α) := by
  intro l a l' hrun
  cases (show (.error e : Result (α × Ledger)) = .ok (a, l') from hrun)

theorem Gains.lift (r : Result α) : Gains 0 (liftM r : Accounted α) := by
  cases r with
  | error e => exact Gains.error e
  | ok a => exact Gains.pure a

theorem Gains.alloc : Gains 1 (alloc : Accounted Nat) := by
  rintro l _ _ ⟨⟩
  exact Int.le_of_eq l.net_alloc.symm

theorem Gains.release (p : Nat) : Gains (-1) (release p : Accounted Unit) := by
  rintro l _ _ ⟨⟩
  exact l.net_release_ge p

theorem Gains.ite {c : Prop} [Decidable c] {x y : Accounted α} (hx : c → Gains k x)
    (hy : ¬ c → Gains k y) : Gains k (if c then x else y) := by
  split
  · next hc => exact hx hc
  · next hc => exact hy hc

end Accounted
