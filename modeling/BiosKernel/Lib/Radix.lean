import Mathlib.Data.List.Basic
import Mathlib.Logic.Function.Basic

namespace Radix
set_option autoImplicit true

variable {N I E : Type} {next : E → Option N} {mem : N → I → E} {root : N} {P : List I → Prop}

/-- The node that a path of indices leads to. The last index stands first. -/
def follow (next : E → Option N) (mem : N → I → E) (root : N) : List I → Option N
  | [] => some root
  | i :: p => (follow next mem root p).bind fun n => next (mem n i)

/-- No node is reached by two of the paths `P`. -/
def Separated (next : E → Option N) (mem : N → I → E) (root : N) (P : List I → Prop) : Prop :=
  ∀ p q n, P p → P q → follow next mem root p = some n → follow next mem root q = some n → p = q

def Reached (next : E → Option N) (mem : N → I → E) (root : N) (P : List I → Prop) (n : N) : Prop :=
  ∃ p, P p ∧ follow next mem root p = some n

/-- A list of paths and their nodes that is closed under the steps to further nodes has all of
them. -/
theorem mem_of_follow {nodes : List (List I × N)} (hP : ∀ i p, P (i :: p) → P p)
    (hroot : ([], root) ∈ nodes)
    (hstep : ∀ p n i n', (p, n) ∈ nodes → P (i :: p) → next (mem n i) = some n' →
      (i :: p, n') ∈ nodes) (hp : P p) (hn : follow next mem root p = some n) :
    (p, n) ∈ nodes := by
  induction p generalizing n with
  | nil =>
    cases hn
    exact hroot
  | cons i p ih =>
    obtain ⟨m, hm, hn⟩ := Option.bind_eq_some_iff.mp hn
    exact hstep p m i n (ih (hP i p hp) hm) hp hn

/-- Write one entry of a node. -/
def set [DecidableEq N] [DecidableEq I] (mem : N → I → E) (n : N) (i : I) (e : E) : N → I → E :=
  Function.update mem n (Function.update (mem n) i e)

/-- Write an entry that leads to `f`, and fill `f` with `z`. -/
def graft [DecidableEq N] [DecidableEq I] (mem : N → I → E) (n : N) (i : I) (e : E) (f : N)
    (z : E) : N → I → E := Function.update (set mem n i e) f fun _ => z

variable [DecidableEq N] [DecidableEq I]

@[simp] theorem set_self (mem : N → I → E) (n : N) (i : I) (e : E) : set mem n i e n i = e := by
  rw [set, Function.update_self, Function.update_self]

theorem set_of_ne (mem : N → I → E) (e : E) (h : n' ≠ n ∨ j ≠ i) :
    set mem n i e n' j = mem n' j := by
  by_cases hn : n' = n
  · subst hn
    rw [set, Function.update_self, Function.update_of_ne (h.resolve_left fun hh => hh rfl)]
  · rw [set, Function.update_of_ne hn]

theorem graft_child (mem : N → I → E) (n : N) (i : I) (e : E) (f : N) (z : E) (j : I) :
    graft mem n i e f z f j = z := by
  rw [graft, Function.update_self]

theorem graft_of_ne (mem : N → I → E) (e z : E) (hf : n' ≠ f) (h : n' ≠ n ∨ j ≠ i) :
    graft mem n i e f z n' j = mem n' j := by
  rw [graft, Function.update_of_ne hf, set_of_ne mem e h]

theorem graft_parent (mem : N → I → E) (i : I) (e z : E) (hf : n ≠ f) :
    graft mem n i e f z n i = e := by
  rw [graft, Function.update_of_ne hf, set_self]

theorem Separated.follow_set (h : Separated next mem root P) (hP : ∀ i p, P (i :: p) → P p)
    (hp : P p) (hn : follow next mem root p = some n) (e : E) (hq : P q) (hne : ¬ (i :: p) <:+ q) :
    follow next (set mem n i e) root q = follow next mem root q := by
  induction q with
  | nil => rfl
  | cons j q ih =>
    have hq' := hP j q hq
    rw [follow, follow, ih hq' (fun hs => hne (hs.trans (List.suffix_cons j q)))]
    cases hf : follow next mem root q with
    | none => rfl
    | some n' =>
      rw [Option.bind_some, Option.bind_some, set_of_ne]
      by_cases hn' : n' = n
      · subst hn'
        have hqp := h q p n' hq' hp hf hn
        subst hqp
        right
        rintro rfl
        exact hne (List.suffix_refl _)
      · exact .inl hn'

theorem Separated.follow_graft (h : Separated next mem root P) (hP : ∀ i p, P (i :: p) → P p)
    (hp : P p) (hn : follow next mem root p = some n) (hnone : next (mem n i) = none)
    (he : next e = some f) (hz : next z = none) (hf : ¬ Reached next mem root P f) (hq : P q) :
    follow next (graft mem n i e f z) root q =
      if q = i :: p then some f else follow next mem root q := by
  have hnf : n ≠ f := by
    rintro rfl
    exact hf ⟨p, hp, hn⟩
  have hbefore : follow next mem root (i :: p) = none := by
    rw [follow, hn, Option.bind_some, hnone]
  induction q with
  | nil => rfl
  | cons j q ih =>
    have hq' := hP j q hq
    rw [follow, ih hq', follow]
    by_cases hqi : q = i :: p
    -- The path goes on through the fresh node, which leads nowhere.
    · have hlen : j :: q ≠ i :: p := by
        rw [hqi]
        intro hh
        have hl := congrArg List.length hh
        simp at hl
      rw [if_pos hqi, if_neg hlen, Option.bind_some, graft_child, hz, hqi, hbefore]
      rfl
    · rw [if_neg hqi]
      cases hfq : follow next mem root q with
      | none =>
        rw [if_neg]
        · rfl
        · rintro hh
          cases hh
          rw [hfq] at hn
          cases hn
      | some n' =>
        rw [Option.bind_some, Option.bind_some]
        have hn'f : n' ≠ f := by
          rintro rfl
          exact hf ⟨q, hq', hfq⟩
        by_cases hh : j :: q = i :: p
        · cases hh
          rw [hfq] at hn
          cases hn
          rw [if_pos rfl, graft_parent mem i e z hnf, he]
        · rw [if_neg hh, graft_of_ne mem e z hn'f]
          by_cases hnn : n' = n
          · subst hnn
            have hqp := h q p n' hq' hp hfq hn
            right
            rintro rfl
            exact hh (by rw [hqp])
          · exact .inl hnn

theorem Separated.graft (h : Separated next mem root P) (hP : ∀ i p, P (i :: p) → P p)
    (hp : P p) (hn : follow next mem root p = some n) (hnone : next (mem n i) = none)
    (he : next e = some f) (hz : next z = none) (hf : ¬ Reached next mem root P f) :
    Separated next (Radix.graft mem n i e f z) root P := by
  intro q q' m hq hq' hm hm'
  rw [h.follow_graft hP hp hn hnone he hz hf hq] at hm
  rw [h.follow_graft hP hp hn hnone he hz hf hq'] at hm'
  by_cases hqi : q = i :: p
  · by_cases hqi' : q' = i :: p
    · rw [hqi, hqi']
    · rw [if_pos hqi] at hm
      rw [if_neg hqi'] at hm'
      cases hm
      exact absurd ⟨q', hq', hm'⟩ hf
  · rw [if_neg hqi] at hm
    by_cases hqi' : q' = i :: p
    · rw [if_pos hqi'] at hm'
      cases hm'
      exact absurd ⟨q, hq, hm⟩ hf
    · rw [if_neg hqi'] at hm'
      exact h q q' m hq hq' hm hm'

end Radix
