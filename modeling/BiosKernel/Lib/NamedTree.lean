import Mathlib.Data.List.Find
import Mathlib.Data.List.Nodup

namespace NamedTree
set_option autoImplicit true

variable {N L : Type} {children : N → List N} {name : N → L} {root : N}

/-- The names on the way from the root to a node, the node's own one first. -/
inductive At (children : N → List N) (name : N → L) (root : N) : List L → N → Prop
  | root : At children name root [] root
  | child : At children name root p n → c ∈ children n → At children name root (name c :: p) c

theorem At.unique (hdistinct : ∀ p n, At children name root p n → ((children n).map name).Nodup)
    (h : At children name root p n) (h' : At children name root p m) : n = m := by
  induction h generalizing m with
  | root => cases h' with | root => rfl
  | child hp hc ih =>
    generalize hq : (_ :: _ : List L) = q at h'
    cases h' with
    | root => cases hq
    | child hp' hc' =>
      obtain ⟨hname, rfl⟩ := List.cons.inj hq
      cases ih hp'
      exact List.inj_on_of_nodup_map (hdistinct _ _ hp) hc hc' hname

section Descend

variable [DecidableEq L]

/-- The first child of a name. -/
def child (children : N → List N) (name : N → L) (n : N) (l : L) : Option N :=
  (children n).find? fun c => name c = l

/-- As deep as the names lead through nodes that may be entered, with the names that are left. -/
def descend (children : N → List N) (name : N → L) (enters : N → Bool) : N → List L → N × List L
  | n, [] => (n, [])
  | n, l :: ls =>
    if enters n then
      match child children name n l with
      | none => (n, l :: ls)
      | some c => descend children name enters c ls
    else (n, l :: ls)

variable {enters : N → Bool}

theorem child_mem (h : child children name n l = some c) : c ∈ children n ∧ name c = l :=
  ⟨List.mem_of_find?_eq_some h, by simpa using List.find?_some h⟩

theorem child_eq_none_iff :
    child children name n l = none ↔ ∀ c ∈ children n, name c ≠ l := by
  simp [child]

theorem descend_enter (he : enters n = true) (hc : child children name n l = some c)
    (ls : List L) : descend children name enters n (l :: ls) =
      descend children name enters c ls := by
  rw [descend, if_pos he, hc]

theorem descend_stop (h : enters n = true → child children name n l = none) (ls : List L) :
    descend children name enters n (l :: ls) = (n, l :: ls) := by
  rw [descend]
  split
  · next he => rw [h he]
  · rfl

/-- What holds where the descent ends, and is kept by one name more, holds of every descent. -/
theorem descend_induction {P : N → List L → N × List L → Prop} (done : ∀ n, P n [] (n, []))
    (stop : ∀ n l ls, (enters n = true → child children name n l = none) →
      P n (l :: ls) (n, l :: ls))
    (enter : ∀ n l ls c, enters n = true → child children name n l = some c →
      P c ls (descend children name enters c ls) →
      P n (l :: ls) (descend children name enters c ls))
    (n : N) (ls : List L) : P n ls (descend children name enters n ls) := by
  induction ls generalizing n with
  | nil => exact done n
  | cons l ls ih =>
    by_cases hstop : enters n = true → child children name n l = none
    · rw [descend_stop hstop]
      exact stop n l ls hstop
    · obtain ⟨he, hc⟩ := Classical.not_imp.mp hstop
      obtain ⟨c, hc⟩ := Option.ne_none_iff_exists'.mp hc
      rw [descend_enter he hc]
      exact enter n l ls c he hc (ih c)

theorem descend_at (enters : N → Bool) (h : At children name root p n) (ls : List L) :
    ∃ names, ls = names ++ (descend children name enters n ls).2 ∧
      At children name root (names.reverse ++ p) (descend children name enters n ls).1 := by
  refine descend_induction (P := fun n ls stop => ∀ p, At children name root p n →
    ∃ names, ls = names ++ stop.2 ∧ At children name root (names.reverse ++ p) stop.1)
    ?_ ?_ ?_ n ls p h
  · exact fun n p h => ⟨[], rfl, h⟩
  · exact fun n l ls _ p h => ⟨[], rfl, h⟩
  · intro n l ls c _ hc ih p h
    obtain ⟨hmem, rfl⟩ := child_mem hc
    obtain ⟨names, hnames, hat⟩ := ih _ (h.child hmem)
    refine ⟨name c :: names, congrArg (_ :: ·) hnames, ?_⟩
    rwa [List.reverse_cons, List.append_assoc]

theorem descend_inside (inside : N → Prop) (hclosed : ∀ n, inside n → ∀ c ∈ children n, inside c)
    (hn : inside n) (ls : List L) : inside (descend children name enters n ls).1 := by
  refine descend_induction (P := fun n _ stop => inside n → inside stop.1) ?_ ?_ ?_ n ls hn
  · exact fun n hn => hn
  · exact fun n l ls _ hn => hn
  · exact fun n l ls c _ hc ih hn => ih (hclosed n hn c (child_mem hc).1)

theorem descend_stopped (h : (descend children name enters n ls).2 = l :: rest)
    (he : enters (descend children name enters n ls).1 = true) :
    child children name (descend children name enters n ls).1 l = none := by
  refine descend_induction (P := fun _ _ stop => stop.2 = l :: rest → enters stop.1 = true →
    child children name stop.1 l = none) ?_ ?_ ?_ n ls h he
  · exact fun n h => absurd h.symm (List.cons_ne_nil _ _)
  · rintro n m ls hstop ⟨⟩ he
    exact hstop he
  · exact fun n m ls c _ _ ih => ih

end Descend

section Grow

variable [DecidableEq L] {children' : N → List N} {name' : N → L} {enters enters' : N → Bool}
  {inside : N → Prop} {parent new : N}

/-- The second tree has one node more, the first child of a node that had none of its name. -/
structure Grows (children children' : N → List N) (name name' : N → L) (enters enters' : N → Bool)
    (inside : N → Prop) (parent new : N) : Prop where
  closed : ∀ n, inside n → ∀ c ∈ children n, inside c
  same_name : ∀ n, inside n → name' n = name n
  same_enters : ∀ n, inside n → enters' n = enters n
  other : ∀ n, inside n → n ≠ parent → children' n = children n
  first : children' parent = new :: children parent
  entered : enters parent = true
  fresh : child children name parent (name' new) = none

variable (h : Grows children children' name name' enters enters' inside parent new)
include h

theorem Grows.find (hn : inside n) (l : L) :
    (children n).find? (fun c => name' c = l) = child children name n l := by
  apply List.find?_congr
  intro c hc
  rw [h.same_name c (h.closed n hn c hc)]

theorem Grows.child (hn : inside n) (hc : NamedTree.child children name n l = some c) :
    NamedTree.child children' name' n l = some c := by
  rw [NamedTree.child]
  by_cases hp : n = parent
  · subst hp
    have hl : name' new ≠ l := by
      intro hl
      rw [← hl, h.fresh] at hc
      cases hc
    rw [h.first, List.find?_cons_of_neg (by simpa using hl), h.find hn, hc]
  · rw [h.other n hn hp, h.find hn, hc]

theorem Grows.descend_eq (hn : inside n) (hs : (descend children name enters n ls).2 = [] ∨
      enters (descend children name enters n ls).1 = false) :
    descend children' name' enters' n ls = descend children name enters n ls := by
  refine descend_induction (P := fun n ls stop => inside n → stop.2 = [] ∨ enters stop.1 = false →
    descend children' name' enters' n ls = stop) ?_ ?_ ?_ n ls hn hs
  · exact fun n _ _ => rfl
  · intro n l ls _ hn hs
    have hout : enters n = false := hs.resolve_left (List.cons_ne_nil _ _)
    refine descend_stop (fun he => ?_) ls
    rw [h.same_enters n hn, hout] at he
    cases he
  · intro n l ls c he hc ih hn hs
    rw [descend_enter ((h.same_enters n hn).trans he) (h.child hn hc)]
    exact ih (h.closed n hn c (child_mem hc).1) hs

theorem Grows.descend_new (hn : inside n)
    (hd : descend children name enters n ls = (parent, [name' new])) :
    descend children' name' enters' n ls = (new, []) := by
  refine descend_induction (P := fun n ls stop => inside n → stop = (parent, [name' new]) →
    descend children' name' enters' n ls = (new, [])) ?_ ?_ ?_ n ls hn hd
  · rintro n _ ⟨⟩
  · rintro n l ls _ hn ⟨⟩
    refine descend_enter ((h.same_enters _ hn).trans h.entered) ?_ []
    rw [NamedTree.child, h.first, List.find?_cons_of_pos (by simp)]
  · intro n l ls c he hc ih hn hd
    rw [descend_enter ((h.same_enters n hn).trans he) (h.child hn hc)]
    exact ih (h.closed n hn c (child_mem hc).1) hd

end Grow

end NamedTree
