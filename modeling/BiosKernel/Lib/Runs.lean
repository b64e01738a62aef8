import Mathlib.Data.List.Basic

namespace Runs
set_option autoImplicit true

/-- Perform the operations in order. `none` is a run that one of them never leaves. -/
def run (step : σ → ι → Option σ) : σ → List ι → Option σ
  | s, [] => some s
  | s, i :: is => (step s i).bind fun s' => run step s' is

/-- Every operation of the run meets `ok` in the state it is called in. -/
def Meets (step : σ → ι → Option σ) (ok : σ → ι → Prop) : σ → List ι → Prop
  | _, [] => True
  | s, i :: is => ok s i ∧ ∀ s', step s i = some s' → Meets step ok s' is

/-- Every operation of the run returns, and `P` holds in each state on the way. -/
def Always (step : σ → ι → Option σ) (P : σ → Prop) : σ → List ι → Prop
  | s, [] => P s
  | s, i :: is => P s ∧ ∃ s', step s i = some s' ∧ Always step P s' is

instance Meets.decide (step : σ → ι → Option σ) (ok : σ → ι → Prop)
    [∀ s i, Decidable (ok s i)] : (s : σ) → (is : List ι) → Decidable (Meets step ok s is)
  | _, [] => .isTrue trivial
  | s, i :: is =>
    match h : step s i with
    | none => decidable_of_iff (ok s i) ⟨fun hi => ⟨hi, fun s' hs => by rw [h] at hs; cases hs⟩,
        fun hm => hm.1⟩
    | some s' =>
      have := Meets.decide step ok s' is
      decidable_of_iff (ok s i ∧ Meets step ok s' is)
        ⟨fun hm => ⟨hm.1, fun u hu => by rw [h] at hu; cases hu; exact hm.2⟩,
          fun hm => ⟨hm.1, hm.2 s' h⟩⟩

theorem run_cons (h : run step s (i :: is) = some u) :
    ∃ s', step s i = some s' ∧ run step s' is = some u := Option.bind_eq_some_iff.mp h

theorem run_append : run step s (is ++ js) = (run step s is).bind fun s' => run step s' js := by
  induction is generalizing s with
  | nil => rfl
  | cons i is ih =>
    simp only [List.cons_append, run, Option.bind_assoc]
    cases step s i with
    | none => rfl
    | some s' => exact ih

/-- Steps that keep an invariant keep it over whole runs. -/
theorem run_invariant {I : σ → Prop}
    (hstep : ∀ s i s', I s → ok s i → step s i = some s' → I s')
    (hs : I s) (hm : Meets step ok s is) (h : run step s is = some u) : I u := by
  induction is generalizing s with
  | nil => cases h; exact hs
  | cons i is ih =>
    obtain ⟨s', hi, hr⟩ := run_cons h
    exact ih (hstep s i s' hs hm.1 hi) (hm.2 s' hi) hr

/-- Where each step is one of another system under `f`, so is a run. -/
theorem run_map {f : σ → τ} {I : σ → Prop} {fit : ι → Prop} {step' : τ → ι → Option τ}
    (hstep : ∀ s i, I s → fit i →
      (step s i).map f = step' (f s) i ∧ ∀ s', step s i = some s' → I s')
    (hs : I s) (hfit : ∀ i ∈ is, fit i) :
    (run step s is).map f = run step' (f s) is ∧ ∀ u, run step s is = some u → I u := by
  induction is generalizing s with
  | nil => exact ⟨rfl, fun u hu => Option.some.inj hu ▸ hs⟩
  | cons i is ih =>
    obtain ⟨hi, his⟩ := List.forall_mem_cons.mp hfit
    obtain ⟨hmap, hinv⟩ := hstep s i hs hi
    rw [run, run, ← hmap]
    cases hr : step s i with
    | none => exact ⟨rfl, fun u hu => by cases hu⟩
    | some s' => exact ih (hinv s' hr) his

/-- Where a step keeps the property exactly when it meets `ok`, so does a run. -/
theorem always_iff_meets {I P : σ → Prop}
    (hinv : ∀ s i s', I s → fit s i → step s i = some s' → P s' → I s')
    (hstep : ∀ s i, I s → P s → fit s i → (ok s i ↔ ∃ s', step s i = some s' ∧ P s'))
    (hs : I s) (hP : P s) (hf : Meets step fit s is) :
    Always step P s is ↔ Meets step ok s is := by
  induction is generalizing s with
  | nil => exact ⟨fun _ => trivial, fun _ => hP⟩
  | cons i is ih =>
    have hi := hstep s i hs hP hf.1
    constructor
    · rintro ⟨_, s', h, hr⟩
      have hP' : P s' := by
        cases is with
        | nil => exact hr
        | cons j is => exact hr.1
      refine ⟨hi.mpr ⟨s', h, hP'⟩, ?_⟩
      intro u hu
      rw [h] at hu
      cases hu
      exact (ih (hinv s i s' hs hf.1 h hP') hP' (hf.2 s' h)).mp hr
    · rintro ⟨hok, hr⟩
      obtain ⟨s', h, hP'⟩ := hi.mp hok
      exact ⟨hP, s', h, (ih (hinv s i s' hs hf.1 h hP') hP' (hf.2 s' h)).mpr (hr s' h)⟩

theorem meets_iff_meets {I : σ → Prop}
    (hinv : ∀ s i s', I s → fit s i → ok s i → step s i = some s' → I s')
    (hstep : ∀ s i, I s → fit s i → (ok' s i ↔ ok s i)) (hs : I s) (hf : Meets step fit s is) :
    Meets step ok' s is ↔ Meets step ok s is := by
  induction is generalizing s with
  | nil => exact Iff.rfl
  | cons i is ih =>
    have hi := hstep s i hs hf.1
    constructor
    · rintro ⟨hok', hr⟩
      have hok := hi.mp hok'
      exact ⟨hok, fun s' h => (ih (hinv s i s' hs hf.1 hok h) (hf.2 s' h)).mp (hr s' h)⟩
    · rintro ⟨hok, hr⟩
      refine ⟨hi.mpr hok, ?_⟩
      exact fun s' h => (ih (hinv s i s' hs hf.1 hok h) (hf.2 s' h)).mpr (hr s' h)

/-- `P` holds behind every operation of the run that returns. -/
def Behind (step : σ → ι → Option σ) (P : σ → Prop) : σ → List ι → Prop :=
  Meets step fun s i => ∀ s', step s i = some s' → P s'

theorem behind_iff_meets {P : σ → Prop}
    (hstep : ∀ s i, P s → (ok s i ↔ ∀ s', step s i = some s' → P s')) (hs : P s) :
    Behind step P s is ↔ Meets step ok s is := by
  induction is generalizing s with
  | nil => exact ⟨fun _ => trivial, fun _ => trivial⟩
  | cons i is ih =>
    have hi := hstep s i hs
    constructor
    · rintro ⟨hP, hr⟩
      exact ⟨hi.mpr hP, fun s' h => (ih (hP s' h)).mp (hr s' h)⟩
    · rintro ⟨hok, hr⟩
      have hP := hi.mp hok
      exact ⟨hP, fun s' h => (ih (hP s' h)).mpr (hr s' h)⟩

theorem always_of_meets {I P : σ → Prop}
    (hstep : ∀ s i, I s → ok s i → ∃ s', step s i = some s' ∧ I s') (hP : ∀ s, I s → P s)
    (hs : I s) (hm : Meets step ok s is) : Always step P s is := by
  induction is generalizing s with
  | nil => exact hP s hs
  | cons i is ih =>
    obtain ⟨s', h, hs'⟩ := hstep s i hs hm.1
    exact ⟨hP s hs, s', h, ih hs' (hm.2 s' h)⟩

theorem Always.last {P : σ → Prop} (h : Always step P s is) :
    ∃ u, run step s is = some u ∧ P u := by
  induction is generalizing s with
  | nil => exact ⟨s, rfl, h⟩
  | cons i is ih =>
    obtain ⟨_, s', hi, hr⟩ := h
    obtain ⟨u, hu, hP⟩ := ih hr
    exact ⟨u, by rw [run, hi]; exact hu, hP⟩

/-- The last operation of the run meets `ok`, or `P` holds and there is none. -/
def LastMeets (step : σ → ι → Option σ) (ok : σ → ι → Prop) (P : σ → Prop) : σ → List ι → Prop
  | s, [] => P s
  | s, [i] => ok s i
  | s, i :: is => ∀ s', step s i = some s' → LastMeets step ok P s' is

theorem last_iff_lastMeets {P : σ → Prop}
    (hstep : ∀ s i s', step s i = some s' → (P s' ↔ ok s i)) (h : run step s is = some u) :
    P u ↔ LastMeets step ok P s is := by
  induction is generalizing s with
  | nil =>
    cases h
    exact Iff.rfl
  | cons i is ih =>
    obtain ⟨s', hi, hr⟩ := run_cons h
    cases is with
    | nil =>
      cases hr
      exact hstep s i u hi
    | cons j is =>
      refine (ih hr).trans ⟨?_, fun hl => hl s' hi⟩
      intro hl s'' hi'
      rw [hi] at hi'
      cases hi'
      exact hl

theorem Meets.append (h : Meets step ok s (is ++ js)) :
    Meets step ok s is ∧ ∀ u, run step s is = some u → Meets step ok u js := by
  induction is generalizing s with
  | nil =>
    refine ⟨trivial, ?_⟩
    intro u hu
    cases hu
    exact h
  | cons i is ih =>
    refine ⟨⟨h.1, fun s' hs' => (ih (h.2 s' hs')).1⟩, ?_⟩
    intro u hu
    obtain ⟨s', hi, hr⟩ := run_cons hu
    exact (ih (h.2 s' hi)).2 u hr

theorem Meets.of_invariant {I : σ → Prop} (hstep : ∀ s i s', I s → step s i = some s' → I s')
    (hok : ∀ s i, I s → ok s i) (hs : I s) : Meets step ok s is := by
  induction is generalizing s with
  | nil => trivial
  | cons i is ih => exact ⟨hok s i hs, fun s' h => ih (hstep s i s' hs h)⟩

theorem Meets.of_forall (h : ∀ s i, ok s i) : Meets step ok s is :=
  .of_invariant (fun _ _ _ _ _ => trivial) (fun s i _ => h s i) (trivial : (fun _ => True) s)

theorem Meets.of_forall_mem {ok : ι → Prop} (h : ∀ i ∈ is, ok i) :
    Meets step (fun _ => ok) s is := by
  induction is generalizing s with
  | nil => trivial
  | cons i is ih =>
    obtain ⟨hi, his⟩ := List.forall_mem_cons.mp h
    exact ⟨hi, fun _ _ => ih his⟩

theorem Meets.mono (hok : ∀ s i, ok s i → ok' s i) (hm : Meets step ok s is) :
    Meets step ok' s is := by
  induction is generalizing s with
  | nil => trivial
  | cons i is ih => exact ⟨hok s i hm.1, fun s' hs' => ih (hm.2 s' hs')⟩

theorem Meets.and (hm : Meets step ok s is) (hm' : Meets step ok' s is) :
    Meets step (fun s i => ok s i ∧ ok' s i) s is := by
  induction is generalizing s with
  | nil => trivial
  | cons i is ih => exact ⟨⟨hm.1, hm'.1⟩, fun s' hs' => ih (hm.2 s' hs') (hm'.2 s' hs')⟩

end Runs
