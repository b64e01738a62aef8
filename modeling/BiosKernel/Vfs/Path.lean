import BiosKernel.Libc.CString
import Mathlib.Data.List.Chain

namespace BiosKernel
set_option autoImplicit true

/-- `PATH_SEPERATOR`. -/
def pathSeperator : UInt8 := 47

/-- The first loop of `preprocess_path`: up to white space, with one separator for each run of
them. -/
def collapseSeperators : CString → Bool → CString
  | [], _ => []
  | c :: s, lastWasSlash =>
    if c = 0 ∨ isspace c then []
    else if c = pathSeperator then
      if lastWasSlash then collapseSeperators s true
      else pathSeperator :: collapseSeperators s true
    else c :: collapseSeperators s false

/-- The second loop, over the bytes from the end on. -/
def dropSeperators : CString → CString
  | c :: d :: s => if c = pathSeperator then dropSeperators (d :: s) else c :: d :: s
  | s => s

/-- A normalised copy of the path, none for an empty one. What `malloc` gives is zero behind it. -/
def preprocessPath (originalString : CString) : Option CString :=
  if originalString.at0 = 0 then none
  else some (dropSeperators (collapseSeperators originalString false).reverse).reverse

/-- A byte of a path: neither its end nor white space. -/
def PathByte (c : UInt8) : Prop := c ≠ 0 ∧ isspace c = false

theorem collapseSeperators_pathByte (hc : c ∈ collapseSeperators s lastWasSlash) : PathByte c := by
  have hsep : PathByte pathSeperator := ⟨by decide, by decide⟩
  induction s generalizing lastWasSlash with
  | nil => cases hc
  | cons x s ih =>
    rw [collapseSeperators] at hc
    split at hc
    · cases hc
    · next hx =>
      have hbyte : PathByte x := by simpa [PathByte] using hx
      split at hc
      · split at hc
        · exact ih hc
        · rcases List.mem_cons.mp hc with rfl | hc
          · exact hsep
          · exact ih hc
      · rcases List.mem_cons.mp hc with rfl | hc
        · exact hbyte
        · exact ih hc

theorem dropSeperators_suffix (s : CString) : dropSeperators s <:+ s := by
  fun_induction dropSeperators s with
  | case1 d s ih => exact ih.trans (List.suffix_cons _ _)
  | case2 c d s _ => exact List.suffix_refl _
  | case3 s _ => exact List.suffix_refl _

theorem dropSeperators_ne_nil (h : s ≠ []) : dropSeperators s ≠ [] := by
  fun_induction dropSeperators s with
  | case1 d s ih => exact ih (List.cons_ne_nil d s)
  | case2 c d s _ => exact h
  | case3 s _ => exact h

theorem preprocessPath_spec (h : preprocessPath s = some t) :
    t <+: collapseSeperators s false ∧ (collapseSeperators s false ≠ [] → t ≠ []) := by
  rw [preprocessPath] at h
  split at h
  · cases h
  · cases h
    refine ⟨?_, ?_⟩
    · rw [← List.reverse_suffix, List.reverse_reverse]
      exact dropSeperators_suffix _
    · intro hne
      rw [Ne, List.reverse_eq_nil_iff]
      exact dropSeperators_ne_nil (by rwa [Ne, List.reverse_eq_nil_iff])

theorem preprocessPath_pathByte (h : preprocessPath s = some t) (hc : c ∈ t) : PathByte c :=
  collapseSeperators_pathByte ((preprocessPath_spec h).1.subset hc)

theorem preprocessPath_cons (hc : PathByte c) : ∃ x t, preprocessPath (c :: s) = some (x :: t) := by
  have hcollapse : collapseSeperators (c :: s) false ≠ [] := by
    rw [collapseSeperators, if_neg (by simpa [PathByte] using hc)]
    split
    · exact List.cons_ne_nil _ _
    · exact List.cons_ne_nil _ _
  have hsome : preprocessPath (c :: s) =
      some (dropSeperators (collapseSeperators (c :: s) false).reverse).reverse := if_neg hc.1
  cases ht : (dropSeperators (collapseSeperators (c :: s) false).reverse).reverse with
  | nil => exact absurd ht ((preprocessPath_spec hsome).2 hcollapse)
  | cons x t => exact ⟨x, t, by rw [hsome, ht]⟩

theorem preprocessPath_absolute (h : preprocessPath (pathSeperator :: s) = some t) :
    ∃ rest, t = pathSeperator :: rest := by
  obtain ⟨hp, hne⟩ := preprocessPath_spec h
  have hcollapse : collapseSeperators (pathSeperator :: s) false =
      pathSeperator :: collapseSeperators s true := rfl
  rw [hcollapse] at hp hne
  cases t with
  | nil => exact absurd rfl (hne (List.cons_ne_nil _ _))
  | cons c rest =>
    obtain ⟨rfl, _⟩ := List.cons_prefix_cons.mp hp
    exact ⟨rest, rfl⟩

/-- An absolute path with one separator between its names and none behind the last, and with no byte
that ends it. -/
structure NormalPath (p : CString) : Prop where
  absolute : p.head? = some pathSeperator
  single : p.IsChain fun a b => ¬ (a = pathSeperator ∧ b = pathSeperator)
  bytes : ∀ c ∈ p, PathByte c
  trimmed : p ≠ [pathSeperator] → p.getLast? ≠ some pathSeperator

theorem collapseSeperators_single (s : CString) (lastWasSlash : Bool) :
    (collapseSeperators s lastWasSlash).IsChain
        (fun a b => ¬ (a = pathSeperator ∧ b = pathSeperator)) ∧
      (lastWasSlash = true → (collapseSeperators s lastWasSlash).head? ≠ some pathSeperator) := by
  induction s generalizing lastWasSlash with
  | nil => exact ⟨.nil, fun _ => nofun⟩
  | cons c s ih =>
    obtain ⟨hslash, hhead⟩ := ih true
    have hother := (ih false).1
    rw [collapseSeperators]
    split
    · exact ⟨.nil, fun _ => nofun⟩
    · split
      · split
        · exact ⟨hslash, fun _ => hhead rfl⟩
        · rename_i hnot
          refine ⟨List.isChain_cons.mpr ⟨?_, hslash⟩, fun h => absurd h hnot⟩
          rintro b hb ⟨-, rfl⟩
          exact hhead rfl hb
      · rename_i hc
        refine ⟨List.isChain_cons.mpr ⟨fun b _ h => hc h.1, hother⟩, ?_⟩
        exact fun _ h => hc (Option.some.inj h)

theorem dropSeperators_trimmed (s : CString) :
    (∃ c, dropSeperators s = [c]) ∨ (dropSeperators s).head? ≠ some pathSeperator := by
  fun_induction dropSeperators s with
  | case1 d s ih => exact ih
  | case2 c d s hc => exact .inr fun h => hc (Option.some.inj h)
  | case3 s hs =>
    cases s with
    | nil => exact .inr nofun
    | cons c s =>
      cases s with
      | nil => exact .inl ⟨c, rfl⟩
      | cons d s => exact absurd rfl (hs c d s)

theorem preprocessPath_single (h : preprocessPath s = some t) :
    t.IsChain fun a b => ¬ (a = pathSeperator ∧ b = pathSeperator) := by
  obtain ⟨u, hu⟩ := (preprocessPath_spec h).1
  have hchain := (collapseSeperators_single s false).1
  rw [← hu] at hchain
  exact hchain.left_of_append

theorem preprocessPath_trimmed (h : preprocessPath s = some t) (hne : t ≠ [pathSeperator]) :
    t.getLast? ≠ some pathSeperator := by
  rw [preprocessPath] at h
  split at h
  · cases h
  · cases h
    rw [List.getLast?_reverse]
    rcases dropSeperators_trimmed (collapseSeperators s false).reverse with ⟨c, hc⟩ | hhead
    · rw [hc] at hne ⊢
      rintro ⟨⟩
      exact hne rfl
    · exact hhead

theorem preprocessPath_normal (h : preprocessPath (pathSeperator :: s) = some t) :
    NormalPath t := by
  obtain ⟨rest, hrest⟩ := preprocessPath_absolute h
  refine ⟨?_, preprocessPath_single h, fun c => preprocessPath_pathByte h, preprocessPath_trimmed h⟩
  rw [hrest]
  rfl

theorem prefix_of_collapse (hseg : pathSeperator ∉ seg)
    (h : seg <+: collapseSeperators s false) : seg <+: s := by
  induction s generalizing seg with
  | nil => exact h
  | cons x s ih =>
    cases seg with
    | nil => exact List.nil_prefix
    | cons y seg =>
      rw [collapseSeperators] at h
      split at h
      · cases List.prefix_nil.mp h
      · split at h
        · rw [if_neg Bool.false_ne_true] at h
          obtain ⟨rfl, _⟩ := List.cons_prefix_cons.mp h
          exact absurd List.mem_cons_self hseg
        · obtain ⟨rfl, htail⟩ := List.cons_prefix_cons.mp h
          have hseg' : pathSeperator ∉ seg := fun hm => hseg (List.mem_cons_of_mem _ hm)
          exact List.cons_prefix_cons.mpr ⟨rfl, ih hseg' htail⟩

theorem infix_of_collapse (hseg : pathSeperator ∉ seg)
    (h : seg <:+: collapseSeperators s lastWasSlash) : seg <:+: s := by
  induction s generalizing lastWasSlash with
  | nil => exact h
  | cons x s ih =>
    have htail (b : Bool) (h : seg <:+: collapseSeperators s b) : seg <:+: x :: s :=
      (ih h).trans (List.suffix_cons x s).isInfix
    rw [collapseSeperators] at h
    split at h
    · rw [List.infix_nil.mp h]
      exact List.nil_infix
    · split at h
      · split at h
        · exact htail _ h
        · rcases List.infix_cons_iff.mp h with h | h
          · cases seg with
            | nil => exact List.nil_infix
            | cons y seg =>
              obtain ⟨rfl, _⟩ := List.cons_prefix_cons.mp h
              exact absurd List.mem_cons_self hseg
          · exact htail _ h
      · next hx hsep =>
        rcases List.infix_cons_iff.mp h with h | h
        · have hfalse : x :: collapseSeperators s false = collapseSeperators (x :: s) false := by
            rw [collapseSeperators, if_neg hx, if_neg hsep]
          rw [hfalse] at h
          exact (prefix_of_collapse hseg h).isInfix
        · exact htail _ h

theorem infix_of_preprocessPath (h : preprocessPath s = some t) (hseg : pathSeperator ∉ seg)
    (hin : seg <:+: t) : seg <:+: s :=
  infix_of_collapse hseg (hin.trans (preprocessPath_spec h).1.isInfix)

end BiosKernel
