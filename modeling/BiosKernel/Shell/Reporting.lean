import BiosKernel.Shell.Mishaps

namespace BiosKernel
open Checked
set_option autoImplicit true

/-- In the text there is a division by a factor that is zero, and behind it another factor of the
same term. -/
def GoesOn (s : CString) : Prop :=
  ∃ u r f i j c w, s = u ++ 47 :: (spaces i ++ (f ++ (spaces j ++ c :: w))) ∧
    Renders .factor r f ∧ r.value = 0 ∧ (c = 42 ∨ c = 47)

/-- In some parentheses of the text a term goes on behind a division by zero. -/
def GoesOnInParens (s : CString) : Prop :=
  ∃ e inner, Renders .factor e (40 :: (inner ++ [41])) ∧ 40 :: (inner ++ [41]) <:+: s ∧ GoesOn inner

theorem GoesOn.mono (h : GoesOn s) (hs : s <:+: s') : GoesOn s' := by
  obtain ⟨u, r, f, i, j, c, w, rfl, hr, h0, hc⟩ := h
  obtain ⟨a, b, rfl⟩ := hs
  refine ⟨a ++ u, r, f, i, j, c, w ++ b, ?_, hr, h0, hc⟩
  simp only [List.append_assoc, List.cons_append]

theorem GoesOnInParens.mono (h : GoesOnInParens s) (hs : s <:+: s') : GoesOnInParens s' := by
  obtain ⟨e, inner, hrenders, hinner, hgoes⟩ := h
  exact ⟨e, inner, hrenders, hinner.trans hs, hgoes⟩

/-- The text of a term that ends with a division by zero. -/
def EndsInZero (s : CString) : Prop :=
  ∃ u r f i, s = u ++ 47 :: (spaces i ++ f) ∧ Renders .factor r f ∧ r.value = 0

/-- Every parenthesis that is read is closed. -/
def Tree.Closed : Tree → Prop
  | num _ => True
  | closed t => t.Closed
  | unclosed _ => False
  | mul l r => l.Closed ∧ r.Closed
  | div l r => l.Closed ∧ r.Closed
  | add l r => l.Closed ∧ r.Closed
  | sub l r => l.Closed ∧ r.Closed

theorem Tree.Closed.mishaps {t : Tree} (h : t.Closed) :
    ∀ m ∈ t.mishaps, m = .divisionByZero := by
  have hboth {ms ms' : List Mishap} (hl : ∀ m ∈ ms, m = .divisionByZero)
      (hr : ∀ m ∈ ms', m = .divisionByZero) : ∀ m ∈ ms ++ ms', m = .divisionByZero :=
    List.forall_mem_append.mpr ⟨hl, hr⟩
  induction t with
  | num l => exact List.forall_mem_nil _
  | closed t ih => exact ih h
  | unclosed t ih => exact h.elim
  | mul l r ihl ihr => exact hboth (ihl h.1) (ihr h.2)
  | add l r ihl ihr => exact hboth (ihl h.1) (ihr h.2)
  | sub l r ihl ihr => exact hboth (ihl h.1) (ihr h.2)
  | div l r ihl ihr =>
    refine hboth (ihl h.1) (hboth (ihr h.2) ?_)
    split
    · decide
    · exact List.forall_mem_nil _

/-- What is read without an open parenthesis, for an expression: unless it traps it has its value.
-/
structure Stands (t : Tree) (e : Expr) : Prop where
  closed : t.Closed
  value : ∀ v, t.value = some v → v = e.value

theorem Stands.num (m : Numeral) : Stands (.num m.toLiteral) (.num m) :=
  ⟨trivial, fun _ hv => (Option.some.inj hv).symm.trans m.value_eq⟩

theorem Stands.bin (op : Op) (hl : Stands l e₁) (hr : Stands r e₂) :
    Stands (op.tree l r) (.bin op e₁ e₂) := by
  have happly {a b v : Int32} (ha : l.value = some a) (hb : r.value = some b)
      (hop : op.apply a b = v) : v = (Expr.bin op e₁ e₂).value := by
    rw [← hop, hl.value a ha, hr.value b hb]
    rfl
  cases op with
  | add =>
    refine ⟨⟨hl.closed, hr.closed⟩, fun v hv => ?_⟩
    obtain ⟨a, b, ha, hb, hop⟩ := Tree.value_add hv
    exact happly ha hb hop
  | sub =>
    refine ⟨⟨hl.closed, hr.closed⟩, fun v hv => ?_⟩
    obtain ⟨a, b, ha, hb, hop⟩ := Tree.value_sub hv
    exact happly ha hb hop
  | mul =>
    refine ⟨⟨hl.closed, hr.closed⟩, fun v hv => ?_⟩
    obtain ⟨a, b, ha, hb, hop⟩ := Tree.value_mul hv
    exact happly ha hb hop
  | div =>
    refine ⟨⟨hl.closed, hr.closed⟩, fun v hv => ?_⟩
    obtain ⟨a, b, ha, hb, hop⟩ := Tree.value_div_eq hv
    exact happly ha hb hop

/-- How far the text of a level is read where its divisions by zero end their terms. -/
def Level.Settles : Level → (text s : CString) → Tree → (rest : CString) → Prop
  | term, text, s, t, rest =>
    Reads .termLoop s t (skipSpaces rest) ∨ EndsInZero text ∧ Reads .term s t rest
  | factor, _, s, t, rest => Reads .factor s t rest
  | expr, _, s, t, rest => Reads .evalLoop s t (skipSpaces rest)

theorem Level.Settles.term (h : Level.term.Settles text s t rest)
    (hf : Level.expr.Follows rest) : Reads .evalLoop s t (skipSpaces rest) ∧
      ∃ rest', Reads .term s t rest' ∧ skipSpaces rest' = skipSpaces rest := by
  have hends : ∃ rest', Reads .term s t rest' ∧ skipSpaces rest' = skipSpaces rest := by
    rcases h with h | ⟨-, h⟩
    · exact ⟨_, .term h hf.2.1 hf.2.2, skipSpaces_skipSpaces rest⟩
    · exact ⟨rest, h, rfl⟩
  obtain ⟨rest', hterm, hrest⟩ := hends
  exact ⟨hrest ▸ .firstTerm hterm, rest', hterm, hrest⟩

/-- Outside of parentheses the evaluation ends where a term would go on behind a division by zero.
-/
def Level.Stops : Level → (s : CString) → Tree → Prop
  | term, s, t => ∃ rest, Reads .term s t rest ∧
      ((skipSpaces rest).at0 = 42 ∨ (skipSpaces rest).at0 = 47)
  | factor, _, _ => False
  | expr, s, t => ∃ rest, Reads .eval s t rest

theorem Level.Settles.stops {op : Op} (hop : op.level = .term) (h : Reads .term s t rest)
    (hrest : skipSpaces rest = op.symbol :: s') : Level.term.Stops s t := by
  refine ⟨rest, h, ?_⟩
  rw [hrest]
  cases op with
  | add => cases hop
  | sub => cases hop
  | mul => exact .inl rfl
  | div => exact .inr rfl

end BiosKernel
