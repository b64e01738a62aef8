import Mathlib.Data.List.Basic

namespace Tiling
set_option autoImplicit true

/-- Blocks given by address and length that fill `[s, e)` from left to right. -/
def Tiles : Nat → List (Nat × Nat) → Nat → Prop
  | s, [], e => s = e
  | s, b :: bs, e => b.1 = s ∧ Tiles (s + b.2) bs e

instance Tiles.decidable (s : Nat) (bs : List (Nat × Nat)) (e : Nat) : Decidable (Tiles s bs e) :=
  match bs with
  | [] => inferInstanceAs (Decidable (s = e))
  | b :: bs => @instDecidableAnd _ _ _ (Tiles.decidable (s + b.2) bs e)

theorem Tiles.le (h : Tiles s bs e) : s ≤ e := by
  induction bs generalizing s with
  | nil => exact Nat.le_of_eq h
  | cons b bs ih => exact Nat.le_trans (Nat.le_add_right _ _) (ih h.2)

theorem Tiles.concat (h : Tiles s bs e) (k : Nat) : Tiles s (bs ++ [(e, k)]) (e + k) := by
  induction bs generalizing s with
  | nil =>
    have he : s = e := h
    subst he
    exact ⟨rfl, rfl⟩
  | cons b bs ih => exact ⟨h.1, ih h.2⟩

theorem Tiles.within (h : Tiles s bs e) (hb : b ∈ bs) : s ≤ b.1 ∧ b.1 + b.2 ≤ e := by
  induction bs generalizing s with
  | nil => cases hb
  | cons c bs ih =>
    have hle := h.2.le
    rcases List.mem_cons.mp hb with he | hb
    · rw [he, h.1]
      exact ⟨Nat.le_refl _, hle⟩
    · have hi := ih h.2 hb
      exact ⟨by omega, hi.2⟩

theorem Tiles.apart (h : Tiles s bs e) (hb : b ∈ bs) (hc : c ∈ bs) (hne : b.1 ≠ c.1) :
    b.1 + b.2 ≤ c.1 ∨ c.1 + c.2 ≤ b.1 := by
  induction bs generalizing s with
  | nil => cases hb
  | cons d bs ih =>
    rcases List.mem_cons.mp hb with he | hb
    · rcases List.mem_cons.mp hc with he' | hc
      · rw [he, he'] at hne
        exact absurd rfl hne
      · have hw := h.2.within hc
        rw [he, h.1]
        exact .inl hw.1
    · rcases List.mem_cons.mp hc with he' | hc
      · have hw := h.2.within hb
        rw [he', h.1]
        exact .inr hw.1
      · exact ih h.2 hb hc

theorem Tiles.cover (h : Tiles s bs e) (hs : s ≤ x) (he : x < e) :
    ∃ b ∈ bs, b.1 ≤ x ∧ x < b.1 + b.2 := by
  induction bs generalizing s with
  | nil =>
    have hse : s = e := h
    omega
  | cons b bs ih =>
    by_cases hx : x < s + b.2
    · refine ⟨b, List.mem_cons_self, ?_, ?_⟩
      · rw [h.1]; exact hs
      · rw [h.1]; exact hx
    · obtain ⟨c, hc, hc'⟩ := ih h.2 (Nat.le_of_not_lt hx)
      exact ⟨c, List.mem_cons_of_mem _ hc, hc'⟩

theorem Tiles.nodup (h : Tiles s bs e) (hpos : ∀ b ∈ bs, 0 < b.2) : (bs.map Prod.fst).Nodup := by
  induction bs generalizing s with
  | nil => exact List.nodup_nil
  | cons b bs ih =>
    rw [List.map_cons, List.nodup_cons]
    refine ⟨?_, ih h.2 (fun c hc => hpos c (List.mem_cons_of_mem _ hc))⟩
    intro hm
    obtain ⟨c, hc, he⟩ := List.mem_map.mp hm
    have hw := h.2.within hc
    have hp := hpos b List.mem_cons_self
    have hb := h.1
    omega

theorem Tiles.dvd (h : Tiles s bs e) (hs : k ∣ s) (hk : ∀ b ∈ bs, k ∣ b.2) :
    k ∣ e ∧ ∀ b ∈ bs, k ∣ b.1 := by
  induction bs generalizing s with
  | nil =>
    have he : s = e := h
    subst he
    exact ⟨hs, fun b hb => by cases hb⟩
  | cons c bs ih =>
    have hc := hk c List.mem_cons_self
    obtain ⟨he, hr⟩ := ih h.2 (Nat.dvd_add hs hc) (fun b hb => hk b (List.mem_cons_of_mem _ hb))
    refine ⟨he, ?_⟩
    intro b hb
    rcases List.mem_cons.mp hb with heq | hb
    · rw [heq, h.1]; exact hs
    · exact hr b hb

end Tiling
