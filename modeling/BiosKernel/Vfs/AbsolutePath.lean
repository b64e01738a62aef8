import BiosKernel.Vfs.Invariant

namespace BiosKernel
open Runs NamedTree Segments
set_option autoImplicit true

/-- The path of a node as a string, from the names on the way to it, the last one first. -/
def absolutePath (names : List CString) : CString :=
  if names = [] then [pathSeperator] else joined pathSeperator names.reverse

namespace Vfs

/-- The node `i` is reached by the names `p`. -/
def At (v : Vfs) (p : List CString) (i : Nat) : Prop :=
  NamedTree.At v.children (fun c => (v.node c).name) vfsRoot p i

variable {v v' : Vfs}

theorem Invariant.at_valid (h : v.Invariant) (hp : v.At p i) :
    i < v.count ∧ ∀ n ∈ p, ValidName n := by
  induction hp with
  | root => exact ⟨h.root, fun n hn => absurd hn List.not_mem_nil⟩
  | child _ hc ih =>
    obtain ⟨hpos, hlt⟩ := h.children _ ih.1 _ hc
    refine ⟨hlt, ?_⟩
    intro n hn
    rcases List.mem_cons.mp hn with rfl | hn
    · exact h.names _ hpos hlt
    · exact ih.2 n hn

theorem absolutePath_ne_root (h : ∀ n ∈ p, ValidName n) (hp : p ≠ []) :
    absolutePath p ≠ [pathSeperator] := by
  rw [absolutePath, if_neg hp]
  cases hr : p.reverse with
  | nil => exact absurd (List.reverse_eq_nil_iff.mp hr) hp
  | cons x xs =>
    have hx : ValidName x := h x (List.mem_reverse.mp (hr ▸ List.mem_cons_self))
    rw [joined_cons]
    intro he
    exact hx.ne_nil (List.append_eq_nil_iff.mp (List.cons.inj he).2).1

theorem absolutePath_injective (hp : ∀ n ∈ p, ValidName n) (hq : ∀ n ∈ q, ValidName n)
    (h : absolutePath p = absolutePath q) : p = q := by
  by_cases hp0 : p = []
  · by_cases hq0 : q = []
    · rw [hp0, hq0]
    · exact absurd (h ▸ by rw [hp0]; rfl) (absolutePath_ne_root hq hq0)
  · by_cases hq0 : q = []
    · exact absurd (h.trans (by rw [hq0]; rfl)) (absolutePath_ne_root hp hp0)
    · rw [absolutePath, absolutePath, if_neg hp0, if_neg hq0] at h
      apply List.reverse_injective
      refine joined_injective ?_ ?_ h
      · exact fun n hn => (hp n (List.mem_reverse.mp hn)).no_seperator
      · exact fun n hn => (hq n (List.mem_reverse.mp hn)).no_seperator

theorem Invariant.absolutePath_unique (h : v.Invariant) (hp : v.At p i) (hq : v.At q j)
    (he : absolutePath p = absolutePath q) : i = j := by
  have hpq := absolutePath_injective (h.at_valid hp).2 (h.at_valid hq).2 he
  subst hpq
  exact At.unique (fun p n hn => h.distinct n (h.at_valid hn).1) hp hq

theorem Invariant.run (h : v.Invariant) (hops : ∀ op ∈ ops, VfsOp.Absolute op) :
    ∃ v', run Vfs.step v ops = some v' ∧ v'.Invariant ∧
      ∀ i < v.count, (v.node i).type = .fileSystem →
        i < v'.count ∧ (v'.node i).type = .fileSystem := by
  induction ops generalizing v with
  | nil => exact ⟨v, rfl, h, fun i hi ht => ⟨hi, ht⟩⟩
  | cons op ops ih =>
    obtain ⟨v₁, hs, h₁⟩ := h.step (hops op List.mem_cons_self)
    obtain ⟨v', hr, h', hfs⟩ := ih h₁ fun op hm => hops op (List.mem_cons_of_mem _ hm)
    refine ⟨v', by rw [Runs.run, hs]; exact hr, h', ?_⟩
    intro i hi ht
    obtain ⟨hi₁, ht₁⟩ := h.step_fileSystem hs hi ht
    exact hfs i hi₁ ht₁

/-- The tree that calls with absolute paths build, and all that they add to it later. -/
theorem tree_invariant (ops : List VfsOp) (hops : ∀ op ∈ ops, op.Absolute) :
    ∃ v, Runs.run Vfs.step initVfs ops = some v ∧ v.Invariant ∧
      (∀ path, (v.vfsGetNode path).status ≠ .noDir) ∧
      (∀ p q i j, v.At p i → v.At q j → absolutePath p = absolutePath q → i = j) ∧
      ∀ later, (∀ op ∈ later, op.Absolute) → ∃ v', Runs.run Vfs.step v later = some v' ∧
        ∀ i < v.count, (v.node i).type = .fileSystem → (v'.node i).type = .fileSystem := by
  obtain ⟨v, hrun, h, _⟩ := invariant_initVfs.run hops
  refine ⟨v, hrun, h, h.status_ne_noDir, ?_, ?_⟩
  · exact fun p q i j hp hq he => h.absolutePath_unique hp hq he
  · intro later hlater
    obtain ⟨v', hrun', _, hfs⟩ := h.run hlater
    exact ⟨v', hrun', fun i hi ht => (hfs i hi ht).2⟩

/-- `/mnt`, then `/mnt/a`, and a file system there. -/
def mountedOps : List VfsOp :=
  [.mkdir [47, 109, 110, 116], .mkdir [47, 109, 110, 116, 47, 97],
    .mount [47, 109, 110, 116, 47, 97] ⟨0, 1024, .ext2⟩]

theorem tree_invariant_mounted : ∃ v, Runs.run Vfs.step initVfs mountedOps = some v ∧
    v.Invariant ∧ v.count = 3 ∧ (v.node 2).type = .fileSystem := by
  have hops : ∀ op ∈ mountedOps, op.Absolute := by
    have hshort : ∀ op ∈ mountedOps, op.path.head? = some pathSeperator ∧ op.path.length ≤ 255 := by
      decide
    intro op hop
    obtain ⟨habs, hlen⟩ := hshort op hop
    refine ⟨?_, fun seg hseg _ => hseg.length_le.trans hlen⟩
    obtain ⟨s, hs⟩ := List.head?_eq_some_iff.mp habs
    exact ⟨s, hs⟩
  obtain ⟨v, hrun, h, _⟩ := tree_invariant mountedOps hops
  have hend : (Runs.run Vfs.step initVfs mountedOps).map
      (fun v => (v.count, (v.node 2).type)) = some (3, .fileSystem) := by decide +kernel
  rw [hrun] at hend
  obtain ⟨hcount, htype⟩ : v.count = 3 ∧ (v.node 2).type = .fileSystem := by simpa using hend
  exact ⟨v, hrun, h, hcount, htype⟩

end Vfs

end BiosKernel
