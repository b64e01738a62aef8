import BiosKernel.Paging.MapPage

namespace BiosKernel
open Radix
set_option autoImplicit true

/-- The table that an entry of an upper level leads to. A large page is no table. -/
def lowerTable (e : Nat) : Option Nat := if present e && !large e then some (frameOf e) else none

theorem lowerTable_eq_some_iff :
    lowerTable e = some n ↔ present e = true ∧ large e = false ∧ frameOf e = n := by
  rw [lowerTable]
  cases present e <;> cases large e <;> simp

namespace Mmu

variable {s : Mmu}

/-- The table that the indices of a path lead to, the last index first. -/
def reached (s : Mmu) (q : List Nat) : Option Nat := follow lowerTable s.mem s.cr3 q

/-- Where the processor finds the byte at a virtual address. -/
def physicalAddress (s : Mmu) (va : Nat) : Option Nat :=
  (s.translate va).map fun f => f * pageSize + va % pageSize

theorem reached_cons_iff :
    s.reached (i :: q) = some n ↔ ∃ m, s.reached q = some m ∧ lowerTable (s.mem m i) = some n := by
  rw [reached, follow, Option.bind_eq_some_iff]
  rfl

theorem hardwareWalk_of_reached (h : s.reached [c, b, a] = some m)
    (hd : present (s.mem m d) = true) :
    hardwareWalk s.mem s.cr3 a b c d = some (frameOf (s.mem m d)) := by
  obtain ⟨m₂, h, hc⟩ := reached_cons_iff.mp h
  obtain ⟨m₁, h, hb⟩ := reached_cons_iff.mp h
  obtain ⟨m₀, h, ha⟩ := reached_cons_iff.mp h
  cases h
  obtain ⟨hpc, hlc, rfl⟩ := lowerTable_eq_some_iff.mp hc
  obtain ⟨hpb, hlb, rfl⟩ := lowerTable_eq_some_iff.mp hb
  obtain ⟨hpa, _, rfl⟩ := lowerTable_eq_some_iff.mp ha
  simp only [hardwareWalk, hpa, hpb, hpc, hd, hlb, hlc, Bool.not_true, Bool.false_eq_true, if_false]

theorem reached_append (h : s.reached [r] = some s.cr3) (q : List Nat) :
    s.reached (q ++ [r]) = s.reached q := by
  induction q with
  | nil => exact h
  | cons i q ih =>
    rw [reached] at ih ⊢
    rw [List.cons_append, follow, ih]
    rfl

end Mmu

theorem canonical_getAddr (ha : a < 512) (hb : b < 512) (hc : c < 512) (hd : d < 512)
    (hx : x < 512) : Canonical (getAddrFromTableIndexes a b c d + 8 * x) := by
  rw [getAddrFromTableIndexes_eq ha hb hc hd, Canonical]
  split <;> omega

theorem getAddr_tableIndex (h : Canonical va) (hp : va % pageSize = 0) :
    getAddrFromTableIndexes (tableIndex va 39) (tableIndex va 30) (tableIndex va 21)
      (tableIndex va 12) = va := by
  rw [getAddrFromTableIndexes_eq (tableIndex_lt _ _) (tableIndex_lt _ _) (tableIndex_lt _ _)
    (tableIndex_lt _ _)]
  simp only [tableIndex_eq]
  rw [pageSize] at hp
  rcases h with h | h
  · rw [if_neg (by omega)]
    omega
  · rw [if_pos (by omega)]
    omega

namespace Mmu

variable {s : Mmu}

/-- The walk of an address of the window ends at the entry of the table, once the path to the table
has been filled up with turns through the recursive entry. -/
theorem physicalAddress_window (h : s.reached (d :: q) = some n)
    (hq : s.reached [c, b, a] = s.reached q) (ha : a < 512) (hb : b < 512) (hc : c < 512)
    (hd : d < 512) (hx : x < 512) :
    s.physicalAddress (getAddrFromTableIndexes a b c d + 8 * x) = some (n * pageSize + 8 * x) := by
  obtain ⟨m, hm, hn⟩ := reached_cons_iff.mp h
  obtain ⟨hpresent, _, rfl⟩ := lowerTable_eq_some_iff.mp hn
  have hoffset : (getAddrFromTableIndexes a b c d + 8 * x) % pageSize = 8 * x := by
    rw [getAddrFromTableIndexes_eq ha hb hc hd, pageSize]
    split <;> omega
  rw [physicalAddress, translate_getAddr s ha hb hc hd hx,
    hardwareWalk_of_reached (hq.trans hm) hpresent, Option.map_some, hoffset]

/-- What the window shows, at each of its levels. -/
structure Window (s : Mmu) (i j k l : Nat) : Prop where
  table : ∀ n, s.reached [k, j, i] = some n →
    s.physicalAddress (getAddrFromTableIndexes pml4RecursiveEntryNum i j k + 8 * l) =
      some (n * pageSize + 8 * l)
  directory : ∀ n, s.reached [j, i] = some n →
    s.physicalAddress (getAddrFromTableIndexes pml4RecursiveEntryNum pml4RecursiveEntryNum i j +
      8 * l) = some (n * pageSize + 8 * l)
  pointers : ∀ n, s.reached [i] = some n →
    s.physicalAddress (getAddrFromTableIndexes pml4RecursiveEntryNum pml4RecursiveEntryNum
      pml4RecursiveEntryNum i + 8 * l) = some (n * pageSize + 8 * l)

theorem window_of_self (h : s.reached [pml4RecursiveEntryNum] = some s.cr3) (hi : i < 512)
    (hj : j < 512) (hk : k < 512) (hl : l < 512) : s.Window i j k l := by
  have hr : pml4RecursiveEntryNum < 512 := by decide
  have hone := reached_append h
  refine ⟨fun n hn => ?_, fun n hn => ?_, fun n hn => ?_⟩
  · exact physicalAddress_window hn (hone [j, i]) hr hi hj hk hl
  · exact physicalAddress_window hn ((hone [i, _]).trans (hone [i])) hr hr hi hj hl
  · have hthree := (hone [_, _]).trans ((hone [_]).trans (hone []))
    exact physicalAddress_window hn hthree hr hr hr hi hl

/-- The recursive window addresses the entries of the tables, its addresses are canonical, and the
indices that `map_page` takes from an address give it back. -/
theorem recursive_window (s : Mmu) (h : s.reached [pml4RecursiveEntryNum] = some s.cr3) :
    (∀ i j k l, i < 512 → j < 512 → k < 512 → l < 512 → s.Window i j k l ∧
      ∀ a ∈ [getAddrFromTableIndexes pml4RecursiveEntryNum i j k,
          getAddrFromTableIndexes pml4RecursiveEntryNum pml4RecursiveEntryNum i j,
          getAddrFromTableIndexes pml4RecursiveEntryNum pml4RecursiveEntryNum
            pml4RecursiveEntryNum i], Canonical (a + 8 * l)) ∧
    ∀ va, Canonical va → va % pageSize = 0 →
      getAddrFromTableIndexes (tableIndex va 39) (tableIndex va 30) (tableIndex va 21)
        (tableIndex va 12) = va := by
  refine ⟨fun i j k l hi hj hk hl => ⟨window_of_self h hi hj hk hl, ?_⟩,
    fun va hva hp => getAddr_tableIndex hva hp⟩
  have hr : pml4RecursiveEntryNum < 512 := by decide
  simp only [List.forall_mem_cons]
  exact ⟨canonical_getAddr hr hi hj hk hl, canonical_getAddr hr hr hi hj hl,
    canonical_getAddr hr hr hr hi hl, fun _ h => absurd h List.not_mem_nil⟩

/-- A PML4 in frame 5 with one table at each lower level, in the frames 6, 7 and 8. -/
def treeMmu : Mmu :=
  { bareMmu with
    mem := set (set (set bareMmu.mem 5 1 0x6007) 6 2 0x7007) 7 3 0x8007 }

theorem recursive_window_treeMmu :
    treeMmu.physicalAddress (getAddrFromTableIndexes 511 1 2 3 + 8 * 4) = some 0x8020 ∧
      Canonical (getAddrFromTableIndexes 511 1 2 3 + 8 * 4) := by
  have h := (recursive_window treeMmu (by decide)).1 1 2 3 4 (by decide) (by decide) (by decide)
    (by decide)
  exact ⟨h.1.table 8 (by decide), h.2 _ (List.mem_cons_self ..)⟩

end Mmu

end BiosKernel
