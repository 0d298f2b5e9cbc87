import IndexGraph.Network
import IndexGraph.Proofs.Reach
import Mathlib.Algebra.Order.BigOperators.Group.Finset
import Mathlib.Data.Finset.Union
import Mathlib.Data.Int.Interval
import Mathlib.Data.Set.Finite.Lattice

/-
  Finite regions that no edge leaves: that is where the searches end. What a vertex reaches is
  one, if it is finite (`exists_region`). In a network it always is: only the vertices from 0
  to `extent` have successors (`finite_reaches`), and the lists of successors have at most
  `successorBound` entries in all (`sum_length_successors_le`).
-/

namespace IndexGraph

/-- No edge leads out of `region`. -/
def Closed (succ : Int → List Int) (region : Finset Int) : Prop :=
  ∀ u ∈ region, ∀ v ∈ succ u, v ∈ region

theorem exists_region {succ : Int → List Int} {start : Int}
    (hfin : {v | Reaches succ start v}.Finite) :
    ∃ region : Finset Int, Closed succ region ∧ ∀ v, v ∈ region ↔ Reaches succ start v := by
  have hmem : ∀ v, v ∈ hfin.toFinset ↔ Reaches succ start v := fun v => hfin.mem_toFinset
  refine ⟨hfin.toFinset, fun u hu v hv => ?_, hmem⟩
  rw [hmem] at hu ⊢
  exact hu.tail hv

namespace Network

variable (g : Network)

/-- A vertex that has successors lies below the bound. -/
theorem in_extent_of_mem_successors {u v : Int} (h : v ∈ g.successors u) :
    0 ≤ u ∧ u < g.extent := by
  by_contra hout
  rw [g.successors_eq_nil u (by omega)] at h
  exact absurd h List.not_mem_nil

theorem finite_reaches (start : Int) : {v | Reaches g.successors start v}.Finite := by
  let span : Finset Int :=
    (Finset.Ico 0 (g.extent : Int)).biUnion fun u => (g.successors u).toFinset
  refine (insert start span).finite_toSet.subset fun v hv => ?_
  have hv : Reaches g.successors start v := hv
  rw [Finset.mem_coe, Finset.mem_insert, Finset.mem_biUnion]
  cases hv with
  | refl => exact .inl rfl
  | @tail u _ _ he =>
    exact .inr ⟨u, Finset.mem_Ico.2 (g.in_extent_of_mem_successors he), List.mem_toFinset.2 he⟩

theorem sum_length_successors_le (s : Finset Int) :
    ∑ v ∈ s, (g.successors v).length ≤ g.successorBound := by
  have hzero : ∀ v ∈ s, v ∉ s ∩ Finset.Ico (0 : Int) g.extent → (g.successors v).length = 0 := by
    intro v hv hout
    rw [List.length_eq_zero_iff, List.eq_nil_iff_forall_not_mem]
    intro c hc
    exact hout (Finset.mem_inter.2 ⟨hv, Finset.mem_Ico.2 (g.in_extent_of_mem_successors hc)⟩)
  have hcard : (s ∩ Finset.Ico (0 : Int) g.extent).card ≤ g.extent := by
    have hsub : s ∩ Finset.Ico (0 : Int) g.extent ⊆ Finset.Ico (0 : Int) g.extent :=
      Finset.inter_subset_right
    simpa using Finset.card_le_card hsub
  calc ∑ v ∈ s, (g.successors v).length
      = ∑ v ∈ s ∩ Finset.Ico (0 : Int) g.extent, (g.successors v).length :=
        (Finset.sum_subset Finset.inter_subset_left hzero).symm
    _ ≤ (s ∩ Finset.Ico (0 : Int) g.extent).card * g.width :=
        Finset.sum_le_card_nsmul _ _ _ fun v _ => g.length_successors_le v
    _ ≤ g.successorBound := Nat.mul_le_mul_right _ hcard

end Network

end IndexGraph
