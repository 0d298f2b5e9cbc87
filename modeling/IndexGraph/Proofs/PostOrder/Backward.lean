import IndexGraph.Proofs.PostOrder
import IndexGraph.Proofs.Topological

/-
  Which way the edges run in post-order. The recursive search reports the end of an edge before its
  source, unless the end is still active when the edge is tried: then the source is reported during
  the search that the end began, so the end reaches it (`Explores.edge_cases`). On the stack of the
  walk stale copies lie between the active vertices; they do not matter here, as the walk reports
  what the recursive search reports. Without a cycle only the first case is left, and the
  post-order read backwards is a topological order (`Explores.inTopologicalOrder_reverse`).
-/

namespace IndexGraph

variable {succ : Int → List Int} {start u v : Int} {order : List Int} {found : Finset Int}

/-- No vertex that `start` reaches lies on a cycle. -/
def AcyclicFrom (succ : Int → List Int) (start : Int) : Prop :=
  ∀ v, Reaches succ start v → ¬ OnCycle succ v

/-- Of every edge the end is listed before the source, or there is a path back to the source. -/
def Backward (succ : Int → List Int) (start : Int) (order : List Int) : Prop :=
  ∀ u v, Reaches succ start u → v ∈ succ u → [v, u].Sublist order ∨ Reaches succ v u

/-- The vertices that `start` reaches are listed once each, the source of every edge before its
end. -/
structure InTopologicalOrder (succ : Int → List Int) (start : Int) (order : List Int) : Prop where
  nodup : order.Nodup
  mem_iff : ∀ v, v ∈ order ↔ Reaches succ start v
  edge : ∀ u v, Reaches succ start u → v ∈ succ u → [u, v].Sublist order

namespace AcyclicFrom

theorem not_reaches (h : AcyclicFrom succ start) (hu : Reaches succ start u) (he : v ∈ succ u) :
    ¬ Reaches succ v u := fun hback => h u hu (Relation.TransGen.head' he hback)

/-- There is no cycle where every edge leads to a larger vertex. -/
theorem of_lt (h : ∀ u v, v ∈ succ u → u < v) (start : Int) : AcyclicFrom succ start := by
  have hlt : ∀ u v, Relation.TransGen (fun a b => b ∈ succ a) u v → u < v := by
    intro u v huv
    induction huv with
    | single he => exact h _ _ he
    | tail _ he ih => exact ih.trans (h _ _ he)
  exact fun v _ hcycle => lt_irrefl v (hlt v v hcycle)

end AcyclicFrom

namespace Explores

variable (h : Explores succ ∅ [start] found order)
include h

theorem backward : Backward succ start order := fun u v hu he =>
  (h.edge_cases u (h.mem_out_iff.2 hu) v he).resolve_left (Finset.notMem_empty v)

theorem inTopologicalOrder_reverse (hacyclic : AcyclicFrom succ start) :
    InTopologicalOrder succ start order.reverse := by
  refine ⟨List.nodup_reverse.2 h.nodup, fun v => List.mem_reverse.trans h.mem_out_iff,
    fun u v hu he => ?_⟩
  have hback := (h.backward u v hu he).resolve_right (hacyclic.not_reaches hu he)
  exact List.reverse_sublist.2 hback

end Explores

/-- On every graph in which finitely many vertices are reached from the start, none of them
negative, the walk reports each of these vertices once, the end of every edge before the source if
it does not reach the source; so backwards this is a topological order, if there is no cycle. Only
where there may be no room for the flag of a reached vertex the walk can be refused. -/
theorem postOrder_backward (succ : Int → List Int) (start : Int)
    (hfin : {v | Reaches succ start v}.Finite) (hpos : ∀ v, Reaches succ start v → 0 ≤ v) :
    ∃ order, order.Nodup ∧ (∀ v, v ∈ order ↔ Reaches succ start v) ∧
      Backward succ start order ∧
      (AcyclicFrom succ start → InTopologicalOrder succ start order.reverse) ∧
      (∃ r bound, Answered order r ∧ ∀ fuel k, bound < fuel → bound < k →
        (Reply.drain (PostOrderWalk.next succ fuel) k (.startAt start)).result = r) ∧
      ∀ g : Network, g.successors = succ → Answered order (g.postOrder start) := by
  obtain ⟨found, order, h⟩ := exists_explores_from hfin
  refine ⟨order, h.nodup, fun v => h.mem_out_iff, h.backward, h.inTopologicalOrder_reverse,
    PostOrderWalk.exists_bound hfin hpos h, fun g hg => ?_⟩
  subst hg
  exact g.postOrder_answered hpos h

/-- The edge from 2 to 1 closes a cycle, and 1 is reported after 2. Without it the post-order is the
same and backwards a topological order. -/
theorem postOrder_backward_closing :
    let m := (((Multigraph.ofCount 4).push 0 1).push 1 2).push 1 3
    let g := Network.ofMultigraph m
    let h := Network.ofMultigraph (m.push 2 1)
    h.postOrder 0 = .ok [2, 3, 1, 0] ∧ Backward h.successors 0 [2, 3, 1, 0] ∧
      g.postOrder 0 = .ok [2, 3, 1, 0] ∧ InTopologicalOrder g.successors 0 [0, 1, 3, 2] := by
  intro m g h
  have hpos : ∀ (m : Multigraph) (v : Int),
      Reaches (Network.ofMultigraph m).successors 0 v → 0 ≤ v := by
    intro m v hv
    cases hv with
    | refl => exact Int.le_refl 0
    | tail _ he =>
      obtain ⟨c, _, rfl⟩ := List.mem_map.1 he
      exact Int.natCast_nonneg c
  have hcall : h.postOrder 0 = .ok [2, 3, 1, 0] := by decide +kernel
  have hcall' : g.postOrder 0 = .ok [2, 3, 1, 0] := by decide +kernel
  have hacyclic : AcyclicFrom g.successors 0 := by
    refine AcyclicFrom.of_lt (fun u v he => ?_) 0
    obtain ⟨h0, hn⟩ := g.in_extent_of_mem_successors he
    obtain ⟨k, rfl⟩ := Int.eq_ofNat_of_zero_le h0
    have hrows : ∀ k : Fin 4, ∀ v ∈ g.successors (k : Nat), ((k : Nat) : Int) < v := by
      decide +kernel
    have hk : (k : Int) < 4 := hn
    exact hrows ⟨k, by omega⟩ v he
  obtain ⟨order, _, _, hback, _, _, hnetwork⟩ :=
    postOrder_backward h.successors 0 (h.finite_reaches 0) (hpos _)
  obtain ⟨order', _, _, _, hsorted, _, hnetwork'⟩ :=
    postOrder_backward g.successors 0 (g.finite_reaches 0) (hpos _)
  have horder := hnetwork h rfl
  have horder' := hnetwork' g rfl
  rw [hcall] at horder
  rw [hcall'] at horder'
  rcases horder with hok | ⟨_, k, herror⟩
  · rcases horder' with hok' | ⟨_, k, herror⟩
    · cases hok
      cases hok'
      exact ⟨hcall, hback, hcall', hsorted hacyclic⟩
    · cases herror
  · cases herror

/-- The end of the only edge is vertex `2 ^ 63`. It does not reach the source, and is not reported
before it, as a flag for it cannot be had. -/
theorem postOrder_edge_eq_lengthRange :
    let g := Network.ofTables 1 1 #[[9223372036854775808]] #[] #[]
    9223372036854775808 ∈ g.successors 0 ∧ ¬ Reaches g.successors 9223372036854775808 0 ∧
      g.postOrder 0 = .error .lengthRange := by
  intro g
  have hnone : g.successors 9223372036854775808 = [] :=
    g.successors_eq_nil _ (.inr (by decide))
  refine ⟨by decide, fun hback => ?_, by decide +kernel⟩
  cases (Reaches.iff_of_eq_nil hnone).1 hback

end IndexGraph
