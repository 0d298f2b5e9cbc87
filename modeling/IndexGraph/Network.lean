import IndexGraph.Multigraph
import IndexGraph.Weight
import IndexGraph.WeightMatrix

/-
  What the searches ask of a graph, however it is stored. A vertex outside the graph is no error:
  it has no neighbours. A network may be inconsistent: its counts are what it claims, and its
  predecessors need not mirror its successors. But it is finite, and knows bounds that say so:
  edges leave only the vertices below `extent`, and at most `width` successors each. From these
  a search can tell beforehand when it must have ended.
-/

namespace IndexGraph

/-- A graph as the searches see it. -/
structure Network where
  /-- One more than the largest usable vertex. -/
  vertexCount : Int
  /-- The number of edges. -/
  arcCount : Int
  /-- The ends of the edges that leave a vertex, one for each edge. -/
  successors : Int → List Int
  /-- The sources of the edges that enter a vertex, one for each edge. -/
  predecessors : Int → List Int
  /-- The ends of the edges that leave a vertex, each with what the edge carries. -/
  arcsFrom : Int → List (Int × Option Weight)
  /-- Vertices from here on, and negative ones, have no edges that leave them. -/
  extent : Nat
  /-- No vertex has more successors. -/
  width : Nat
  successors_eq_nil : ∀ v : Int, v < 0 ∨ (extent : Int) ≤ v → successors v = []
  arcsFrom_eq_nil : ∀ v : Int, v < 0 ∨ (extent : Int) ≤ v → arcsFrom v = []
  length_successors_le : ∀ v : Int, (successors v).length ≤ width

namespace Network

/-- A bound on the number of entries in all lists of successors. -/
def successorBound (g : Network) : Nat := g.extent * g.width

/-- The number of entries in all lists of edges. -/
def arcTotal (g : Network) : Nat :=
  (List.range g.extent).foldl (fun total (v : Nat) => total + (g.arcsFrom v).length) 0

/-- A multigraph; its edges carry their numbers, and its predecessors are the successors of
its transpose, which is made when it is first asked for. -/
def ofMultigraph (g : Multigraph) : Network :=
  let back : Thunk Multigraph := Thunk.mk fun _ => g.transpose
  { vertexCount := g.vertexCount
    arcCount := g.edgeCount
    successors := fun v => (g.successors v).map fun (c : Nat) => (c : Int)
    predecessors := fun v => (back.get.successors v).map fun (p : Nat) => (p : Int)
    arcsFrom := fun v => (g.arcsFrom v).map fun (c, e) => ((c : Int), some (.whole e))
    extent := g.vertexCount
    width := g.edgeCount
    successors_eq_nil := by
      intro v h
      simp [Multigraph.successors, g.arcsFrom_eq_nil h]
    arcsFrom_eq_nil := by
      intro v h
      simp [g.arcsFrom_eq_nil h]
    length_successors_le := by
      intro v
      simpa [Multigraph.successors] using g.length_arcsFrom_le v }

/-- The successors in a weight matrix; a scan that is refused reads as an empty one. -/
def rowOf (m : WeightMatrix Weight) (v : Int) : List (Nat × Weight) :=
  (m.arcsFrom v).toOption.getD []

/-- A weight matrix. -/
def ofMatrix (m : WeightMatrix Weight) : Network where
  vertexCount := m.capacity
  arcCount := m.edgeCount
  successors v := (rowOf m v).map fun (c, _) => (c : Int)
  predecessors v := ((m.predecessors v).toOption.getD []).map fun (p : Nat) => (p : Int)
  arcsFrom v := (rowOf m v).map fun (c, w) => ((c : Int), some w)
  extent := m.capacity
  width := m.capacity
  successors_eq_nil := by
    intro v h
    rw [rowOf, m.arcsFrom_eq_nil h]
    rfl
  arcsFrom_eq_nil := by
    intro v h
    rw [rowOf, m.arcsFrom_eq_nil h]
    rfl
  length_successors_le := by
    intro v
    simpa [rowOf] using m.length_arcsFrom_le v

/-- Row `v` of a table; there are no rows outside it. -/
def row {α : Type} (rows : Array (List α)) (v : Int) : List α :=
  if v < 0 then [] else (rows[v.toNat]?).getD []

/-- The length of the longest row of a table. -/
def longest {α : Type} (rows : Array (List α)) : Nat :=
  rows.foldl (fun width row => max width row.length) 0

theorem row_eq_nil {α : Type} (rows : Array (List α)) {v : Int} {n : Nat} (hn : rows.size ≤ n)
    (h : v < 0 ∨ (n : Int) ≤ v) : row rows v = [] := by
  unfold row
  split
  · rfl
  · rw [Array.getElem?_eq_none (by omega)]
    rfl

theorem row_empty {α : Type} (v : Int) : row (#[] : Array (List α)) v = [] :=
  row_eq_nil #[] (Nat.le_refl 0) (by omega)

theorem length_le_foldl_max {α : Type} (rows : List (List α)) (start : Nat) :
    start ≤ rows.foldl (fun width row => max width row.length) start ∧
      ∀ row ∈ rows, row.length ≤ rows.foldl (fun width row => max width row.length) start := by
  induction rows generalizing start with
  | nil => exact ⟨Nat.le_refl _, fun row h => by cases h⟩
  | cons first rows ih =>
    obtain ⟨hstart, hrows⟩ := ih (max start first.length)
    rw [List.foldl_cons]
    refine ⟨by omega, fun row h => ?_⟩
    rcases List.mem_cons.1 h with h | h
    · subst h
      omega
    · exact hrows row h

theorem length_row_le {α : Type} (rows : Array (List α)) (v : Int) :
    (row rows v).length ≤ longest rows := by
  unfold row
  split
  · exact Nat.zero_le _
  · cases h : rows[v.toNat]? with
    | none => exact Nat.zero_le _
    | some r =>
      rw [longest, ← Array.foldl_toList]
      have hr : r ∈ rows.toList := Array.mem_toList_iff.2 (Array.mem_of_getElem? h)
      exact (length_le_foldl_max rows.toList 0).2 r hr

/-- A network given by tables, with the counts it claims. -/
def ofTables (vertexCount arcCount : Int) (successors predecessors : Array (List Int))
    (arcsFrom : Array (List (Int × Option Weight))) : Network where
  vertexCount := vertexCount
  arcCount := arcCount
  successors := row successors
  predecessors := row predecessors
  arcsFrom := row arcsFrom
  extent := max successors.size arcsFrom.size
  width := longest successors
  successors_eq_nil := fun _ h => row_eq_nil successors (Nat.le_max_left ..) h
  arcsFrom_eq_nil := fun _ h => row_eq_nil arcsFrom (Nat.le_max_right ..) h
  length_successors_le := length_row_le successors

end Network

end IndexGraph
