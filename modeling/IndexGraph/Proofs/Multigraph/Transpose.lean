import IndexGraph.Proofs.EdgeLog
import Mathlib.Data.List.Induction
import Mathlib.Data.List.Perm.Basic

/-
  Transposing a multigraph once, twice and four times. A transpose is built from nothing but the
  number of vertices and the list of edges, in the order in which `edges` goes through them
  (`transpose_eq_build`); and what is built from a list has these edges and no others
  (`EdgeLog.perm_edges`).
  As `edges` goes by increasing source, the transpose gives each vertex its sources in this order,
  and a vertex tells the latest first; so the edges of a transpose are `Rowwise`, by increasing
  source and, for one source, by falling end. Only one list of given edges is. Hence the edges of a
  transpose hang on how often each edge occurs in the graph alone, and the second transpose hangs on
  no more than this and the number of vertices (`transpose_transpose_congr`). The second transpose
  has the edges of the graph again, and so its own second transpose is what it is itself.
-/

namespace IndexGraph

namespace EdgeLog

theorem lt_span {rows : List (Nat × Nat)} {row : Nat × Nat} (h : row ∈ rows) :
    row.1 < span rows ∧ row.2 < span rows := by
  induction rows with
  | nil => exact absurd h List.not_mem_nil
  | cons first rows ih =>
    unfold span at ih ⊢
    rw [List.foldr_cons]
    rcases List.mem_cons.1 h with rfl | h
    · omega
    · have := ih h
      omega

theorem span_le {rows : List (Nat × Nat)} {n : Nat} (h : ∀ row ∈ rows, row.1 < n ∧ row.2 < n) :
    span rows ≤ n := by
  induction rows with
  | nil => exact Nat.zero_le n
  | cons first rows ih =>
    obtain ⟨hfirst, hrows⟩ := List.forall_mem_cons.1 h
    have hle := ih hrows
    unfold span at hle ⊢
    rw [List.foldr_cons]
    omega

/-- The targets of the rows with source `v`, the latest first. -/
theorem map_fst_arcsFrom (l : EdgeLog) (v : Int) :
    (l.arcsFrom v).map Prod.fst =
      ((l.rows.filter fun row => decide (v = row.1)).map Prod.snd).reverse := by
  obtain ⟨capacity, rows⟩ := l
  induction rows using List.reverseRecOn with
  | nil => rfl
  | append_singleton rows row ih =>
    have hsnoc := arcsFrom_snoc ⟨capacity, rows⟩ row.1 row.2 v
    dsimp only at hsnoc ih ⊢
    rw [hsnoc, List.filter_append, List.map_append, List.reverse_append]
    by_cases hv : v = row.1
    · subst hv
      simp [ih]
    · simp [hv, ih]

/-- Sorting rows by their source keeps each of them. -/
theorem perm_flatMap_filter (rows : List (Nat × Nat)) (n : Nat) :
    ((List.range n).flatMap fun v => rows.filter fun row => decide (row.1 = v)).Perm
      (rows.filter fun row => decide (row.1 < n)) := by
  induction n with
  | zero => simp
  | succ n ih =>
    rw [List.range_succ, List.flatMap_append, List.flatMap_singleton]
    refine (ih.append_right _).trans ?_
    have hsplit := List.filter_append_perm (fun row => decide (row.1 < n))
      (rows.filter fun row => decide (row.1 < n + 1))
    rw [List.filter_filter, List.filter_filter] at hsplit
    have hlow : (fun row : Nat × Nat => decide (row.1 < n) && decide (row.1 < n + 1)) =
        fun row => decide (row.1 < n) := by
      funext row
      rw [← Bool.decide_and, decide_eq_decide]
      omega
    have hlast : (fun row : Nat × Nat => !decide (row.1 < n) && decide (row.1 < n + 1)) =
        fun row => decide (row.1 = n) := by
      funext row
      rw [← decide_not, ← Bool.decide_and, decide_eq_decide]
      omega
    rwa [hlow, hlast] at hsplit

/-- The edges are the rows, in another order. -/
theorem perm_edges (l : EdgeLog) : l.edges.Perm l.rows := by
  have hrow : ∀ v : Nat, (l.arcsFrom v).map (fun arc => (v, arc.1)) =
      (l.rows.filter fun row => decide (row.1 = v)).reverse := by
    intro v
    have hmap := congrArg (List.map fun c => (v, c)) (l.map_fst_arcsFrom v)
    rw [List.map_map, List.map_reverse, List.map_map] at hmap
    refine hmap.trans (congrArg List.reverse ?_)
    have hfilter : (fun row : Nat × Nat => decide ((v : Int) = row.1)) =
        fun row => decide (row.1 = v) := by
      funext row
      rw [decide_eq_decide]
      omega
    rw [hfilter]
    refine (List.map_congr_left fun row hrow => ?_).trans (List.map_id _)
    have hv : row.1 = v := of_decide_eq_true (List.mem_filter.1 hrow).2
    show (v, row.2) = row
    rw [← hv]
  unfold edges
  simp only [hrow]
  refine (List.Perm.flatMap_left _ fun v _ => List.reverse_perm _).trans ?_
  refine (perm_flatMap_filter l.rows l.vertexCount).trans (.of_eq ?_)
  refine List.filter_eq_self.2 fun row hrow => decide_eq_true ?_
  exact Nat.lt_of_lt_of_le (lt_span hrow).1 (Nat.le_max_right _ _)

end EdgeLog

namespace Multigraph

variable {g h : Multigraph} {l : EdgeLog}

/-! ## Building a graph -/

/-- The listed edges, inserted in turn where there is room for `n` vertices at first. -/
def build (n : Nat) (rows : List (Nat × Nat)) : Multigraph :=
  rows.foldl (fun g row => g.push row.1 row.2) (ofCount n)

theorem logged_foldl_push (n : Nat) (rows : List (Nat × Nat)) :
    ∀ (g : Multigraph) (done : List (Nat × Nat)), Logged g ⟨n, done⟩ →
      Logged (rows.foldl (fun g row => g.push row.1 row.2) g) ⟨n, done ++ rows⟩ := by
  induction rows with
  | nil =>
    intro g done h
    rwa [List.append_nil]
  | cons row rows ih =>
    intro g done h
    have happend : done ++ row :: rows = (done ++ [row]) ++ rows := by simp
    rw [happend]
    exact ih _ _ (h.push row.1 row.2)

/-- The built graph is the list. -/
theorem logged_build (n : Nat) (rows : List (Nat × Nat)) : Logged (build n rows) ⟨n, rows⟩ :=
  logged_foldl_push n rows _ [] (logged_ofCount n)

theorem transpose_eq_build (g : Multigraph) :
    g.transpose = build g.vertexCount (g.edges.map Prod.swap) := by
  unfold transpose build
  rw [List.foldl_map]
  rfl

theorem Logged.perm_edges (h : Logged g l) : g.edges.Perm l.rows := by
  rw [h.edges_eq]
  exact l.perm_edges

/-! ## One transpose -/

/-- The edges are those of the graph, turned round. -/
theorem perm_edges_transpose (g : Multigraph) :
    g.transpose.edges.Perm (g.edges.map Prod.swap) := by
  rw [transpose_eq_build]
  exact (logged_build _ _).perm_edges

theorem vertexCount_transpose (g : Multigraph) : g.transpose.vertexCount = g.vertexCount := by
  rw [transpose_eq_build, (logged_build _ _).vertexCount_eq]
  refine Nat.max_eq_left (EdgeLog.span_le fun row hrow => ?_)
  obtain ⟨⟨v, c⟩, hmem, rfl⟩ := List.mem_map.1 hrow
  have hc := mem_edges.1 hmem
  exact ⟨lt_of_mem_successors hc, source_lt_of_mem_successors hc⟩

theorem edgeCount_transpose (h : Logged g l) : g.transpose.edgeCount = g.edgeCount := by
  rw [transpose_eq_build, (logged_build _ _).edgeCount_eq, h.edgeCount_eq, List.length_map]
  exact h.perm_edges.length_eq

/-- A vertex of the transpose tells the sources of its edges, the last one of the list first. -/
theorem successors_transpose (g : Multigraph) (v : Int) :
    g.transpose.successors v =
      ((g.edges.filter fun e => decide (v = e.2)).map Prod.fst).reverse := by
  rw [transpose_eq_build, successors, (logged_build _ _).arcsFrom_eq, EdgeLog.map_fst_arcsFrom,
    List.filter_map, List.map_map]
  rfl

/-- How `edges` orders the edges. -/
theorem pairwise_edges {R : Nat × Nat → Nat × Nat → Prop}
    (hsame : ∀ v : Nat, (g.successors v).Pairwise fun c d => R (v, c) (v, d))
    (hlater : ∀ v w c d, v < w → R (v, c) (w, d)) : g.edges.Pairwise R := by
  refine List.pairwise_flatMap.2 ⟨fun v _ => List.pairwise_map.2 (hsame v), ?_⟩
  refine List.pairwise_lt_range.imp fun hvw x hx y hy => ?_
  obtain ⟨c, _, rfl⟩ := List.mem_map.1 hx
  obtain ⟨d, _, rfl⟩ := List.mem_map.1 hy
  exact hlater _ _ c d hvw

/-- The sources come in falling order. -/
theorem pairwise_successors_transpose (g : Multigraph) (v : Int) :
    (g.transpose.successors v).Pairwise (· ≥ ·) := by
  have hsources : g.edges.Pairwise fun a b => a.1 ≤ b.1 :=
    pairwise_edges (fun v => List.pairwise_of_forall fun _ _ => Nat.le_refl v)
      fun _ _ _ _ hlt => Nat.le_of_lt hlt
  rw [successors_transpose, List.pairwise_reverse, List.pairwise_map]
  exact hsources.filter _

/-! ## More than one transpose -/

/-- By increasing source and, for one source, by falling end. -/
def Rowwise (a b : Nat × Nat) : Prop := a.1 < b.1 ∨ a.1 = b.1 ∧ b.2 ≤ a.2

theorem Rowwise.antisymm {a b : Nat × Nat} (h : Rowwise a b) (h' : Rowwise b a) : a = b := by
  unfold Rowwise at h h'
  apply Prod.ext <;> omega

theorem pairwise_edges_transpose (g : Multigraph) : g.transpose.edges.Pairwise Rowwise := by
  apply pairwise_edges
  · exact fun v => (g.pairwise_successors_transpose v).imp fun hcd => .inr ⟨rfl, hcd⟩
  · exact fun v w c d hlt => .inl hlt

/-- The edges of a transpose do not hang on the order of the edges. -/
theorem edges_transpose_congr (hedges : g.edges.Perm h.edges) :
    g.transpose.edges = h.transpose.edges := by
  have hperm := (g.perm_edges_transpose.trans (hedges.map Prod.swap)).trans
    h.perm_edges_transpose.symm
  exact hperm.eq_of_pairwise (fun _ _ _ _ => Rowwise.antisymm) g.pairwise_edges_transpose
    h.pairwise_edges_transpose

/-- The second transpose hangs on the number of vertices and the edges, in whatever order. -/
theorem transpose_transpose_congr (hcount : g.vertexCount = h.vertexCount)
    (hedges : g.edges.Perm h.edges) : g.transpose.transpose = h.transpose.transpose := by
  rw [transpose_eq_build, transpose_eq_build h.transpose, vertexCount_transpose,
    vertexCount_transpose, hcount, edges_transpose_congr hedges]

theorem perm_edges_transpose_transpose (g : Multigraph) :
    g.transpose.transpose.edges.Perm g.edges := by
  have h := g.transpose.perm_edges_transpose.trans (g.perm_edges_transpose.map Prod.swap)
  rwa [List.map_map, Prod.swap_swap_eq, List.map_id] at h

/-- For every room to begin with that can be had and every list of insertions, the edges of the
graph being those that were not refused: the transpose has as many vertices and edges, and tells
for each vertex the sources of the edges that end there, in falling order; so its edges are those
of the graph, turned round. The second transpose has the edges of the graph, and is its own second
transpose. -/
theorem transpose_stabilises (capacity : Int) (g₀ : Multigraph) (calls : List (Int × Int))
    (hg₀ : ofCapacity capacity = .ok g₀) :
    let given := answers answer g₀ calls
    let g := given.2
    let h := g.transpose.transpose
    (g.edges.map fun e => ((e.1 : Int), (e.2 : Int))).Perm (EdgeLog.accepted calls given.1) ∧
      g.transpose.vertexCount = g.vertexCount ∧ g.transpose.edgeCount = g.edgeCount ∧
      (∀ v : Int, (g.transpose.successors v).Pairwise (· ≥ ·) ∧
        (g.transpose.successors v).Perm
          ((g.edges.filter fun e => decide (v = e.2)).map Prod.fst)) ∧
      g.transpose.edges.Perm (g.edges.map Prod.swap) ∧
      h.transpose.transpose = h ∧ h.edges.Perm g.edges := by
  intro given g h
  obtain ⟨n, rfl⟩ : ∃ n, g₀ = ofCount n := by
    unfold ofCapacity at hg₀
    split at hg₀
    · exact ⟨_, (Except.ok.inj hg₀).symm⟩
    · cases hg₀
  obtain ⟨hgiven, hlogged⟩ := answers_agree insert_agrees calls _ _ (logged_ofCount n)
  obtain ⟨_, hrows⟩ := EdgeLog.rows_answers calls ⟨n, []⟩
  have hedges : h.edges.Perm g.edges := perm_edges_transpose_transpose g
  refine ⟨?_, vertexCount_transpose g, edgeCount_transpose hlogged, fun v => ⟨?_, ?_⟩,
    perm_edges_transpose g, ?_, hedges⟩
  · have hperm := hlogged.perm_edges.map fun e => ((e.1 : Int), (e.2 : Int))
    rwa [hrows, ← hgiven] at hperm
  · exact pairwise_successors_transpose g v
  · rw [successors_transpose]
    exact List.reverse_perm _
  · refine transpose_transpose_congr ?_ hedges
    rw [vertexCount_transpose, vertexCount_transpose]

/-- Two parallel edges and a loop end at vertex 1; the third insertion is refused. The second
transpose is not the graph itself. -/
theorem transpose_stabilises_parallel :
    let g := (answers answer (ofCount 2) [(0, 1), (1, 1), (2, -1), (0, 1), (2, 0)]).2
    let h := g.transpose.transpose
    g.transpose.successors 1 = [1, 0, 0] ∧ g.transpose.edges.Perm (g.edges.map Prod.swap) ∧
      h ≠ g ∧ h.transpose.transpose = h ∧ h.edges.Perm g.edges := by
  intro g h
  obtain ⟨_, _, _, _, hturned, htwice, hedges⟩ := transpose_stabilises 2 (ofCount 2)
    [(0, 1), (1, 1), (2, -1), (0, 1), (2, 0)] rfl
  exact ⟨by decide +kernel, hturned, by decide +kernel, htwice, hedges⟩

end Multigraph

end IndexGraph
