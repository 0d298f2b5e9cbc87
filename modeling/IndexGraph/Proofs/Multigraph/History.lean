import IndexGraph.Proofs.Multigraph.Transpose

/-
  Multigraphs are equal exactly if they have had the same history: as many vertices, and the same
  insertions that were not refused, in the same order.
  A graph is built from its log (`exists_rows`). The room that there was at first, and when it
  was extended, leave no trace but the number of vertices: graphs with the same edges and the same
  first edge of each chain stay so when an edge is added to both (`Alike.push`), and are equal as
  soon as they have the same number of vertices (`Alike.eq`). The other way round the log is read
  off the arrays. None of them holds the source of an edge, but each edge is in the chain of one
  vertex only, and that is its source (`Logged.ends?_eq`).
-/

namespace IndexGraph

theorem EdgeLog.mem_arcsFrom {l : EdgeLog} {v : Int} {c e : Nat} :
    (c, e) ∈ l.arcsFrom v ↔ ∃ s : Nat, v = s ∧ l.rows[e]? = some (s, c) := by
  unfold arcsFrom
  rw [List.mem_reverse, List.mem_filterMap]
  constructor
  · intro hex
    obtain ⟨⟨row, k⟩, hmem, hrow⟩ := hex
    rw [List.mem_zipIdx_iff_getElem?] at hmem
    dsimp only at hmem hrow
    split at hrow
    · rename_i hv
      cases hrow
      exact ⟨row.1, hv, hmem⟩
    · cases hrow
  · intro hex
    obtain ⟨s, rfl, hrow⟩ := hex
    exact ⟨((s, c), e), List.mem_zipIdx_iff_getElem?.2 hrow, if_pos rfl⟩

namespace Multigraph

variable {g h : Multigraph} {l : EdgeLog}

/-! ## The log gives the graph -/

/-- The same edges, and the same first edge of each chain; there may be room for more vertices in
one graph than in the other. -/
structure Alike (g h : Multigraph) : Prop where
  older_eq : g.older = h.older
  target_eq : g.target = h.target
  first_eq : ∀ v : Nat, (g.head[v]?).join = (h.head[v]?).join

theorem alike_ofCount (m n : Nat) : Alike (ofCount m) (ofCount n) := by
  have hnone : ∀ k v : Nat, ((ofCount k).head[v]?).join = none := by
    intro k v
    show ((Array.replicate k (none : Option Nat))[v]?).join = none
    rw [Array.getElem?_replicate]
    split <;> rfl
  exact ⟨rfl, rfl, fun v => (hnone m v).trans (hnone n v).symm⟩

namespace Alike

theorem push (ha : Alike g h) (s t : Nat) : Alike (g.push s t) (h.push s t) := by
  have hcount : g.edgeCount = h.edgeCount := congrArg Array.size ha.target_eq
  refine ⟨?_, ?_, fun v => ?_⟩
  · rw [older_push, older_push, ha.older_eq, ha.first_eq]
  · rw [target_push, target_push, ha.target_eq]
  · rw [getElem?_head_push, getElem?_head_push, hcount, ha.first_eq]

theorem foldl_push (rows : List (Nat × Nat)) : ∀ g h : Multigraph, Alike g h →
    Alike (rows.foldl (fun g row => g.push row.1 row.2) g)
      (rows.foldl (fun g row => g.push row.1 row.2) h) := by
  induction rows with
  | nil => exact fun g h ha => ha
  | cons row rows ih => exact fun g h ha => ih _ _ (ha.push row.1 row.2)

theorem eq (ha : Alike g h) (hcount : g.vertexCount = h.vertexCount) : g = h := by
  have hhead : g.head = h.head := by
    refine Array.ext hcount fun v hg hh => ?_
    have hfirst := ha.first_eq v
    rwa [Array.getElem?_eq_getElem hg, Array.getElem?_eq_getElem hh] at hfirst
  obtain ⟨head, older, target, _, _, _, _⟩ := g
  obtain ⟨head', older', target', _, _, _, _⟩ := h
  obtain rfl : head = head' := hhead
  obtain rfl : older = older' := ha.older_eq
  obtain rfl : target = target' := ha.target_eq
  rfl

end Alike

/-- The graph is what the rows of the log make, one after the other. -/
def Built (g : Multigraph) (l : EdgeLog) : Prop := g = build l.capacity l.rows

theorem Built.logged (hg : Built g l) : Logged g l := by
  rw [hg]
  exact logged_build l.capacity l.rows

theorem Built.push (hg : Built g l) (s t : Nat) :
    Built (g.push s t) { l with rows := l.rows ++ [(s, t)] } := by
  unfold Built build at hg ⊢
  rw [hg, List.foldl_append]
  rfl

theorem insert_built (g : Multigraph) (l : EdgeLog) (ends : Int × Int) (hg : Built g l) :
    Agrees Built (g.answer ends) (l.answer ends) := by
  unfold answer EdgeLog.answer insert EdgeLog.insert
  rw [hg.logged.vertexCount_eq, hg.logged.edgeCount_eq]
  split
  · exact .fail hg _
  · split
    · exact .done (hg.push _ _) _
    · exact .fail hg _

/-- After any insertions the graph is built from the log. -/
theorem exists_rows (n : Nat) (calls : List (Int × Int)) :
    ∃ rows : List (Nat × Nat), (answers answer (ofCount n) calls).2 = build n rows ∧
      EdgeLog.accepted calls (answers answer (ofCount n) calls).1 =
        rows.map fun row => ((row.1 : Int), (row.2 : Int)) := by
  have hstart : Built (ofCount n) ⟨n, []⟩ := rfl
  obtain ⟨hgiven, hbuilt⟩ := answers_agree insert_built calls _ _ hstart
  obtain ⟨hcapacity, hrows⟩ := EdgeLog.rows_answers calls ⟨n, []⟩
  unfold Built at hbuilt
  rw [hcapacity] at hbuilt
  exact ⟨_, hbuilt, hgiven ▸ hrows.symm⟩

/-! ## The graph gives the log -/

/-- The ends of the edge with number `e`: the vertex in whose chain it is, and its target. -/
def ends? (g : Multigraph) (e : Nat) : Option (Nat × Nat) :=
  ((List.range g.vertexCount).find? fun (v : Nat) => (g.arcsFrom v).any fun arc => arc.2 == e).bind
    fun v => (g.target[e]?).map fun c => (v, c)

theorem any_arcsFrom {v : Int} {e : Nat} :
    ((g.arcsFrom v).any fun arc => arc.2 == e) = true ↔ ∃ c, (c, e) ∈ g.arcsFrom v := by
  simp only [List.any_eq_true, beq_iff_eq, Prod.exists, exists_eq_right]

/-- The chains and the targets give back every row. -/
theorem Logged.ends?_eq (hl : Logged g l) (e : Nat) : g.ends? e = l.rows[e]? := by
  have hmem : ∀ v : Nat, ((g.arcsFrom v).any fun arc => arc.2 == e) = true ↔
      ∃ c, l.rows[e]? = some (v, c) := by
    intro v
    rw [any_arcsFrom, hl.arcsFrom_eq]
    refine exists_congr fun c => EdgeLog.mem_arcsFrom.trans ?_
    simp only [Int.natCast_inj, exists_eq_left']
  unfold ends?
  cases hrow : l.rows[e]? with
  | none =>
    rw [List.find?_eq_none.2 fun v _ hv => ?_]
    · rfl
    · obtain ⟨c, hc⟩ := (hmem v).1 hv
      rw [hrow] at hc
      cases hc
  | some row =>
    obtain ⟨s, c⟩ := row
    have hs : (c, e) ∈ g.arcsFrom s := by
      rw [hl.arcsFrom_eq]
      exact EdgeLog.mem_arcsFrom.2 ⟨s, rfl, hrow⟩
    have hlt : s < g.vertexCount := source_lt_of_mem_successors (mem_successors.2 ⟨e, hs⟩)
    -- no other vertex has the edge in its chain
    have hfind : ((List.range g.vertexCount).find? fun (v : Nat) =>
        (g.arcsFrom v).any fun arc => arc.2 == e) = some s := by
      rw [List.find?_range_eq_some]
      refine ⟨any_arcsFrom.2 ⟨c, hs⟩, List.mem_range.2 hlt, fun v hv => ?_⟩
      rw [Bool.not_eq_true', ← Bool.not_eq_true, hmem]
      intro hex
      obtain ⟨c', hc'⟩ := hex
      rw [hrow] at hc'
      cases hc'
      exact Nat.lt_irrefl _ hv
    rw [hfind, Option.bind_some, target_eq_of_mem_arcsFrom hs]
    rfl

/-! ## Equal graphs -/

theorem eq_iff_arrays_eq : g = h ↔ g.head = h.head ∧ g.older = h.older ∧ g.target = h.target := by
  constructor
  · intro heq
    rw [heq]
    exact ⟨rfl, rfl, rfl⟩
  · intro hsame
    obtain ⟨hhead, holder, htarget⟩ := hsame
    have halike : Alike g h := ⟨holder, htarget, fun v => by rw [hhead]⟩
    exact halike.eq (congrArg Array.size hhead)

theorem ends?_build (n : Nat) (rows : List (Nat × Nat)) (e : Nat) :
    (build n rows).ends? e = rows[e]? := (logged_build n rows).ends?_eq e

/-- Built graphs are equal if their rows are and there is room for as many vertices in the end. -/
theorem build_eq_iff {n m : Nat} {rows rows' : List (Nat × Nat)} :
    build n rows = build m rows' ↔
      (build n rows).vertexCount = (build m rows').vertexCount ∧ rows = rows' := by
  constructor
  · intro heq
    refine ⟨by rw [heq], List.ext_getElem? fun e => ?_⟩
    rw [← ends?_build n, ← ends?_build m, heq]
  · intro hsame
    obtain ⟨hcount, rfl⟩ := hsame
    exact (Alike.foldl_push rows _ _ (alike_ofCount n m)).eq hcount

theorem exists_eq_ofCount {capacity : Int} (hg : ofCapacity capacity = .ok g) :
    ∃ n, g = ofCount n := by
  unfold ofCapacity at hg
  split at hg
  · exact ⟨_, (Except.ok.inj hg).symm⟩
  · cases hg

theorem natCast_pair_injective :
    Function.Injective fun row : Nat × Nat => ((row.1 : Int), (row.2 : Int)) := by
  intro a b heq
  rw [Prod.mk.injEq] at heq
  apply Prod.ext <;> omega

/-- For graphs made with any room to begin with and any insertions, the refused ones included: they
are equal, which is equality of the three arrays, exactly if they have the same number of vertices
and the same insertions were not refused, in the same order. From the arrays the ends of every edge
can be told. -/
theorem eq_iff_same_history (capacity capacity' : Int) (g₀ h₀ : Multigraph)
    (calls calls' : List (Int × Int)) (hg₀ : ofCapacity capacity = .ok g₀)
    (hh₀ : ofCapacity capacity' = .ok h₀) :
    let given := answers answer g₀ calls
    let given' := answers answer h₀ calls'
    let g := given.2
    let h := given'.2
    (g = h ↔ g.vertexCount = h.vertexCount ∧
        EdgeLog.accepted calls given.1 = EdgeLog.accepted calls' given'.1) ∧
      (g = h ↔ g.head = h.head ∧ g.older = h.older ∧ g.target = h.target) ∧
      ∀ e, (EdgeLog.accepted calls given.1)[e]? =
        (g.ends? e).map fun row => ((row.1 : Int), (row.2 : Int)) := by
  intro given given' g h
  obtain ⟨n, rfl⟩ := exists_eq_ofCount hg₀
  obtain ⟨m, rfl⟩ := exists_eq_ofCount hh₀
  obtain ⟨rows, hbuilt, haccepted⟩ := exists_rows n calls
  obtain ⟨rows', hbuilt', haccepted'⟩ := exists_rows m calls'
  have hg : g = build n rows := hbuilt
  have hh : h = build m rows' := hbuilt'
  refine ⟨?_, eq_iff_arrays_eq, fun e => ?_⟩
  · rw [haccepted, haccepted', (List.map_injective_iff.2 natCast_pair_injective).eq_iff, hg, hh]
    exact build_eq_iff
  · rw [haccepted, List.getElem?_map, hg, ends?_build]

/-- One graph grows from nothing and one insertion into it is refused, the other had room for three
vertices; they are equal. With the edges in the other order the graph is another one. -/
theorem eq_iff_same_history_growing :
    let g := (answers answer (ofCount 0) [(0, 1), (2, -1), (3, 1)]).2
    g = (answers answer (ofCount 3) [(0, 1), (3, 1)]).2 ∧
      g ≠ (answers answer (ofCount 4) [(3, 1), (0, 1)]).2 ∧ g.ends? 1 = some (3, 1) := by
  intro g
  obtain ⟨hsame, _, _⟩ := eq_iff_same_history 0 3 (ofCount 0) (ofCount 3)
    [(0, 1), (2, -1), (3, 1)] [(0, 1), (3, 1)] rfl rfl
  obtain ⟨hother, _, _⟩ := eq_iff_same_history 0 4 (ofCount 0) (ofCount 4)
    [(0, 1), (2, -1), (3, 1)] [(3, 1), (0, 1)] rfl rfl
  refine ⟨hsame.2 ⟨by decide +kernel, by decide +kernel⟩, fun heq => ?_, by decide +kernel⟩
  exact absurd (hother.1 heq).2 (by decide +kernel)

end Multigraph

end IndexGraph
