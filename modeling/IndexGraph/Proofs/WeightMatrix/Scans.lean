import IndexGraph.Proofs.WeightMatrix.Edges

/-
  Rows, columns, the list of all edges and the queries of single pairs tell the same about a weight
  matrix (`ScansAgree`), in the square and in the triangle.
  A scan visits the slots of a list of pairs and keeps the order of the pairs
  (`pairwise_weighted`), so each scan needs two facts: in which order its pairs come, and which
  they are. What a row or a column lists by increasing vertex is settled by the weights alone
  (`Lists.unique`). That is why an undirected matrix has equal rows and columns: its weights are
  the same in both orders of a pair, though the pairs are visited in different ones.
-/

namespace IndexGraph.WeightMatrix

variable {α : Type} {m : WeightMatrix α} {a b : Int}

/-! ## Single pairs -/

theorem weight?_eq_some_iff (hm : m.Sound) {w : α} : m.weight? a b = .ok (some w) ↔
    m.covers a b = true ∧ Slots.content m.slots (m.slot a b).toNat = some w := by
  unfold weight?
  cases hcov : m.covers a b with
  | false => simp
  | true => simp [cell_eq hm hcov]

/-- An undirected pair has one slot. -/
theorem weight?_comm (hdirected : m.directed = false) (a b : Int) :
    m.weight? a b = m.weight? b a := by
  have hslot : m.slot a b = m.slot b a := by
    unfold slot Slots.ofPair
    rw [hdirected]
    show Slots.triangular a b = Slots.triangular b a
    rw [Slots.triangular_eq, Slots.triangular_eq, max_comm, min_comm]
  have hcov : m.covers a b = m.covers b a := by
    rw [Bool.eq_iff_iff, covers_iff, covers_iff]
    exact and_comm
  unfold weight? cell
  rw [hslot, hcov]

/-! ## The order of the pairs -/

/-- The pairs come row by row, and in a row by increasing column. -/
def Before (p q : Nat × Nat) : Prop := p.1 < q.1 ∨ p.1 = q.1 ∧ p.2 < q.2

theorem pairwise_weighted {R : Nat × Nat → Nat × Nat → Prop} {pairs : List (Nat × Nat)}
    (h : pairs.Pairwise R) :
    (m.weighted pairs).Pairwise fun e e' => R (e.1, e.2.1) (e'.1, e'.2.1) := by
  unfold weighted
  refine h.filterMap _ fun p p' hp e he e' he' => ?_
  obtain ⟨w, _, rfl⟩ := Option.map_eq_some_iff.1 he
  obtain ⟨w', _, rfl⟩ := Option.map_eq_some_iff.1 he'
  exact hp

theorem pairwise_rowPairs (m : WeightMatrix α) (v : Int) :
    (m.rowPairs v).Pairwise fun p q => p.2 < q.2 := by
  unfold rowPairs
  split
  · exact List.pairwise_map.2 List.pairwise_lt_range
  · exact .nil

theorem pairwise_columnPairs (m : WeightMatrix α) (v : Int) :
    (m.columnPairs v).Pairwise fun p q => p.1 < q.1 := by
  unfold columnPairs
  split
  · exact List.pairwise_map.2 List.pairwise_lt_range
  · exact .nil

theorem pairwise_allPairs (m : WeightMatrix α) : m.allPairs.Pairwise Before := by
  unfold allPairs
  rw [List.pairwise_flatMap]
  constructor
  · intro a _
    exact List.pairwise_map.2 (List.pairwise_lt_range.imp fun hlt => .inr ⟨rfl, hlt⟩)
  · refine List.pairwise_lt_range.imp fun hlt p hp q hq => ?_
    obtain ⟨b, _, rfl⟩ := List.mem_map.1 hp
    obtain ⟨d, _, rfl⟩ := List.mem_map.1 hq
    exact .inl hlt

/-! ## What a scan lists -/

/-- By increasing vertex, each vertex for which there is a weight, and the weight. -/
structure Lists (es : List (Nat × α)) (weightAt : Int → Except Fault (Option α)) : Prop where
  increasing : es.Pairwise fun e e' => e.1 < e'.1
  mem_iff : ∀ (u : Int) (w : α), (∃ k : Nat, (k : Int) = u ∧ (k, w) ∈ es) ↔
    weightAt u = .ok (some w)

/-- There is no second list of the same weights. -/
theorem Lists.unique {es es' : List (Nat × α)} {weightAt : Int → Except Fault (Option α)}
    (h : Lists es weightAt) (h' : Lists es' weightAt) : es = es' := by
  have hmem : ∀ e, e ∈ es ↔ e ∈ es' := by
    intro e
    have hiff := (h.mem_iff e.1 e.2).trans (h'.mem_iff e.1 e.2).symm
    simpa [Int.natCast_inj] using hiff
  have hnodup : ∀ {l : List (Nat × α)}, (l.Pairwise fun e e' => e.1 < e'.1) → l.Nodup :=
    fun hl => hl.imp fun hlt heq => absurd hlt (by rw [heq]; exact lt_irrefl _)
  refine List.Perm.eq_of_pairwise (fun e e' _ _ hlt hgt => absurd hlt (lt_asymm hgt))
    h.increasing h'.increasing ?_
  exact (List.perm_ext_iff_of_nodup (hnodup h.increasing) (hnodup h'.increasing)).2 hmem

/-- A scan along pairs that differ in one vertex, by increasing values of it. -/
theorem lists_line {pairs : List (Nat × Nat)} {weightAt : Int → Except Fault (Option α)}
    (vertex : Nat × Nat → Nat) (hpairs : pairs.Pairwise fun p q => vertex p < vertex q)
    (hmem : ∀ (u : Int) (w : α), (∃ p ∈ pairs, (vertex p : Int) = u ∧
      Slots.content m.slots (m.slot p.1 p.2).toNat = some w) ↔ weightAt u = .ok (some w)) :
    Lists ((m.weighted pairs).map fun e => (vertex (e.1, e.2.1), e.2.2)) weightAt := by
  refine ⟨List.pairwise_map.2 (pairwise_weighted hpairs), fun u w => ?_⟩
  rw [← hmem]
  constructor
  · intro hex
    obtain ⟨k, rfl, hk⟩ := hex
    obtain ⟨⟨a, b, w'⟩, he, heq⟩ := List.mem_map.1 hk
    cases heq
    obtain ⟨hpair, hw⟩ := mem_weighted.1 he
    exact ⟨(a, b), hpair, rfl, hw⟩
  · intro hex
    obtain ⟨⟨a, b⟩, hpair, hvertex, hw⟩ := hex
    exact ⟨_, hvertex, List.mem_map_of_mem (mem_weighted.2 ⟨hpair, hw⟩)⟩

theorem lists_row (hm : m.Sound) (v : Int) :
    Lists ((m.weighted (m.rowPairs v)).map Prod.snd) (m.weight? v) := by
  refine lists_line Prod.snd (m.pairwise_rowPairs v) fun u w => ?_
  rw [weight?_eq_some_iff hm]
  constructor
  · intro hex
    obtain ⟨⟨a, b⟩, hpair, rfl, hw⟩ := hex
    obtain ⟨rfl, hcov⟩ := mem_rowPairs.1 hpair
    exact ⟨hcov, hw⟩
  · intro hweight
    obtain ⟨hcov, hw⟩ := hweight
    obtain ⟨⟨hv, _⟩, hu, _⟩ := covers_iff.1 hcov
    obtain ⟨a, rfl⟩ := Int.eq_ofNat_of_zero_le hv
    obtain ⟨b, rfl⟩ := Int.eq_ofNat_of_zero_le hu
    exact ⟨(a, b), mem_rowPairs.2 ⟨rfl, hcov⟩, rfl, hw⟩

theorem lists_column (hm : m.Sound) (v : Int) :
    Lists ((m.weighted (m.columnPairs v)).map fun e => (e.1, e.2.2)) fun u => m.weight? u v := by
  refine lists_line Prod.fst (m.pairwise_columnPairs v) fun u w => ?_
  rw [weight?_eq_some_iff hm]
  constructor
  · intro hex
    obtain ⟨⟨a, b⟩, hpair, rfl, hw⟩ := hex
    obtain ⟨rfl, hcov⟩ := mem_columnPairs.1 hpair
    exact ⟨hcov, hw⟩
  · intro hweight
    obtain ⟨hcov, hw⟩ := hweight
    obtain ⟨⟨hu, _⟩, hv, _⟩ := covers_iff.1 hcov
    obtain ⟨a, rfl⟩ := Int.eq_ofNat_of_zero_le hu
    obtain ⟨b, rfl⟩ := Int.eq_ofNat_of_zero_le hv
    exact ⟨(a, b), mem_columnPairs.2 ⟨rfl, hcov⟩, rfl, hw⟩

theorem mem_edges_iff (hm : m.Sound) {w : α} :
    (∃ i j : Nat, (i : Int) = a ∧ (j : Int) = b ∧ (i, j, w) ∈ m.weighted m.allPairs) ↔
      m.weight? a b = .ok (some w) ∧ (m.directed = false → b ≤ a) := by
  rw [weight?_eq_some_iff hm]
  constructor
  · intro hex
    obtain ⟨i, j, rfl, rfl, hmem⟩ := hex
    obtain ⟨hpair, hw⟩ := mem_weighted.1 hmem
    obtain ⟨hi, hj, horder⟩ := mem_allPairs.1 hpair
    exact ⟨⟨covers_natCast hi hj, hw⟩, fun hdirected => Int.ofNat_le.2 (horder hdirected)⟩
  · intro hweight
    obtain ⟨⟨hcov, hw⟩, horder⟩ := hweight
    obtain ⟨⟨ha, ha'⟩, hb, hb'⟩ := covers_iff.1 hcov
    obtain ⟨i, rfl⟩ := Int.eq_ofNat_of_zero_le ha
    obtain ⟨j, rfl⟩ := Int.eq_ofNat_of_zero_le hb
    have hpair := mem_allPairs.2 ⟨Int.ofNat_lt.1 ha', Int.ofNat_lt.1 hb',
      fun hdirected => Int.ofNat_le.1 (horder hdirected)⟩
    exact ⟨i, j, rfl, rfl, mem_weighted.2 ⟨hpair, hw⟩⟩

/-- Every way to read the edges of a matrix tells the same. -/
structure ScansAgree (m : WeightMatrix α) : Prop where
  /-- A pair is in the matrix if it has a weight. -/
  contains_eq : ∀ a b : Int, ∃ w?, m.weight? a b = .ok w? ∧ m.contains a b = .ok w?.isSome
  /-- A row lists the weights of the pairs with a fixed first vertex. -/
  row : ∀ v : Int, ∃ out, m.arcsFrom v = .ok out ∧ Lists out (m.weight? v) ∧
    m.successors v = .ok (out.map Prod.fst)
  /-- A column lists the weights of the pairs with a fixed second vertex. -/
  column : ∀ v : Int, ∃ into, m.arcsInto v = .ok into ∧ Lists into (fun u => m.weight? u v) ∧
    m.predecessors v = .ok (into.map Prod.fst)
  /-- A vertex has `v` as a predecessor if it is a successor of `v`, and only then. -/
  successor_iff : ∀ u v : Int,
    (∃ us, m.successors v = .ok us ∧ ∃ k ∈ us, (k : Int) = u) ↔
      ∃ vs, m.predecessors u = .ok vs ∧ ∃ k ∈ vs, (k : Int) = v
  /-- Nothing is listed for other vertices than those below the capacity. -/
  outside : ∀ v : Int, v < 0 ∨ (m.capacity : Int) ≤ v →
    m.successors v = .ok [] ∧ m.predecessors v = .ok []
  /-- Without directions rows are columns, and the order of a pair does not matter. -/
  undirected : m.directed = false →
    (∀ v : Int, m.arcsFrom v = m.arcsInto v) ∧ ∀ a b : Int, m.weight? a b = m.weight? b a
  /-- All edges stand in the list, each pair once and in the order of the pairs. -/
  edges : ∃ es, m.edges = .ok es ∧
    (es.Pairwise fun e e' => Before (e.1, e.2.1) (e'.1, e'.2.1)) ∧
    ∀ (a b : Int) (w : α), (∃ i j : Nat, (i : Int) = a ∧ (j : Int) = b ∧ (i, j, w) ∈ es) ↔
      m.weight? a b = .ok (some w) ∧ (m.directed = false → b ≤ a)

theorem successors_eq (hm : m.Sound) (v : Int) :
    m.successors v = .ok (((m.weighted (m.rowPairs v)).map Prod.snd).map Prod.fst) := by
  rw [successors, arcsFrom_eq hm]
  rfl

theorem predecessors_eq (hm : m.Sound) (v : Int) : m.predecessors v =
    .ok (((m.weighted (m.columnPairs v)).map fun e => (e.1, e.2.2)).map Prod.fst) := by
  rw [predecessors, arcsInto_eq hm]
  rfl

theorem Lists.mem_map_fst_iff {es : List (Nat × α)} {weightAt : Int → Except Fault (Option α)}
    (h : Lists es weightAt) {u : Int} :
    (∃ k ∈ es.map Prod.fst, (k : Int) = u) ↔ ∃ w, weightAt u = .ok (some w) := by
  constructor
  · intro hex
    obtain ⟨k, hk, rfl⟩ := hex
    obtain ⟨⟨k', w⟩, hmem, rfl⟩ := List.mem_map.1 hk
    exact ⟨w, (h.mem_iff _ _).1 ⟨_, rfl, hmem⟩⟩
  · intro hex
    obtain ⟨w, hw⟩ := hex
    obtain ⟨k, hk, hmem⟩ := (h.mem_iff _ _).2 hw
    exact ⟨k, List.mem_map_of_mem hmem, hk⟩

theorem scansAgree (hm : m.Sound) : ScansAgree m where
  contains_eq a b := by
    unfold contains weight?
    cases hcov : m.covers a b with
    | false => exact ⟨none, rfl, rfl⟩
    | true =>
      rw [if_pos rfl, cell_eq hm hcov]
      exact ⟨_, rfl, rfl⟩
  row v := ⟨_, arcsFrom_eq hm v, lists_row hm v, successors_eq hm v⟩
  column v := ⟨_, arcsInto_eq hm v, lists_column hm v, predecessors_eq hm v⟩
  successor_iff u v := by
    have hrow := (lists_row hm v).mem_map_fst_iff (u := u)
    have hcolumn := (lists_column hm u).mem_map_fst_iff (u := v)
    rw [successors_eq hm, predecessors_eq hm]
    simp only [Except.ok.injEq, exists_eq_left']
    exact hrow.trans hcolumn.symm
  outside v hv := by
    have hcov : m.covers v v = false := covers_eq_false_iff.2 (by omega)
    rw [successors_eq hm, predecessors_eq hm, rowPairs, columnPairs, hcov]
    exact ⟨rfl, rfl⟩
  undirected hdirected := by
    refine ⟨fun v => ?_, weight?_comm hdirected⟩
    have hsame : m.weight? v = fun u => m.weight? u v := by
      funext u
      exact weight?_comm hdirected v u
    have hrow := lists_row hm v
    rw [hsame] at hrow
    rw [arcsFrom_eq hm, arcsInto_eq hm, hrow.unique (lists_column hm v)]
  edges := ⟨_, edges_eq hm, pairwise_weighted m.pairwise_allPairs,
    fun _ _ _ => mem_edges_iff hm⟩

/-- Whatever calls led to a matrix. -/
theorem scansAgree_reached (directed : Bool) (capacity : Int) (calls : List (Call α)) :
    ScansAgree (reached directed capacity calls) := by
  obtain ⟨r, h⟩ := exists_mirrors_reached directed capacity calls
  exact scansAgree h.sound

end IndexGraph.WeightMatrix
