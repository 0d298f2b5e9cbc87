import IndexGraph.Network
import IndexGraph.Proofs.Multigraph
import IndexGraph.Proofs.Reach
import IndexGraph.Proofs.WeightMatrix.Scans

/-
  Networks that no edge leaves (`Enclosed g n`), and those whose predecessors mirror their
  successors besides (`Consistent g n`). Both ask something of the vertices from `0` to `n - 1`
  only, and of membership only: the lists may name a vertex in any order and any number of times.
  Multigraphs with their transposes are consistent, and so are all matrices that calls can make.
-/

namespace IndexGraph.Network

/-- The lists of the vertices below `n` name such vertices only, and agree. -/
structure Consistent (g : Network) (n : Nat) : Prop where
  vertexCount_eq : g.vertexCount = n
  successors_in_range : ∀ u : Int, 0 ≤ u → u < n → ∀ v ∈ g.successors u, 0 ≤ v ∧ v < n
  predecessors_in_range : ∀ v : Int, 0 ≤ v → v < n → ∀ u ∈ g.predecessors v, 0 ≤ u ∧ u < n
  mem_iff : ∀ u v : Int, 0 ≤ u → u < n → 0 ≤ v → v < n →
    (v ∈ g.successors u ↔ u ∈ g.predecessors v)

/-- The lists of the vertices below `n` name such vertices only, whether or not they agree. -/
structure Enclosed (g : Network) (n : Nat) : Prop where
  vertexCount_eq : g.vertexCount = n
  successors_in_range : ∀ u : Int, 0 ≤ u → u < n → ∀ v ∈ g.successors u, 0 ≤ v ∧ v < n
  predecessors_in_range : ∀ v : Int, 0 ≤ v → v < n → ∀ u ∈ g.predecessors v, 0 ≤ u ∧ u < n

variable {g : Network} {n : Nat} {start : Int}

theorem Consistent.enclosed (hg : g.Consistent n) : g.Enclosed n :=
  ⟨hg.vertexCount_eq, hg.successors_in_range, hg.predecessors_in_range⟩

/-- No way leads out of the vertices. -/
theorem Enclosed.reaches_in_range (hg : g.Enclosed n) (h0 : 0 ≤ start) (hn : start < n)
    (v : Int) (h : Reaches g.successors start v) : 0 ≤ v ∧ v < n := by
  induction h with
  | refl => exact ⟨h0, hn⟩
  | @tail u v _ he ih => exact hg.successors_in_range u ih.1 ih.2 v he

theorem Consistent.reaches_in_range (hg : g.Consistent n) (h0 : 0 ≤ start) (hn : start < n)
    (v : Int) (h : Reaches g.successors start v) : 0 ≤ v ∧ v < n :=
  hg.enclosed.reaches_in_range h0 hn v h

theorem Consistent.exists_fin_of_reaches (hg : g.Consistent n) (h0 : 0 ≤ start) (hn : start < n)
    {v : Int} (h : Reaches g.successors start v) : ∃ k : Fin n, v = (k : Nat) := by
  obtain ⟨hv0, hvn⟩ := hg.reaches_in_range h0 hn v h
  obtain ⟨k, rfl⟩ := Int.eq_ofNat_of_zero_le hv0
  exact ⟨⟨k, by omega⟩, rfl⟩

/-- The lists agree on the edges that leave what is reached. -/
theorem Consistent.mem_iff_of_reaches (hg : g.Consistent n) (h0 : 0 ≤ start) (hn : start < n)
    {u v : Int} (hu : Reaches g.successors start u) (hv : 0 ≤ v ∧ v < n) :
    v ∈ g.successors u ↔ u ∈ g.predecessors v := by
  obtain ⟨hu0, hun⟩ := hg.reaches_in_range h0 hn u hu
  exact hg.mem_iff u v hu0 hun hv.1 hv.2

/-- What lists a vertex counts as a predecessor of it. -/
theorem Consistent.mem_predecessors (hg : g.Consistent n) (h0 : 0 ≤ start) (hn : start < n)
    {u v : Int} (hu : Reaches g.successors start u) (he : v ∈ g.successors u) :
    u ∈ g.predecessors v :=
  (hg.mem_iff_of_reaches h0 hn hu (hg.reaches_in_range h0 hn v (hu.tail he))).1 he

/-- The lists of the finitely many vertices can be gone through. -/
theorem enclosed_of_fin {g : Network} {n : Nat} (hn : g.vertexCount = n)
    (hsucc : ∀ u : Fin n, ∀ v ∈ g.successors (u : Nat), 0 ≤ v ∧ v < n)
    (hpred : ∀ v : Fin n, ∀ u ∈ g.predecessors (v : Nat), 0 ≤ u ∧ u < n) : g.Enclosed n := by
  refine ⟨hn, fun u h0 hlt => ?_, fun v h0 hlt => ?_⟩
  · obtain ⟨k, rfl⟩ := Int.eq_ofNat_of_zero_le h0
    exact hsucc ⟨k, by omega⟩
  · obtain ⟨k, rfl⟩ := Int.eq_ofNat_of_zero_le h0
    exact hpred ⟨k, by omega⟩

theorem Enclosed.consistent_of_fin (hg : g.Enclosed n)
    (h : ∀ u v : Fin n, ((v : Nat) : Int) ∈ g.successors (u : Nat) ↔
      ((u : Nat) : Int) ∈ g.predecessors (v : Nat)) : g.Consistent n := by
  refine ⟨hg.vertexCount_eq, hg.successors_in_range, hg.predecessors_in_range,
    fun u v hu0 hun hv0 hvn => ?_⟩
  obtain ⟨i, rfl⟩ := Int.eq_ofNat_of_zero_le hu0
  obtain ⟨j, rfl⟩ := Int.eq_ofNat_of_zero_le hv0
  exact h ⟨i, by omega⟩ ⟨j, by omega⟩

section tables

variable {k : Nat} {succ pred : Array (List Int)}

/-- If no entry of the first `k` rows is outside `0` to `k - 1`, and there are no more rows, then an
entry and the number of its row are both in this range. -/
theorem exists_fin_of_mem_row {rows : Array (List Int)} (hrows : rows.size ≤ k)
    (hrange : ∀ u : Fin k, ∀ v ∈ row rows (u : Nat), 0 ≤ v ∧ v < k) {u v : Int}
    (hv : v ∈ row rows u) : ∃ i j : Fin k, u = (i : Nat) ∧ v = (j : Nat) := by
  have hu : 0 ≤ u ∧ u < k := by
    by_contra hnot
    rw [row_eq_nil rows hrows (by omega)] at hv
    exact absurd hv List.not_mem_nil
  obtain ⟨i, rfl⟩ := Int.eq_ofNat_of_zero_le hu.1
  obtain ⟨hv0, hvk⟩ := hrange ⟨i, by omega⟩ v hv
  obtain ⟨j, rfl⟩ := Int.eq_ofNat_of_zero_le hv0
  exact ⟨⟨i, by omega⟩, ⟨j, by omega⟩, rfl, rfl⟩

/-- Tables of at most `k` rows, with any larger number of vertices. -/
theorem enclosed_ofTables (hk : k ≤ n) (hs : succ.size ≤ k) (hp : pred.size ≤ k)
    (hsucc : ∀ u : Fin k, ∀ v ∈ row succ (u : Nat), 0 ≤ v ∧ v < k)
    (hpred : ∀ v : Fin k, ∀ u ∈ row pred (v : Nat), 0 ≤ u ∧ u < k)
    (arcCount : Int) (arcsFrom : Array (List (Int × Option Weight))) :
    (ofTables n arcCount succ pred arcsFrom).Enclosed n := by
  refine ⟨rfl, fun u _ _ v hv => ?_, fun v _ _ u hu => ?_⟩
  · obtain ⟨_, j, _, rfl⟩ := exists_fin_of_mem_row hs hsucc hv
    omega
  · obtain ⟨_, j, _, rfl⟩ := exists_fin_of_mem_row hp hpred hu
    omega

/-- Tables of at most `k` rows that agree, with any larger number of vertices. -/
theorem consistent_ofTables (hk : k ≤ n) (hs : succ.size ≤ k) (hp : pred.size ≤ k)
    (hsucc : ∀ u : Fin k, ∀ v ∈ row succ (u : Nat), 0 ≤ v ∧ v < k)
    (hpred : ∀ v : Fin k, ∀ u ∈ row pred (v : Nat), 0 ≤ u ∧ u < k)
    (h : ∀ u v : Fin k, ((v : Nat) : Int) ∈ row succ (u : Nat) ↔
      ((u : Nat) : Int) ∈ row pred (v : Nat))
    (arcCount : Int) (arcsFrom : Array (List (Int × Option Weight))) :
    (ofTables n arcCount succ pred arcsFrom).Consistent n := by
  have hg := enclosed_ofTables hk hs hp hsucc hpred arcCount arcsFrom
  refine ⟨hg.vertexCount_eq, hg.successors_in_range, hg.predecessors_in_range,
    fun u v _ _ _ _ => ⟨fun hv => ?_, fun hu => ?_⟩⟩
  · obtain ⟨i, j, rfl, rfl⟩ := exists_fin_of_mem_row hs hsucc hv
    exact (h i j).1 hv
  · obtain ⟨j, i, rfl, rfl⟩ := exists_fin_of_mem_row hp hpred hu
    exact (h i j).2 hu

/-- Tables without rows, with any number of vertices. -/
theorem consistent_ofTables_empty (n : Nat) (arcCount : Int)
    (arcsFrom : Array (List (Int × Option Weight))) :
    (ofTables n arcCount #[] #[] arcsFrom).Consistent n :=
  consistent_ofTables (Nat.zero_le n) (by decide) (by decide) (by decide) (by decide) (by decide)
    arcCount arcsFrom

end tables

/-- A multigraph and its transpose. -/
theorem consistent_ofMultigraph (m : Multigraph) : (ofMultigraph m).Consistent m.vertexCount := by
  have hsucc : ∀ (u : Int) (v : Nat), (v : Int) ∈ (ofMultigraph m).successors u ↔
      v ∈ m.successors u := fun u v => by
    show (v : Int) ∈ (m.successors u).map (fun (c : Nat) => (c : Int)) ↔ _
    simp
  have hpred : ∀ (v : Int) (u : Nat), (u : Int) ∈ (ofMultigraph m).predecessors v ↔
      u ∈ m.transpose.successors v := fun v u => by
    show (u : Int) ∈ (m.transpose.successors v).map (fun (p : Nat) => (p : Int)) ↔ _
    simp
  refine ⟨rfl, fun u _ _ v hv => ?_, fun v h0 hn u hu => ?_, fun u v hu0 _ hv0 _ => ?_⟩
  · obtain ⟨c, hc, rfl⟩ := List.mem_map.1 hv
    have := Multigraph.lt_of_mem_successors hc
    omega
  · obtain ⟨p, hp, rfl⟩ := List.mem_map.1 hu
    obtain ⟨k, rfl⟩ := Int.eq_ofNat_of_zero_le h0
    have := Multigraph.source_lt_of_mem_successors
      (Multigraph.mem_successors_transpose.1 ((hpred k p).1 hu))
    omega
  · obtain ⟨i, rfl⟩ := Int.eq_ofNat_of_zero_le hu0
    obtain ⟨j, rfl⟩ := Int.eq_ofNat_of_zero_le hv0
    rw [hsucc, hpred, Multigraph.mem_successors_transpose]

section matrix

variable {m : WeightMatrix Weight} {u v : Int}

theorem mem_successors_ofMatrix (hm : m.Sound) : v ∈ (ofMatrix m).successors u ↔
    m.covers u v = true ∧ ∃ w, Slots.content m.slots (m.slot u v).toNat = some w := by
  have hrow : rowOf m u = (m.weighted (m.rowPairs u)).map Prod.snd := by
    rw [rowOf, WeightMatrix.arcsFrom_eq hm]
    rfl
  have hlists := (WeightMatrix.lists_row hm u).mem_map_fst_iff (u := v)
  simp only [WeightMatrix.weight?_eq_some_iff hm, exists_and_left] at hlists
  have heads : (rowOf m u).map (fun a => (a.1 : Int)) = List.map (fun (k : Nat) => (k : Int))
      (((m.weighted (m.rowPairs u)).map Prod.snd).map Prod.fst) := by
    simp only [hrow, List.map_map]
    rfl
  show v ∈ (rowOf m u).map (fun a => (a.1 : Int)) ↔ _
  rw [heads, List.mem_map]
  exact hlists

theorem mem_predecessors_ofMatrix (hm : m.Sound) : u ∈ (ofMatrix m).predecessors v ↔
    m.covers u v = true ∧ ∃ w, Slots.content m.slots (m.slot u v).toNat = some w := by
  have hlists := (WeightMatrix.lists_column hm v).mem_map_fst_iff (u := u)
  simp only [WeightMatrix.weight?_eq_some_iff hm, exists_and_left] at hlists
  show u ∈ ((m.predecessors v).toOption.getD []).map (fun (p : Nat) => (p : Int)) ↔ _
  rw [WeightMatrix.predecessors_eq hm, ← hlists, List.mem_map]
  rfl

/-- A matrix whose storage has its exact length. -/
theorem consistent_ofMatrix (hm : m.Sound) : (ofMatrix m).Consistent m.capacity := by
  refine ⟨rfl, fun u _ _ v hv => ?_, fun v _ _ u hu => ?_, fun u v _ _ _ _ => ?_⟩
  · exact (WeightMatrix.covers_iff.1 ((mem_successors_ofMatrix hm).1 hv).1).2
  · exact (WeightMatrix.covers_iff.1 ((mem_predecessors_ofMatrix hm).1 hu).1).1
  · rw [mem_successors_ofMatrix hm, mem_predecessors_ofMatrix hm]

end matrix

end IndexGraph.Network
