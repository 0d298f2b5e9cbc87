import IndexGraph.Proofs.WeightMatrix.Edges

/-
  The storage of a weight matrix, slot by slot. The pairs that have a slot of their own, in the
  order in which the edges are listed, go through the storage from front to back
  (`map_slot_allPairs`): each row begins where the row before it ends, in the square and in the
  triangle. So the list of edges is as long as there are slots that hold a weight, and both are the
  number of edges that the matrix has counted (`Mirrors.edgeCount_eq_countP`).
-/

namespace IndexGraph.WeightMatrix

variable {α : Type} {m : WeightMatrix α} {r : PairMap α}

/-! ## From front to back -/

/-- Rows of the given widths that follow each other without a gap. -/
theorem flatMap_rows (start width : Nat → Nat) (hzero : start 0 = 0)
    (hnext : ∀ a, start (a + 1) = start a + width a) (n : Nat) :
    (List.range n).flatMap (fun a => (List.range (width a)).map (start a + ·)) =
      List.range (start n) := by
  induction n with
  | zero =>
    rw [hzero]
    rfl
  | succ n ih =>
    rw [List.range_succ, List.flatMap_append, ih, List.flatMap_singleton, hnext, List.range_add]

/-- The slots of the listed pairs are all slots, each once and in order. -/
theorem map_slot_allPairs (hm : m.Sound) :
    m.allPairs.map (fun p => (m.slot p.1 p.2).toNat) = List.range m.slots.size := by
  unfold Sound at hm
  unfold allPairs slot
  rw [hm, List.map_flatMap]
  simp only [List.map_map]
  cases m.directed with
  | true =>
    rw [Slots.toNat_count_directed]
    have hrows := flatMap_rows (· * m.capacity) (fun _ => m.capacity) (Nat.zero_mul _)
      (fun a => Nat.succ_mul a _) m.capacity
    rw [← hrows]
    refine List.flatMap_congr fun a _ => List.map_congr_left fun b _ => ?_
    exact Slots.toNat_square a b m.capacity
  | false =>
    have hpos : ∀ k : Nat, 0 ≤ Slots.rowsBefore k := fun k => by
      have hle : (k : Int) ≤ Slots.count k false := Slots.le_count k
      exact (Int.natCast_nonneg k).trans hle
    have hnext : ∀ a : Nat, (Slots.rowsBefore (a + 1 : Nat)).toNat =
        (Slots.rowsBefore a).toNat + (a + 1) := fun a => by
      have hsucc := Slots.rowsBefore_succ a
      have h0 := hpos a
      push_cast
      omega
    have hrows := flatMap_rows (fun a => (Slots.rowsBefore a).toNat) (· + 1) (by decide) hnext
      m.capacity
    rw [Slots.count_undirected, ← hrows]
    refine List.flatMap_congr fun a _ => List.map_congr_left fun b hb => ?_
    have hle : b ≤ a := Nat.lt_succ_iff.1 (List.mem_range.1 hb)
    have h0 := hpos a
    -- the larger vertex comes first, so the row of the pair is `a`
    show (Slots.triangular a b).toNat = (Slots.rowsBefore a).toNat + b
    rw [Slots.triangular_eq, max_eq_left (by omega), min_eq_right (by omega)]
    omega

theorem map_content_range (xs : Array (Option α)) :
    (List.range xs.size).map (Slots.content xs) = xs.toList := by
  apply List.ext_getElem
  · rw [List.length_map, List.length_range, Array.length_toList]
  · intro k hk hk'
    rw [List.getElem_map, List.getElem_range, Array.getElem_toList, Slots.content,
      Array.getElem?_eq_getElem (by simpa using hk')]
    rfl

/-! ## The number of edges -/

/-- One edge is listed for each slot that holds a weight. -/
theorem length_weighted_allPairs (hm : m.Sound) :
    (m.weighted m.allPairs).length = m.slots.toList.countP Option.isSome := by
  unfold weighted
  rw [List.length_filterMap_eq_countP, ← map_content_range, ← map_slot_allPairs hm, List.map_map,
    List.countP_map]
  refine List.countP_congr fun p _ => ?_
  simp

/-- The map has one key for each edge that is listed. -/
theorem Mirrors.length_weighted_allPairs (h : Mirrors m r) :
    (m.weighted m.allPairs).length = m.edgeCount := by
  have hkeys : ((m.weighted m.allPairs).map (edgeKey m.directed)).toFinset = r.weights.keys := by
    apply Finset.ext
    intro k
    rw [List.mem_toFinset, List.mem_map, Finmap.mem_keys, Finmap.mem_iff]
    simp only [h.lookup_iff]
    constructor
    · intro hex
      obtain ⟨e, he, hkey⟩ := hex
      exact ⟨e.2.2, e, he, hkey, rfl⟩
    · intro hex
      obtain ⟨_, e, he, hkey, _⟩ := hex
      exact ⟨e, he, hkey⟩
  rw [h.edgeCount_eq, PairMap.count, ← hkeys, List.toFinset_card_of_nodup h.nodup_edgeKeys,
    List.length_map]

theorem Mirrors.edgeCount_eq_countP (h : Mirrors m r) :
    m.edgeCount = m.slots.toList.countP Option.isSome := by
  rw [← h.length_weighted_allPairs, WeightMatrix.length_weighted_allPairs h.sound]

/-- What the storage of a matrix has to do with its vertices and its edges. -/
structure WellStored (m : WeightMatrix α) : Prop where
  /-- There are as many slots as the layout has for the vertices. -/
  size_eq : (m.slots.size : Int) = Slots.count m.capacity m.directed
  /-- The edges that were counted are the slots that hold a weight. -/
  edgeCount_eq : m.edgeCount = m.slots.toList.countP Option.isSome
  /-- They are the edges that are listed as well. -/
  edges : ∃ es, m.edges = .ok es ∧ es.length = m.edgeCount
  /-- A matrix is empty if all its slots are, and only then. -/
  isEmpty_iff : m.isEmpty = true ↔ ∀ slot ∈ m.slots, slot = none

theorem Mirrors.wellStored (h : Mirrors m r) : WellStored m where
  size_eq := by
    have hsize : m.slots.size = (Slots.count m.capacity m.directed).toNat := h.sound
    have hcount : (m.capacity : Int) ≤ Slots.count m.capacity m.directed :=
      Slots.le_count m.capacity
    omega
  edgeCount_eq := h.edgeCount_eq_countP
  edges := ⟨_, edges_eq h.sound, h.length_weighted_allPairs⟩
  isEmpty_iff := by
    rw [isEmpty, beq_iff_eq, h.edgeCount_eq_countP, List.countP_eq_zero]
    simp

end IndexGraph.WeightMatrix
