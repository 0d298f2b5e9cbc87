import IndexGraph.Proofs.WeightMatrix.Edges

/-
  What a weight matrix is does not depend on how it came about. Whatever calls led to it, its edges
  put one by one into a new matrix, in any order and from any smaller capacity, lead to the same
  storage slot by slot.
  The argument is about the finite maps: `Lacks r es R` says that the map `r` needs just the edges
  `es` to become `R`. An insertion takes its edge off the list and makes no more room than `R` has
  (`Lacks.insert`), so by induction the calls end in `R` itself (`Lacks.rebuild`). The matrices
  mirror the maps, and what mirrors `R` is one matrix.
-/

namespace IndexGraph

variable {α : Type}

namespace PairMap

/-- The calls that put the listed edges into a map and then make room. -/
def rebuilding (es : List (Nat × Nat × α)) (capacity : Nat) : List (Call α) :=
  es.map (fun e => .insert e.1 e.2.1 (some e.2.2)) ++ [.makeRoom capacity]

theorem makeRoom_of_room {r : PairMap α} {capacity : Nat}
    (hroom : Slots.count capacity r.directed < Length.room) :
    r.makeRoom capacity = .done () { r with capacity := max r.capacity capacity } := by
  unfold makeRoom
  dsimp only
  split
  · rename_i hle
    rw [Nat.max_eq_left (Int.ofNat_le.1 hle)]
  · rename_i hlt
    have hext : Length.Extensible (Slots.count r.capacity r.directed).toNat
        (Slots.count capacity r.directed) := .inr hroom
    rw [if_pos hext, Int.toNat_natCast, Nat.max_eq_right (by omega)]

theorem ofCapacity_of_room {directed : Bool} {capacity : Nat}
    (hroom : Slots.count capacity directed < Length.room) :
    (ofCapacity directed capacity : Reply (PairMap α) Unit) =
      .done () ⟨directed, capacity, ∅⟩ := by
  have hmax : max (empty directed : PairMap α).capacity capacity = capacity := Nat.zero_max _
  have hempty : Slots.count capacity (empty directed : PairMap α).directed < Length.room := hroom
  rw [ofCapacity, makeRoom_of_room hempty, hmax]
  rfl

/-- An edge that is not there yet is inserted if there is room for its ends. -/
theorem answer_insert {r : PairMap α} {a b : Nat} (w : α)
    (hroom : Slots.count (max a b + 1 : Nat) r.directed < Length.room)
    (hfresh : r.lookup a b = none) :
    r.answer (.insert a b (some w)) =
      .done .nothing (({ r with capacity := max r.capacity (max a b + 1) } : PairMap α).store
        a b (some w)) := by
  have hwanted : max (a : Int) b + 1 = (max a b + 1 : Nat) := by omega
  have hfresh' : ({ r with capacity := max r.capacity (max a b + 1) } : PairMap α).lookup a b =
      none := hfresh
  rw [answer, prepare, if_neg (by omega)]
  dsimp only
  rw [hwanted, makeRoom_of_room hroom, Reply.done_andThen, Reply.done_andThen]
  dsimp only
  rw [hfresh']

end PairMap

namespace WeightMatrix

open PairMap (rebuilding)

variable {r R : PairMap α} {e : Nat × Nat × α} {es : List (Nat × Nat × α)}

/-- With the listed edges, and room for as many vertices, `r` would be `R`. -/
structure Lacks (r : PairMap α) (es : List (Nat × Nat × α)) (R : PairMap α) : Prop where
  directed_eq : r.directed = R.directed
  capacity_le : r.capacity ≤ R.capacity
  below : ∀ e ∈ es, e.1 < R.capacity ∧ e.2.1 < R.capacity
  nodup : (es.map (edgeKey R.directed)).Nodup
  fresh : ∀ e ∈ es, edgeKey R.directed e ∉ r.weights
  lookup_iff : ∀ k w, R.weights.lookup k = some w ↔
    r.weights.lookup k = some w ∨ ∃ e ∈ es, edgeKey R.directed e = k ∧ e.2.2 = w

namespace Lacks

/-- Insertions need no more room than there is in the end. -/
theorem room (h : Lacks r es R) (hroom : Slots.count R.capacity R.directed < Length.room)
    {capacity : Nat} (hle : capacity ≤ R.capacity) :
    Slots.count capacity r.directed < Length.room := by
  rw [h.directed_eq]
  exact (Slots.count_mono (Int.natCast_nonneg capacity) (Int.ofNat_le.2 hle)).trans_lt hroom

/-- Once the first of the missing edges is in the map, the others are still missing. -/
theorem store (h : Lacks r (e :: es) R) {capacity : Nat} (hle : capacity ≤ R.capacity) :
    Lacks (({ r with capacity := capacity } : PairMap α).store e.1 e.2.1 (some e.2.2)) es R := by
  obtain ⟨hhead, htail⟩ := List.nodup_cons.1 (List.map_cons ▸ h.nodup)
  have hweights : (({ r with capacity := capacity } : PairMap α).store
      e.1 e.2.1 (some e.2.2)).weights = r.weights.insert (edgeKey R.directed e) e.2.2 := by
    rw [edgeKey, ← h.directed_eq]
    rfl
  refine ⟨h.directed_eq, hle, fun e' he' => h.below e' (List.mem_cons_of_mem _ he'), htail,
    fun e' he' => ?_, fun k w => ?_⟩
  · rw [hweights, Finmap.mem_insert]
    intro hmem
    rcases hmem with heq | hmem
    · exact hhead (heq ▸ List.mem_map_of_mem he')
    · exact h.fresh e' (List.mem_cons_of_mem _ he') hmem
  · rw [h.lookup_iff, hweights, List.exists_mem_cons_iff]
    by_cases hk : edgeKey R.directed e = k
    · have hfresh : r.weights.lookup k = none :=
        hk ▸ Finmap.lookup_eq_none.2 (h.fresh e List.mem_cons_self)
      rw [hfresh, hk, Finmap.lookup_insert, Option.some_inj]
      simp
    · rw [Finmap.lookup_insert_of_ne _ (Ne.symm hk)]
      simp [hk]

/-- The first of the missing edges is inserted. -/
theorem insert (h : Lacks r (e :: es) R)
    (hroom : Slots.count R.capacity R.directed < Length.room) :
    (r.answer (.insert e.1 e.2.1 (some e.2.2))).result = .ok .nothing ∧
      Lacks (r.answer (.insert e.1 e.2.1 (some e.2.2))).state es R := by
  obtain ⟨ha, hb⟩ := h.below e List.mem_cons_self
  have hle := h.capacity_le
  have hfresh : r.lookup e.1 e.2.1 = none := by
    rw [PairMap.lookup, h.directed_eq]
    exact Finmap.lookup_eq_none.2 (h.fresh e List.mem_cons_self)
  rw [PairMap.answer_insert e.2.2 (h.room hroom (by omega)) hfresh]
  exact ⟨rfl, h.store (by omega)⟩

/-- The calls that insert what is missing are not refused, and make `R` of `r`. -/
theorem rebuild (hroom : Slots.count R.capacity R.directed < Length.room)
    (es : List (Nat × Nat × α)) : ∀ r : PairMap α, Lacks r es R →
      (∀ outcome ∈ (answers PairMap.answer r (rebuilding es R.capacity)).1,
        outcome = .ok .nothing) ∧
      (answers PairMap.answer r (rebuilding es R.capacity)).2 = R := by
  induction es with
  | nil =>
    intro r h
    have hanswer : r.answer (.makeRoom R.capacity) = .done .nothing R := by
      have hweights : r.weights = R.weights := by
        apply Finmap.ext_lookup
        intro k
        apply Option.ext
        intro w
        rw [h.lookup_iff]
        simp
      rw [PairMap.answer, PairMap.makeRoom_of_room (h.room hroom (le_refl _)), h.directed_eq,
        hweights, Nat.max_eq_right h.capacity_le]
      rfl
    unfold rebuilding
    rw [List.map_nil, List.nil_append, answers, answers, hanswer]
    exact ⟨fun outcome hmem => List.mem_singleton.1 hmem, rfl⟩
  | cons e es ih =>
    intro r h
    obtain ⟨hresult, hrest⟩ := h.insert hroom
    obtain ⟨hall, hend⟩ := ih _ hrest
    refine ⟨fun outcome hmem => ?_, hend⟩
    rcases List.mem_cons.1 hmem with rfl | hmem
    · exact hresult
    · exact hall outcome hmem

end Lacks

variable {m : WeightMatrix α}

theorem Mirrors.room (h : Mirrors m R) : Slots.count R.capacity R.directed < Length.room := by
  have hlt := h.size_lt_room
  rw [h.sound, h.directed_eq, h.capacity_eq] at hlt
  omega

/-- A map without weights lacks the edges of the matrix, in any order. -/
theorem Mirrors.lacks (h : Mirrors m R) (hperm : es.Perm (m.weighted m.allPairs)) {first : Nat}
    (hle : first ≤ R.capacity) : Lacks ⟨R.directed, first, ∅⟩ es R := by
  have hmem : ∀ e, e ∈ es ↔ e ∈ m.weighted m.allPairs := fun e => hperm.mem_iff
  refine ⟨rfl, hle, fun e he => ?_, ?_, fun e _ => Finmap.notMem_empty, fun k w => ?_⟩
  · obtain ⟨hpair, _⟩ := mem_weighted.1 ((hmem e).1 he)
    obtain ⟨ha, hb, _⟩ := mem_allPairs.1 hpair
    rw [← h.capacity_eq]
    exact ⟨ha, hb⟩
  · rw [← h.directed_eq]
    exact (hperm.map _).nodup_iff.2 h.nodup_edgeKeys
  · rw [h.lookup_iff, Finmap.lookup_empty, h.directed_eq]
    simp [hmem]

/-- Calls that make `R` of an empty map make `m` of an empty matrix. -/
theorem Mirrors.rebuild (h : Mirrors m R) (hperm : es.Perm (m.weighted m.allPairs)) {first : Nat}
    (hle : first ≤ R.capacity) :
    let made : Reply (WeightMatrix α) Unit := ofCapacity R.directed first
    let given := answers answer made.state (rebuilding es R.capacity)
    made.result = .ok () ∧ (∀ outcome ∈ given.1, outcome = .ok .nothing) ∧ given.2 = m := by
  intro made given
  have hlacks : Lacks ⟨R.directed, first, ∅⟩ es R := h.lacks hperm hle
  have hmade := mirrors_ofCapacity (α := α) R.directed first
  rw [PairMap.ofCapacity_of_room (hlacks.room h.room hle)] at hmade
  obtain ⟨hgiven, hend⟩ := answers_agree answer_agrees (rebuilding es R.capacity) _ _ hmade.state
  obtain ⟨hall, hrebuilt⟩ := Lacks.rebuild h.room es _ hlacks
  refine ⟨hmade.result_eq, fun outcome hmem => ?_, ?_⟩
  · exact hall outcome (hgiven ▸ hmem)
  · exact Mirrors.unique (hrebuilt ▸ hend) h

/-- The edges of a matrix that any calls led to, inserted in any order into a new matrix of no
larger capacity, are not refused, and with the room made up they give the same matrix, slot by
slot. -/
theorem rebuild_eq (directed : Bool) (capacity : Int) (calls : List (Call α)) :
    let m := reached directed capacity calls
    ∃ es, m.edges = .ok es ∧ ∀ es' : List (Nat × Nat × α), es'.Perm es →
      ∀ first : Nat, first ≤ m.capacity →
        let made : Reply (WeightMatrix α) Unit := ofCapacity m.directed first
        let given := answers answer made.state (rebuilding es' m.capacity)
        made.result = .ok () ∧ (∀ outcome ∈ given.1, outcome = .ok .nothing) ∧ given.2 = m := by
  intro m
  obtain ⟨R, h⟩ : ∃ R, Mirrors m R := exists_mirrors_reached directed capacity calls
  refine ⟨_, edges_eq h.sound, fun es' hperm first hle => ?_⟩
  rw [h.directed_eq, h.capacity_eq]
  exact h.rebuild hperm (h.capacity_eq ▸ hle)

/-- The edges in the opposite order, into a matrix with room for one vertex; the calls before have
taken a weight away, replaced another, and have been refused once. -/
theorem rebuild_eq_reversed :
    let calls : List (Call Int) :=
      [.insert 2 0 (some 5), .insert 1 2 (some 7), .erase 0 2, .put 2 1 (some 3),
        .insert 1 1 (some 4), .insert 1 2 (some 6), .makeRoom 5]
    let m := reached false 0 calls
    let made : Reply (WeightMatrix Int) Unit := ofCapacity false 1
    let given := answers answer made.state (rebuilding [(2, 1, 3), (1, 1, 4)] 5)
    m.edges = .ok [(1, 1, 4), (2, 1, 3)] ∧ made.result = .ok () ∧
      (∀ outcome ∈ given.1, outcome = .ok .nothing) ∧ given.2 = m := by
  intro calls m made given
  obtain ⟨es, hedges, hall⟩ := rebuild_eq false 0 calls
  have hcalls : m.edges = .ok [(1, 1, 4), (2, 1, 3)] := by decide
  obtain rfl : es = [(1, 1, 4), (2, 1, 3)] := Except.ok.inj (hedges.symm.trans hcalls)
  exact ⟨hcalls, hall [(2, 1, 3), (1, 1, 4)] (.swap _ _ _) 1 (by decide)⟩

end WeightMatrix

end IndexGraph
