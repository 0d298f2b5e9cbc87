import IndexGraph.Proofs.WeightMatrix
import Mathlib.Data.List.Pairwise

/-
  The list of all edges of a weight matrix is the finite map that the matrix mirrors, written out:
  each pair that has a weight stands in it once (`Mirrors.nodup_edgeKeys`), with its weight
  (`Mirrors.lookup_iff`). In return the map leaves the storage no freedom, because every slot
  belongs to a pair: two matrices that mirror one map are equal (`Mirrors.unique`).
-/

namespace IndexGraph.WeightMatrix

variable {α : Type} {m m' : WeightMatrix α} {r : PairMap α}

/-- The pair of an edge. -/
def edgeKey (directed : Bool) (e : Nat × Nat × α) : (Int × Int) ⊕ Sym2 Int :=
  PairMap.key directed e.1 e.2.1

theorem covers_natCast {a b : Nat} (ha : a < m.capacity) (hb : b < m.capacity) :
    m.covers a b = true := covers_iff.2 (by omega)

/-- What is in the storage is settled by the map. -/
theorem Mirrors.unique (h : Mirrors m r) (h' : Mirrors m' r) : m = m' := by
  have hdirected : m'.directed = m.directed := h'.directed_eq.trans h.directed_eq.symm
  have hcapacity : m'.capacity = m.capacity := h'.capacity_eq.trans h.capacity_eq.symm
  have hcount : m'.edgeCount = m.edgeCount := h'.edgeCount_eq.trans h.edgeCount_eq.symm
  obtain ⟨directed, capacity, edgeCount, slots⟩ := m
  obtain ⟨directed', capacity', edgeCount', slots'⟩ := m'
  obtain rfl : directed' = directed := hdirected
  obtain rfl : capacity' = capacity := hcapacity
  obtain rfl : edgeCount' = edgeCount := hcount
  have hsize : slots.size = slots'.size := h.sound.trans h'.sound.symm
  have hslots : slots = slots' := by
    apply Array.ext hsize
    intro k hk hk'
    obtain ⟨a, b, ha, hb, hslot⟩ := Slots.exists_ofPair (h.sound ▸ hk)
    have hcontent := h.content_eq a b (covers_natCast ha hb)
    have hcontent' := h'.content_eq a b (covers_natCast ha hb)
    rw [slot, hslot] at hcontent hcontent'
    have heq : Slots.content slots k = Slots.content slots' k := hcontent.trans hcontent'.symm
    unfold Slots.content at heq
    rw [Array.getElem?_eq_getElem hk, Array.getElem?_eq_getElem hk'] at heq
    exact heq
  rw [hslots]

/-! ## The pairs in the order of the list -/

theorem mem_allPairs {a b : Nat} :
    (a, b) ∈ m.allPairs ↔
      a < m.capacity ∧ b < m.capacity ∧ (m.directed = false → b ≤ a) := by
  unfold allPairs
  rw [List.mem_flatMap]
  constructor
  · intro hex
    obtain ⟨c, hc, hmem⟩ := hex
    obtain ⟨d, hd, heq⟩ := List.mem_map.1 hmem
    cases heq
    rw [List.mem_range] at hc hd
    split at hd
    · rename_i hdirected
      exact ⟨hc, hd, fun h => by rw [h] at hdirected; cases hdirected⟩
    · exact ⟨hc, by omega, fun _ => by omega⟩
  · intro hpair
    obtain ⟨ha, hb, hle⟩ := hpair
    refine ⟨a, List.mem_range.2 ha, List.mem_map.2 ⟨b, List.mem_range.2 ?_, rfl⟩⟩
    split
    · exact hb
    · rename_i hdirected
      have := hle (Bool.not_eq_true _ ▸ hdirected)
      omega

theorem nodup_allPairs (m : WeightMatrix α) : m.allPairs.Nodup := by
  unfold allPairs
  rw [List.nodup_flatMap]
  constructor
  · intro a _
    exact List.nodup_range.map fun _ _ heq => congrArg Prod.snd heq
  · refine List.nodup_range.pairwise_of_forall_ne fun a _ a' _ hne p hp hp' => hne ?_
    obtain ⟨b, _, rfl⟩ := List.mem_map.1 hp
    obtain ⟨b', _, heq⟩ := List.mem_map.1 hp'
    exact (congrArg Prod.fst heq).symm

/-! ## The list of edges -/

theorem edges_eq (hm : m.Sound) : m.edges = .ok (m.weighted m.allPairs) := by
  refine present_eq hm _ fun p hp => ?_
  obtain ⟨ha, hb, _⟩ := mem_allPairs.1 hp
  exact covers_natCast ha hb

/-- The edges are the weights of the map; an undirected edge is named with its larger vertex
first. -/
theorem Mirrors.mem_weighted_iff (h : Mirrors m r) {a b : Nat} {w : α} :
    (a, b, w) ∈ m.weighted m.allPairs ↔
      r.lookup a b = some w ∧ (m.directed = false → b ≤ a) := by
  rw [mem_weighted, mem_allPairs]
  cases hcov : m.covers a b with
  | true =>
    have hpair := covers_iff.1 hcov
    rw [h.content_eq a b hcov]
    constructor
    · exact fun hmem => ⟨hmem.2, hmem.1.2.2⟩
    · exact fun hmem => ⟨⟨by omega, by omega, hmem.2⟩, hmem.1⟩
  | false =>
    have hpair := covers_eq_false_iff.1 hcov
    rw [h.lookup_eq_none a b hcov]
    constructor
    · exact fun hmem => absurd hmem.1 (by omega)
    · exact fun hmem => by cases hmem.1

/-- Every key of the map is the pair of a listed edge with its weight. -/
theorem Mirrors.lookup_iff (h : Mirrors m r) (k : (Int × Int) ⊕ Sym2 Int) (w : α) :
    r.weights.lookup k = some w ↔
      ∃ e ∈ m.weighted m.allPairs, edgeKey m.directed e = k ∧ e.2.2 = w := by
  constructor
  · intro hlookup
    have hmem : k ∈ r.weights := Finmap.mem_of_lookup_eq_some hlookup
    obtain ⟨a, b, rfl⟩ := h.key_of_mem k hmem
    have hab : r.lookup a b = some w := hlookup
    have hcov : m.covers a b = true := by
      cases hcov : m.covers a b with
      | true => rfl
      | false => rw [h.lookup_eq_none a b hcov] at hab; cases hab
    obtain ⟨⟨ha, _⟩, hb, _⟩ := covers_iff.1 hcov
    obtain ⟨i, rfl⟩ := Int.eq_ofNat_of_zero_le ha
    obtain ⟨j, rfl⟩ := Int.eq_ofNat_of_zero_le hb
    by_cases horder : m.directed = false → j ≤ i
    · refine ⟨(i, j, w), h.mem_weighted_iff.2 ⟨hab, horder⟩, ?_, rfl⟩
      rw [edgeKey, h.directed_eq]
    · -- the smaller vertex came first, so the edge is listed the other way round
      obtain ⟨hdirected, hlt⟩ : m.directed = false ∧ ¬ j ≤ i := Classical.not_imp.1 horder
      have hkey : PairMap.key r.directed j i = PairMap.key r.directed i j :=
        PairMap.key_eq_iff.2 (.inr ⟨h.directed_eq ▸ hdirected, rfl, rfl⟩)
      refine ⟨(j, i, w), h.mem_weighted_iff.2 ⟨?_, fun _ => by omega⟩, ?_, rfl⟩
      · rw [PairMap.lookup, hkey]
        exact hlookup
      · rw [edgeKey, h.directed_eq]
        exact hkey
  · intro hex
    obtain ⟨⟨a, b, w'⟩, hmem, rfl, rfl⟩ := hex
    rw [edgeKey, h.directed_eq]
    exact (h.mem_weighted_iff.1 hmem).1

/-- No pair is listed twice. -/
theorem Mirrors.nodup_edgeKeys (h : Mirrors m r) :
    ((m.weighted m.allPairs).map (edgeKey m.directed)).Nodup := by
  have hnodup : (m.weighted m.allPairs).Nodup := by
    unfold weighted
    refine m.nodup_allPairs.filterMap fun p p' e he he' => ?_
    obtain ⟨w, _, rfl⟩ := Option.map_eq_some_iff.1 he
    obtain ⟨w', _, heq⟩ := Option.map_eq_some_iff.1 he'
    exact Prod.ext (congrArg (fun e => e.1) heq).symm (congrArg (fun e => e.2.1) heq).symm
  refine hnodup.map_on fun e he e' he' hkey => ?_
  obtain ⟨a, b, w⟩ := e
  obtain ⟨c, d, w'⟩ := e'
  obtain ⟨hab, horder⟩ := h.mem_weighted_iff.1 he
  obtain ⟨hcd, horder'⟩ := h.mem_weighted_iff.1 he'
  have hsame : a = c ∧ b = d := by
    have hcases : ((a : Int) = c ∧ (b : Int) = d) ∨
        m.directed = false ∧ (a : Int) = d ∧ (b : Int) = c := PairMap.key_eq_iff.1 hkey
    rcases hcases with heq | ⟨hdirected, heq⟩
    · omega
    · have hle := horder hdirected
      have hle' := horder' hdirected
      omega
  obtain ⟨rfl, rfl⟩ := hsame
  rw [hab] at hcd
  cases hcd
  rfl

end IndexGraph.WeightMatrix
