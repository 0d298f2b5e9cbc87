import IndexGraph.Proofs.Slots
import Mathlib.Data.Prod.Lex
import Mathlib.Data.Set.Function
import Mathlib.Data.Sym.Sym2

/-
  Both layouts fill their storage exactly: no two pairs collide and no slot is left over
  (`layouts_pack`).
  A square gives every ordered pair below its width a slot of its own (`bijOn_square`). A triangle
  does so for the pairs whose first vertex is not the smaller one (`bijOn_triangular`); going
  through them row by row, the slots only rise (`triangular_lt_triangular`), and an unordered pair
  is found from either side. The rows of the vertices from `m` on are those behind the storage
  of `m` vertices (`count_le_triangular_iff`), so a triangle that grows keeps every pair in place.
-/

namespace IndexGraph.Slots

variable {n : Nat} {p q : Int × Int}

/-- The numbers `0, …, n - 1`. -/
def below (n : Int) : Set Int := {k | 0 ≤ k ∧ k < n}

/-- The ordered pairs of numbers below `n`. -/
def pairs (n : Nat) : Set (Int × Int) := below n ×ˢ below n

/-- The pairs below `n` whose first vertex is not the smaller one. -/
def lowerPairs (n : Nat) : Set (Int × Int) := {p | p ∈ pairs n ∧ p.2 ≤ p.1}

theorem mem_pairs : p ∈ pairs n ↔ (0 ≤ p.1 ∧ p.1 < n) ∧ 0 ≤ p.2 ∧ p.2 < n := Iff.rfl

/-! ## All pairs of either layout -/

theorem mapsTo_ofPair (n : Nat) (directed : Bool) :
    Set.MapsTo (fun p => ofPair p.1 p.2 n directed) (pairs n) (below (count n directed)) :=
  fun _ hp => ofPair_in_range (mem_pairs.1 hp).1 (mem_pairs.1 hp).2

theorem surjOn_ofPair (n : Nat) (directed : Bool) :
    Set.SurjOn (fun p => ofPair p.1 p.2 n directed) (pairs n) (below (count n directed)) := by
  intro k hk
  obtain ⟨h0, hlt⟩ := hk
  obtain ⟨j, rfl⟩ := Int.eq_ofNat_of_zero_le h0
  obtain ⟨a, b, ha, hb, hj⟩ := exists_ofPair (show j < (count n directed).toNat by omega)
  have hp : ((a : Int), (b : Int)) ∈ pairs n := mem_pairs.2 ⟨by omega, by omega⟩
  have hslot : 0 ≤ ofPair a b n directed := (mapsTo_ofPair n directed hp).1
  refine ⟨(a, b), hp, ?_⟩
  show ofPair a b n directed = j
  omega

theorem ofPair_directed_eq_iff (hp : p ∈ pairs n) (hq : q ∈ pairs n) :
    ofPair p.1 p.2 n true = ofPair q.1 q.2 n true ↔ p = q := by
  rw [mem_pairs] at hp hq
  rw [ofPair_eq_iff hp.1 hp.2 hq.1 hq.2, Prod.ext_iff]
  simp

theorem ofPair_undirected_eq_iff (hp : p ∈ pairs n) (hq : q ∈ pairs n) :
    ofPair p.1 p.2 n false = ofPair q.1 q.2 n false ↔ s(p.1, p.2) = s(q.1, q.2) := by
  rw [mem_pairs] at hp hq
  rw [ofPair_eq_iff hp.1 hp.2 hq.1 hq.2, Sym2.eq_iff]
  simp

theorem bijOn_square (n : Nat) :
    Set.BijOn (fun p => square p.1 p.2 n) (pairs n) (below (count n true)) :=
  ⟨mapsTo_ofPair n true, fun _ hp _ hq h => (ofPair_directed_eq_iff hp hq).1 h,
    surjOn_ofPair n true⟩

/-! ## The rows of the triangle -/

/-- Row by row, and in each row from left to right, the slots rise. -/
theorem triangular_lt_triangular (hp : p ∈ lowerPairs n) (hq : q ∈ lowerPairs n)
    (h : toLex p < toLex q) : triangular p.1 p.2 < triangular q.1 q.2 := by
  obtain ⟨hp, hple⟩ := hp
  obtain ⟨hq, hqle⟩ := hq
  rw [mem_pairs] at hp hq
  rcases Prod.Lex.toLex_lt_toLex.1 h with hrow | ⟨hrow, hcolumn⟩
  · -- a later row begins behind the end of this one
    have hend : triangular p.1 p.2 < rowsBefore q.1 := triangular_lt hp.1.1 (by omega)
    have hbegin := rowsBefore_le_triangular hq.1.1 hq.2.1
    rw [max_eq_left hqle] at hbegin
    omega
  · rw [triangular_eq, triangular_eq, max_eq_left hple, max_eq_left hqle, min_eq_right hple,
      min_eq_right hqle, hrow]
    omega

theorem injOn_triangular (n : Nat) :
    Set.InjOn (fun p => triangular p.1 p.2) (lowerPairs n) := by
  intro p hp q hq h
  rcases lt_trichotomy (toLex p) (toLex q) with hlt | heq | hgt
  · exact absurd h (triangular_lt_triangular hp hq hlt).ne
  · exact toLex.injective heq
  · exact absurd h (triangular_lt_triangular hq hp hgt).ne'

theorem bijOn_triangular (n : Nat) :
    Set.BijOn (fun p => triangular p.1 p.2) (lowerPairs n) (below (count n false)) := by
  refine ⟨fun p hp => mapsTo_ofPair n false hp.1, injOn_triangular n, fun k hk => ?_⟩
  obtain ⟨p, hp, hslot⟩ := surjOn_ofPair n false hk
  rcases le_total p.2 p.1 with hle | hle
  · exact ⟨p, ⟨hp, hle⟩, hslot⟩
  · exact ⟨p.swap, ⟨⟨hp.2, hp.1⟩, hle⟩, (triangular_comm p.2 p.1).trans hslot⟩

/-- The slots behind the storage of `m` vertices belong to the pairs with a vertex from `m` on. -/
theorem count_le_triangular_iff {m : Nat} (h1 : 0 ≤ p.1) (h2 : 0 ≤ p.2) :
    count m false ≤ triangular p.1 p.2 ↔ (m : Int) ≤ p.1 ∨ (m : Int) ≤ p.2 := by
  rw [count_undirected, ← le_max_iff]
  constructor
  · intro h
    by_contra hlt
    exact absurd h (triangular_lt h1 (not_le.1 hlt)).not_ge
  · intro h
    exact (rowsBefore_mono (Int.natCast_nonneg m) h).trans (rowsBefore_le_triangular h1 h2)

/-! ## Both layouts -/

/-- The slots for `n` vertices are those of the pairs below `n`, each once. -/
structure Packs (n : Nat) : Prop where
  /-- An unordered pair is found from either side. -/
  comm : ∀ p ∈ pairs n, triangular p.1 p.2 = triangular p.2 p.1
  bijOn_triangular :
    Set.BijOn (fun p => triangular p.1 p.2) (lowerPairs n) (below (count n false))
  rising : ∀ p ∈ lowerPairs n, ∀ q ∈ lowerPairs n, toLex p < toLex q →
    triangular p.1 p.2 < triangular q.1 q.2
  bijOn_square : Set.BijOn (fun p => square p.1 p.2 n) (pairs n) (below (count n true))
  directed_eq_iff : ∀ p ∈ pairs n, ∀ q ∈ pairs n,
    ofPair p.1 p.2 n true = ofPair q.1 q.2 n true ↔ p = q
  undirected_eq_iff : ∀ p ∈ pairs n, ∀ q ∈ pairs n,
    ofPair p.1 p.2 n false = ofPair q.1 q.2 n false ↔ s(p.1, p.2) = s(q.1, q.2)
  /-- The pairs with a vertex from `m` on, and no others, are behind the storage of `m` vertices. -/
  behind_iff : ∀ m : Nat, ∀ p ∈ pairs n,
    count m false ≤ ofPair p.1 p.2 n false ↔ (m : Int) ≤ p.1 ∨ (m : Int) ≤ p.2

/-- For every number of vertices, neither layout lets two pairs collide or leaves a gap. -/
theorem layouts_pack (n : Nat) : Packs n where
  comm p _ := triangular_comm p.1 p.2
  bijOn_triangular := Slots.bijOn_triangular n
  rising _ hp _ hq := triangular_lt_triangular hp hq
  bijOn_square := Slots.bijOn_square n
  directed_eq_iff _ hp _ hq := ofPair_directed_eq_iff hp hq
  undirected_eq_iff _ hp _ hq := ofPair_undirected_eq_iff hp hq
  behind_iff _ _ hp := count_le_triangular_iff (mem_pairs.1 hp).1.1 (mem_pairs.1 hp).2.1

end IndexGraph.Slots
