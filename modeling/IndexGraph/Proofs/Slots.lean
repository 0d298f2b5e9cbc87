import IndexGraph.Slots
import Mathlib.Algebra.Order.Ring.Int
import Mathlib.Tactic.Linarith
import Mathlib.Tactic.Ring

/-
  The slots of the pairs below a capacity are in the storage, and only the two orders of an
  unordered pair share one: `ofPair_in_range` and `ofPair_eq_iff`. There are no other slots:
  each belongs to a pair (`exists_ofPair`). In the triangle this rests on its rows: row `k`
  takes the slots from the `k`-th triangular number up to the next.
-/

namespace IndexGraph.Slots

/-- The number of slots in the rows before row `k` of the triangle. -/
def rowsBefore (k : Int) : Int := k * (k + 1) / 2

theorem triangular_eq (a b : Int) : triangular a b = rowsBefore (max a b) + min a b := rfl

theorem triangular_comm (a b : Int) : triangular a b = triangular b a := by
  rw [triangular_eq, triangular_eq, max_comm, min_comm]

theorem count_undirected (n : Int) : count n false = rowsBefore n := rfl

theorem count_directed (n : Nat) : count n true = ((n * n : Nat) : Int) := by
  unfold count
  push_cast
  rfl

theorem rowsBefore_succ (k : Int) : rowsBefore (k + 1) = rowsBefore k + (k + 1) := by
  have hring : (k + 1) * (k + 1 + 1) = k * (k + 1) + (k + 1) * 2 := by ring
  rw [rowsBefore, rowsBefore, hring, Int.add_mul_ediv_right _ _ (by decide)]

theorem rowsBefore_mono {k l : Int} (hk : 0 ≤ k) (h : k ≤ l) : rowsBefore k ≤ rowsBefore l := by
  apply Int.ediv_le_ediv (by decide)
  have hl : 0 ≤ l := hk.trans h
  exact mul_le_mul h (by omega) (by omega) hl

/-- A row of the triangle ends where the next one begins. -/
theorem triangular_lt {a b l : Int} (ha : 0 ≤ a) (h : max a b < l) :
    triangular a b < rowsBefore l := by
  have hle : rowsBefore (max a b + 1) ≤ rowsBefore l := rowsBefore_mono (by omega) (by omega)
  have hsucc := rowsBefore_succ (max a b)
  rw [triangular_eq]
  omega

theorem rowsBefore_le_triangular {a b : Int} (ha : 0 ≤ a) (hb : 0 ≤ b) :
    rowsBefore (max a b) ≤ triangular a b := by
  rw [triangular_eq]
  omega

/-- Both rows and columns can be read off a slot of the triangle. -/
theorem triangular_inj {a b c d : Int} (ha : 0 ≤ a) (hb : 0 ≤ b) (hc : 0 ≤ c) (hd : 0 ≤ d)
    (h : triangular a b = triangular c d) : max a b = max c d ∧ min a b = min c d := by
  have hmax : max a b = max c d := by
    rcases lt_trichotomy (max a b) (max c d) with hlt | heq | hgt
    · have h1 := triangular_lt ha hlt
      have h2 := rowsBefore_le_triangular hc hd
      omega
    · exact heq
    · have h1 := triangular_lt hc hgt
      have h2 := rowsBefore_le_triangular ha hb
      omega
  refine ⟨hmax, ?_⟩
  rw [triangular_eq, triangular_eq, hmax] at h
  omega

/-- A row of the square ends before the next one begins. -/
theorem square_lt {a b l n : Int} (hn : 0 ≤ n) (hb : b < n) (h : a < l) :
    square a b n < l * n := by
  have hle : (a + 1) * n ≤ l * n := mul_le_mul_of_nonneg_right h hn
  rw [square]
  linarith

theorem square_inj {a b c d n : Int} (hb : 0 ≤ b ∧ b < n) (hd : 0 ≤ d ∧ d < n)
    (h : square a b n = square c d n) : a = c ∧ b = d := by
  have hn : 0 ≤ n := by omega
  have hac : a = c := by
    rcases lt_trichotomy a c with hlt | heq | hgt
    · have h1 := square_lt hn hb.2 hlt
      have h2 : c * n ≤ square c d n := by
        rw [square]
        omega
      omega
    · exact heq
    · have h1 := square_lt hn hd.2 hgt
      have h2 : a * n ≤ square a b n := by
        rw [square]
        omega
      omega
  refine ⟨hac, ?_⟩
  rw [square, square, hac] at h
  omega

section pair

variable {a b n : Int} {directed : Bool}

theorem count_mono {m : Int} (hm : 0 ≤ m) (h : m ≤ n) : count m directed ≤ count n directed := by
  cases directed with
  | true => exact mul_le_mul h h hm (hm.trans h)
  | false => exact rowsBefore_mono hm h

/-- There are at least as many slots as vertices. -/
theorem le_count (n : Nat) : (n : Int) ≤ count n directed := by
  cases directed with
  | true =>
    show (n : Int) ≤ n * n
    exact_mod_cast Nat.le_mul_self n
  | false =>
    rw [count_undirected]
    induction n with
    | zero => decide
    | succ n ih =>
      have hsucc := rowsBefore_succ n
      have h0 : 0 ≤ rowsBefore n := (Int.natCast_nonneg n).trans ih
      push_cast
      omega

/-- The slot of a pair below the capacity is in the storage. -/
theorem ofPair_in_range (ha : 0 ≤ a ∧ a < n) (hb : 0 ≤ b ∧ b < n) :
    0 ≤ ofPair a b n directed ∧ ofPair a b n directed < count n directed := by
  cases directed with
  | true =>
    refine ⟨?_, square_lt (by omega) hb.2 ha.2⟩
    have h := mul_nonneg ha.1 (show 0 ≤ n by omega)
    show 0 ≤ a * n + b
    omega
  | false =>
    refine ⟨?_, triangular_lt ha.1 (max_lt ha.2 hb.2)⟩
    have h1 := rowsBefore_le_triangular ha.1 hb.1
    have h2 : rowsBefore 0 ≤ rowsBefore (max a b) := rowsBefore_mono (le_refl 0) (by omega)
    exact h2.trans h1

/-- Only the two orders of an unordered pair share a slot. -/
theorem ofPair_eq_iff {c d : Int} (ha : 0 ≤ a ∧ a < n) (hb : 0 ≤ b ∧ b < n) (hc : 0 ≤ c ∧ c < n)
    (hd : 0 ≤ d ∧ d < n) : ofPair a b n directed = ofPair c d n directed ↔
      (a = c ∧ b = d) ∨ directed = false ∧ a = d ∧ b = c := by
  cases directed with
  | true =>
    constructor
    · exact fun h => .inl (square_inj hb hd h)
    · intro hcase
      rcases hcase with ⟨rfl, rfl⟩ | ⟨h, _⟩
      · rfl
      · cases h
  | false =>
    constructor
    · intro h
      obtain ⟨hmax, hmin⟩ := triangular_inj ha.1 hb.1 hc.1 hd.1 h
      have hcases : (a = c ∧ b = d) ∨ (a = d ∧ b = c) := by omega
      exact hcases.imp_right fun hswap => ⟨rfl, hswap⟩
    · intro hcase
      rcases hcase with ⟨rfl, rfl⟩ | ⟨_, rfl, rfl⟩
      · rfl
      · exact triangular_comm a b

end pair

/-- Every slot of the triangle is in one of its rows. -/
theorem exists_row {k : Int} (h0 : 0 ≤ k) (n : Nat) (h : k < rowsBefore n) :
    ∃ a : Nat, a < n ∧ rowsBefore a ≤ k ∧ k ≤ rowsBefore a + a := by
  induction n with
  | zero =>
    have hzero : rowsBefore 0 = 0 := by decide
    rw [Nat.cast_zero, hzero] at h
    omega
  | succ n ih =>
    by_cases hk : k < rowsBefore n
    · obtain ⟨a, ha, hrow⟩ := ih hk
      exact ⟨a, by omega, hrow⟩
    · have hsucc := rowsBefore_succ n
      rw [Nat.cast_succ] at h
      exact ⟨n, by omega, by omega, by omega⟩

/-- Every slot of the storage is that of a pair below the capacity. -/
theorem exists_ofPair {n k : Nat} {directed : Bool} (hk : k < (count n directed).toNat) :
    ∃ a b : Nat, a < n ∧ b < n ∧ (ofPair a b n directed).toNat = k := by
  cases directed with
  | true =>
    have hsquare : k < n * n := by
      rw [count_directed] at hk
      omega
    have hn : 0 < n := Nat.pos_of_ne_zero fun h => by simp [h] at hsquare
    refine ⟨k / n, k % n, Nat.div_lt_of_lt_mul hsquare, Nat.mod_lt k hn, ?_⟩
    show (((k / n : Nat) : Int) * n + ((k % n : Nat) : Int)).toNat = k
    have hcast : ((k / n : Nat) : Int) * n + ((k % n : Nat) : Int) = (k : Int) := by
      exact_mod_cast Nat.div_add_mod' k n
    rw [hcast, Int.toNat_natCast]
  | false =>
    rw [count_undirected] at hk
    obtain ⟨a, ha, hlow, hhigh⟩ := exists_row (Int.natCast_nonneg k) n (by omega)
    obtain ⟨b, hb⟩ := Int.eq_ofNat_of_zero_le (show 0 ≤ (k : Int) - rowsBefore a by omega)
    refine ⟨a, b, ha, by omega, ?_⟩
    show (triangular a b).toNat = k
    rw [triangular_eq, max_eq_left (by omega), min_eq_right (by omega)]
    omega

end IndexGraph.Slots
