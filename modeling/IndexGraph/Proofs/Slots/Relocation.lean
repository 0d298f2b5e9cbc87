import IndexGraph.Proofs.Slots.Growth

/-
  Widening a square from `old` to `new` vertices, told slot by slot (`growSquare_relocates`): what
  was in row `r` and column `c` is there at the new stride, and all other slots are empty. Rows far
  down move as blocks and the rows near the top cell by cell, as far as their old and new places
  overlap; the statement does not depend on which rows do which. A square that keeps its width
  exchanges every cell with itself (`growSquare_self`). Without room for the new slots nothing
  moves.
-/

namespace IndexGraph.Slots

variable {α : Type} {old new : Nat} {xs : Array (Option α)}

theorem getElem?_eq_content {k : Nat} (h : k < xs.size) : xs[k]? = some (content xs k) := by
  unfold content
  rw [Array.getElem?_eq_getElem h]
  rfl

/-! ## The same width -/

theorem swap_self (xs : Array (Option α)) (k : Nat) : xs.swapIfInBounds k k = xs := by
  rw [Array.swapIfInBounds_def]
  split
  · rename_i hk
    apply Array.ext_getElem?
    intro j
    rw [Array.getElem?_swap]
    by_cases hj : k = j
    · subst hj
      rw [if_pos rfl, Array.getElem?_eq_getElem hk]
    · rw [if_neg hj, if_neg hj]
  · rfl

theorem exchangeCells_self {p : Nat} (n : Nat) (h : p + n ≤ xs.size) :
    exchangeCells (p : Int) (p : Int) n xs = .done () xs := by
  induction n with
  | zero => rfl
  | succ n ih =>
    have hcell : (p : Int) + n = ((p + n : Nat) : Int) := by omega
    rw [exchangeCells, hcell, Position.resolve?_natCast (show p + n < xs.size by omega)]
    dsimp only
    rw [swap_self]
    exact ih (by omega)

/-- The places overlap, so the row is exchanged cell by cell, each one with itself. -/
theorem moveRow_self {row : Nat} (hold : 0 < old) (h : row * old + old ≤ xs.size) :
    moveRow (old : Int) (old : Int) row xs = .done () xs := by
  have hplace : (row : Int) * (old : Int) = ((row * old : Nat) : Int) := by push_cast; rfl
  unfold moveRow
  simp only [hplace]
  rw [if_neg (by omega), Int.toNat_natCast]
  exact exchangeCells_self old h

theorem moveRows_self (hold : 0 < old) (n : Nat) (h : n * old + old ≤ xs.size) :
    moveRows (old : Int) (old : Int) n xs = .done () xs := by
  induction n with
  | zero => rfl
  | succ n ih =>
    have hstep : (n + 1) * old = n * old + old := Nat.succ_mul n old
    rw [moveRows, moveRow_self hold h, Reply.done_andThen]
    exact ih (by omega)

theorem growSquare_self (hsize : xs.size = old * old) :
    growSquare xs (old : Int) (old : Int) = .done () xs := by
  have hpad : Position.padTo xs (count (old : Int) true) none = xs := by
    rw [count_directed, Position.padTo, hsize]
    simp
  have hext : Length.Extensible xs.size (count (old : Int) true) :=
    .inl (by rw [count_directed, hsize])
  rw [growSquare, lengthen_eq hext, Reply.done_andThen, hpad]
  cases hold : old with
  | zero => rfl
  | succ n =>
    have hrows : ((n + 1 : Nat) : Int) - 1 = (n : Int) := by omega
    rw [hrows, Int.toNat_natCast]
    refine moveRows_self (by omega) n ?_
    rw [hsize, hold]
    exact (Nat.succ_mul n (n + 1)).ge

/-! ## Every slot of the new square -/

theorem exists_row_column {k : Nat} (h : k < new * new) :
    ∃ r c, r < new ∧ c < new ∧ k = r * new + c := by
  have hpos : 0 < new := Nat.pos_of_ne_zero fun hzero => by simp [hzero] at h
  exact ⟨k / new, k % new, Nat.div_lt_of_lt_mul h, Nat.mod_lt k hpos, (Nat.div_add_mod' k new).symm⟩

theorem row_column_lt {r c : Nat} (hr : r < new) (hc : c < new) : r * new + c < new * new := by
  have hle := Nat.mul_le_mul_right new (Nat.succ_le_of_lt hr)
  rw [Nat.succ_mul] at hle
  omega

/-- Each value of the old square has its row and column in the new one, and the rest of the new
square is empty, as long as there is room for it; otherwise the old square stays as it is. -/
theorem growSquare_relocates (old new : Nat) (hle : old ≤ new) (xs : Array (Option α))
    (hsize : xs.size = old * old) :
    (old = new ∨ new * new < Length.room →
      ∃ ys, growSquare xs (old : Int) (new : Int) = .done () ys ∧ ys.size = new * new ∧
        (∀ r c, r < old → c < old → ys[r * new + c]? = xs[r * old + c]?) ∧
        ∀ k < new * new, (∀ r c, r < old → c < old → k ≠ r * new + c) → ys[k]? = some none) ∧
    (¬ (old = new ∨ new * new < Length.room) →
      growSquare xs (old : Int) (new : Int) =
        .fail (Length.refusal ((new : Int) * new - (old : Int) * old)) xs) := by
  constructor
  · intro hroom
    rcases Nat.lt_or_eq_of_le hle with hlt | rfl
    · have hext : Length.Extensible xs.size (count (new : Int) true) := by
        refine .inr ?_
        rw [count_directed]
        omega
      obtain ⟨ys, hgrow, hsize', hcontent⟩ := growSquare_eq hsize hlt hext
      refine ⟨ys, hgrow, hsize', fun r c hr hc => ?_, fun k hk hnone => ?_⟩
      · rw [getElem?_eq_content (hsize' ▸ row_column_lt (by omega) (by omega)),
          getElem?_eq_content (hsize ▸ row_column_lt hr hc), hcontent r c (by omega),
          if_pos ⟨hr, hc⟩]
      · obtain ⟨r, c, _, hc, rfl⟩ := exists_row_column hk
        rw [getElem?_eq_content (hsize' ▸ hk), hcontent r c hc,
          if_neg fun h => hnone r c h.1 h.2 rfl]
    · refine ⟨xs, growSquare_self hsize, hsize, fun _ _ _ _ => rfl, fun k hk hnone => ?_⟩
      obtain ⟨r, c, hr, hc, rfl⟩ := exists_row_column hk
      exact absurd rfl (hnone r c hr hc)
  · intro hroom
    have hle' : old * old ≤ new * new := Nat.mul_le_mul hle hle
    have hne : old * old ≠ new * new := fun heq => hroom (.inl (Nat.mul_self_inj.1 heq))
    have hext : ¬ Length.Extensible xs.size (count (new : Int) true) := by
      unfold Length.Extensible
      rw [count_directed]
      omega
    have hgrow : grow xs (old : Int) (new : Int) true = _ := grow_refused hext
    rw [grow, if_pos rfl, count_directed, hsize] at hgrow
    push_cast at hgrow
    exact hgrow

/-- From three vertices to five: row 2 moves as a block, and row 1, whose places overlap, cell by
cell. One slot of the old square is empty. -/
theorem growSquare_relocates_both_ways :
    let xs : Array (Option Nat) :=
      #[some 1, some 2, some 3, some 4, none, some 6, some 7, some 8, some 9]
    2 * 3 + 3 ≤ 2 * 5 ∧ ¬ 1 * 3 + 3 ≤ 1 * 5 ∧
      ∃ ys, growSquare xs 3 5 = .done () ys ∧ ys.size = 5 * 5 ∧
        (∀ r c, r < 3 → c < 3 → ys[r * 5 + c]? = xs[r * 3 + c]?) ∧
        ∀ k < 5 * 5, (∀ r c, r < 3 → c < 3 → k ≠ r * 5 + c) → ys[k]? = some none :=
  ⟨by decide, by decide,
    (growSquare_relocates 3 5 (by decide) _ rfl).1 (.inr (by decide))⟩

/-- An empty square is not widened to more slots than there is room for. -/
theorem growSquare_eq_lengthRange :
    let grown := growSquare (#[] : Array (Option Int)) 0 4611686018427387904
    (#[] : Array (Option Int)).size = 0 * 0 ∧ grown.result = .error .lengthRange ∧
      grown.state.size ≠ 4611686018427387904 * 4611686018427387904 := by
  decide

end IndexGraph.Slots
