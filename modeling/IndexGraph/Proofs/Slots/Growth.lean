import IndexGraph.Proofs.Slots
import IndexGraph.Slots.Growth

/-
  What growing leaves in the storage. `content xs k` is the weight at place `k`; a place that is
  empty or outside holds none. `moveRow_eq` says what becomes of each place when one row moves,
  in either of the two ways: the row arrives, the places it came through are empty, and nothing
  else changes, provided that the places it comes to were empty. `moveRows_eq` adds this up:
  the rows before `n` arrive, each at its new stride. `grow_eq`: after a growth a pair of the
  old vertices has the weight it had, and all other pairs have none; a growth for which there is
  no room leaves the storage as it is (`grow_refused`).
-/

namespace IndexGraph.Slots

variable {α : Type}

/-- The weight at a place. -/
def content (xs : Array (Option α)) (k : Nat) : Option α := (xs[k]?).join

theorem content_of_size_le {xs : Array (Option α)} {k : Nat} (h : xs.size ≤ k) :
    content xs k = none := by
  rw [content, Array.getElem?_eq_none h]
  rfl

theorem read_eq_content {xs : Array (Option α)} {k : Nat} (h : k < xs.size) :
    Position.read xs (k : Int) = .ok (content xs k) := by
  rw [Position.read_natCast h, content, Array.getElem?_eq_getElem h]
  rfl

theorem content_padTo (xs : Array (Option α)) (size : Int) (k : Nat) :
    content (Position.padTo xs size none) k = content xs k := by
  rw [content, Position.getElem?_padTo, content]
  split
  · rfl
  · rename_i hk
    rw [Array.getElem?_eq_none (Nat.le_of_not_lt hk)]
    split <;> rfl

theorem content_swap {xs : Array (Option α)} {k l : Nat} (hk : k < xs.size) (hl : l < xs.size)
    (j : Nat) : content (xs.swapIfInBounds k l) j =
      if j = l then content xs k else if j = k then content xs l else content xs j := by
  unfold content
  rw [Array.swapIfInBounds_def, dif_pos hk, dif_pos hl, Array.getElem?_swap,
    Array.getElem?_eq_getElem hk, Array.getElem?_eq_getElem hl]
  by_cases hjl : l = j
  · rw [if_pos hjl, if_pos hjl.symm]
  · rw [if_neg hjl, if_neg (Ne.symm hjl)]
    by_cases hjk : k = j
    · rw [if_pos hjk, if_pos hjk.symm]
    · rw [if_neg hjk, if_neg (Ne.symm hjk)]

/-! ## Moving one row -/

/-- The places of a row of `n` cells that moved from `p` to `q`. -/
def moved (X : Nat → Option α) (p q n : Nat) (j : Nat) : Option α :=
  if q ≤ j ∧ j < q + n then X (j - (q - p)) else if p ≤ j ∧ j < q then none else X j

theorem size_overwrite (ys : List α) :
    ∀ (xs : Array α) (p : Nat), (overwrite xs p ys).size = xs.size := by
  induction ys with
  | nil => exact fun xs p => rfl
  | cons y ys ih =>
    intro xs p
    rw [overwrite, ih, Array.size_setIfInBounds]

theorem getElem?_overwrite (ys : List (Option α)) :
    ∀ (xs : Array (Option α)) (p : Nat), p + ys.length ≤ xs.size → ∀ j,
      (overwrite xs p ys)[j]? =
        if p ≤ j ∧ j < p + ys.length then ys[j - p]? else xs[j]? := by
  induction ys with
  | nil =>
    intro xs p _ j
    rw [overwrite, List.length_nil, if_neg (by omega)]
  | cons y ys ih =>
    intro xs p hsize j
    rw [List.length_cons] at hsize
    rw [overwrite, ih _ _ (by rw [Array.size_setIfInBounds]; omega),
      Array.getElem?_setIfInBounds, List.length_cons]
    by_cases hj : p = j
    · subst hj
      rw [if_neg (by omega), if_pos rfl, if_pos (by omega), if_pos (by omega), Nat.sub_self]
      rfl
    · rw [if_neg hj]
      by_cases hrest : p + 1 ≤ j ∧ j < p + 1 + ys.length
      · have hsub : j - p = (j - (p + 1)) + 1 := by omega
        rw [if_pos hrest, if_pos (by omega), hsub, List.getElem?_cons_succ]
      · rw [if_neg hrest, if_neg (by omega)]

/-- A block that is exchanged with an empty one has moved. -/
theorem exchangeBlocks_eq {xs : Array (Option α)} {p q n : Nat} (hpq : p + n ≤ q)
    (hsize : q + n ≤ xs.size)
    (hnone : ∀ j, p + n ≤ j → j < q + n → content xs j = none) :
    (exchangeBlocks xs p q n).size = xs.size ∧
      ∀ j, content (exchangeBlocks xs p q n) j = moved (content xs) p q n j := by
  have hblock : ∀ {s : Nat}, s + n ≤ xs.size → ((xs.extract s (s + n)).toList).length = n := by
    intro s hs
    rw [Array.length_toList, Array.size_extract]
    omega
  have hget : ∀ {s : Nat} (i : Nat), i < n → ((xs.extract s (s + n)).toList)[i]? = xs[s + i]? := by
    intro s i hi
    rw [Array.getElem?_toList, Array.getElem?_extract]
    split
    · rfl
    · rw [Array.getElem?_eq_none (by omega)]
  have hp := hblock (s := p) (by omega)
  have hq := hblock (s := q) hsize
  refine ⟨by rw [exchangeBlocks, size_overwrite, size_overwrite], fun j => ?_⟩
  have houter := getElem?_overwrite (xs.extract p (p + n)).toList
    (overwrite xs p (xs.extract q (q + n)).toList) q (by rw [size_overwrite, hp]; exact hsize) j
  have hinner := getElem?_overwrite (xs.extract q (q + n)).toList xs p (by omega) j
  rw [hp] at houter
  rw [hq] at hinner
  unfold content moved at *
  rw [exchangeBlocks, houter, hinner]
  by_cases h1 : q ≤ j ∧ j < q + n
  · have hsub : p + (j - q) = j - (q - p) := by omega
    rw [if_pos h1, if_pos h1, hget _ (by omega), hsub]
  · rw [if_neg h1, if_neg h1]
    by_cases h2 : p ≤ j ∧ j < p + n
    · rw [if_pos h2, if_pos (by omega), hget _ (by omega)]
      exact hnone _ (by omega) (by omega)
    · rw [if_neg h2]
      by_cases h3 : p ≤ j ∧ j < q
      · rw [if_pos h3]
        exact hnone _ (by omega) (by omega)
      · rw [if_neg h3]

/-- Cells that are exchanged one by one with empty ones have moved. -/
theorem exchangeCells_eq {p q : Nat} (hpq : p < q) (n : Nat) :
    ∀ xs : Array (Option α), q + n ≤ xs.size →
      (∀ j, p + n ≤ j → j < q + n → content xs j = none) →
      ∃ ys, exchangeCells (p : Int) (q : Int) n xs = .done () ys ∧ ys.size = xs.size ∧
        ∀ j, content ys j = moved (content xs) p q n j := by
  induction n with
  | zero =>
    intro xs _ hnone
    refine ⟨xs, rfl, rfl, fun j => ?_⟩
    unfold moved
    rw [if_neg (by omega)]
    split
    · exact hnone j (by omega) (by omega)
    · rfl
  | succ n ih =>
    intro xs hsize hnone
    have hk : p + n < xs.size := by omega
    have hl : q + n < xs.size := by omega
    have hswap := content_swap hk hl
    obtain ⟨ys, hys, hsize', hcontent⟩ := ih (xs.swapIfInBounds (p + n) (q + n))
      (by rw [Array.size_swapIfInBounds]; omega) fun j h1 h2 => by
        rw [hswap, if_neg (by omega)]
        split
        · exact hnone _ (by omega) (by omega)
        · exact hnone _ (by omega) (by omega)
    refine ⟨ys, ?_, by rw [hsize', Array.size_swapIfInBounds], fun j => ?_⟩
    · have hp : ((p : Int) + n) = ((p + n : Nat) : Int) := by omega
      have hq : ((q : Int) + n) = ((q + n : Nat) : Int) := by omega
      rw [exchangeCells, hp, hq, Position.resolve?_natCast hk, Position.resolve?_natCast hl]
      exact hys
    · rw [hcontent]
      unfold moved
      by_cases h1 : q ≤ j ∧ j < q + n
      · rw [if_pos h1, if_pos (by omega), hswap, if_neg (by omega), if_neg (by omega)]
      · rw [if_neg h1]
        by_cases h2 : p ≤ j ∧ j < q
        · rw [if_pos h2, if_neg (by omega), if_pos h2]
        · rw [if_neg h2, hswap]
          by_cases h3 : j = q + n
          · have hsub : j - (q - p) = p + n := by omega
            rw [if_pos h3, if_pos (by omega), hsub]
          · rw [if_neg h3, if_neg (by omega), if_neg (by omega), if_neg h2]

variable {old new : Nat}

/-- Either way of moving a row leaves the same. -/
theorem moveRow_eq {row : Nat} (hrow : 0 < row) (hlt : old < new) {xs : Array (Option α)}
    (hsize : row * new + old ≤ xs.size)
    (hnone : ∀ j, row * old + old ≤ j → j < row * new + old → content xs j = none) :
    ∃ ys, moveRow (old : Int) (new : Int) row xs = .done () ys ∧ ys.size = xs.size ∧
      ∀ j, content ys j = moved (content xs) (row * old) (row * new) old j := by
  have hp : (row : Int) * (old : Int) = ((row * old : Nat) : Int) := by push_cast; rfl
  have hq : (row : Int) * (new : Int) = ((row * new : Nat) : Int) := by push_cast; rfl
  have hpq : row * old < row * new := Nat.mul_lt_mul_of_pos_left hlt hrow
  unfold moveRow
  simp only [hp, hq, Int.toNat_natCast]
  by_cases hblock : row * old + old ≤ row * new
  · rw [if_pos (by omega)]
    obtain ⟨hsize', hcontent⟩ := exchangeBlocks_eq hblock hsize hnone
    exact ⟨_, rfl, hsize', hcontent⟩
  · rw [if_neg (by omega)]
    exact exchangeCells_eq hpq old xs hsize hnone

/-! ## Moving all rows -/

/-- A place before the end of row `n` is in no later row. -/
theorem row_le {n r c w x : Nat} (hx : x ≤ w) (h : r * w + c < n * w + x) : r ≤ n := by
  by_contra hr
  have hle := Nat.mul_le_mul_right w (show n + 1 ≤ r by omega)
  rw [Nat.succ_mul] at hle
  omega

/-- A place early in its row that comes after that part of row `n` is in a later row. -/
theorem row_lt {n r c w x : Nat} (hc : c < x) (h : n * w + x ≤ r * w + c) : n < r := by
  by_contra hr
  have hle := Nat.mul_le_mul_right w (show r ≤ n by omega)
  omega

/-- The rows `0, …, n` have moved to the new stride, and the rest is as it was. -/
theorem moveRows_eq (hlt : old < new) (n : Nat) :
    ∀ xs : Array (Option α), n * new + old ≤ xs.size →
      (∀ j, n * old + old ≤ j → j < n * new + old → content xs j = none) →
      ∃ ys, moveRows (old : Int) (new : Int) n xs = .done () ys ∧ ys.size = xs.size ∧
        (∀ r c, c < new → r * new + c < n * new + old →
          content ys (r * new + c) = if c < old then content xs (r * old + c) else none) ∧
        ∀ j, n * new + old ≤ j → content ys j = content xs j := by
  induction n with
  | zero =>
    intro xs _ _
    refine ⟨xs, rfl, rfl, fun r c hc hrc => ?_, fun j _ => rfl⟩
    obtain rfl : r = 0 := Nat.le_zero.1 (row_le hlt.le hrc)
    rw [if_pos (by omega), Nat.zero_mul, Nat.zero_mul]
  | succ n ih =>
    intro xs hsize hnone
    have hle : n * old ≤ n * new := Nat.mul_le_mul_left n hlt.le
    have hold : (n + 1) * old = n * old + old := Nat.succ_mul n old
    have hnew : (n + 1) * new = n * new + new := Nat.succ_mul n new
    obtain ⟨xs₁, hmove, hsize₁, hcontent₁⟩ := moveRow_eq (show 0 < n + 1 by omega) hlt hsize hnone
    unfold moved at hcontent₁
    obtain ⟨ys, hys, hsize₂, hrows, hrest⟩ := ih xs₁ (by omega) fun j h1 h2 => by
      rw [hcontent₁, if_neg (by omega), if_pos (by omega)]
    refine ⟨ys, ?_, hsize₂.trans hsize₁, fun r c hc hrc => ?_, fun j hj => ?_⟩
    · rw [moveRows, hmove, Reply.done_andThen]
      exact hys
    · by_cases hrn : r * new + c < n * new + old
      · -- an earlier row: the move of row `n + 1` did not touch where it came from
        have hr := Nat.mul_le_mul_right old (row_le hlt.le hrn)
        rw [hrows r c hc hrn]
        split
        · rw [hcontent₁, if_neg (by omega), if_neg (by omega)]
        · rfl
      · rw [hrest _ (by omega), hcontent₁]
        by_cases hc' : c < old
        · have h1 : r ≤ n + 1 := row_le hlt.le hrc
          have h2 : n < r := row_lt (w := new) hc' (by omega)
          obtain rfl : r = n + 1 := Nat.le_antisymm h1 h2
          have hsub : (n + 1) * new + c - ((n + 1) * new - (n + 1) * old) = (n + 1) * old + c := by
            omega
          rw [if_pos (by omega), if_pos hc', hsub]
        · have hr : r ≤ n := row_le (c := c - old) (le_refl new) (by omega)
          have := Nat.mul_le_mul_right new hr
          rw [if_neg hc', if_neg (by omega), if_pos (by omega)]
    · rw [hrest j (by omega), hcontent₁, if_neg (by omega), if_neg (by omega)]

/-! ## Growing the storage -/

theorem toNat_square (a b n : Nat) : (ofPair a b n true).toNat = a * n + b := by
  show ((a : Int) * n + b).toNat = a * n + b
  omega

theorem toNat_count_directed (n : Nat) : (count n true).toNat = n * n := by
  rw [count_directed, Int.toNat_natCast]

theorem lengthen_eq {xs : Array (Option α)} {new : Int} {directed : Bool}
    (h : Length.Extensible xs.size (count new directed)) :
    lengthen xs new directed = .done () (Position.padTo xs (count new directed) none) := if_pos h

/-- The square after a growth. -/
theorem growSquare_eq {xs : Array (Option α)} (hsize : xs.size = old * old) (hlt : old < new)
    (hext : Length.Extensible xs.size (count new true)) :
    ∃ ys, growSquare xs (old : Int) (new : Int) = .done () ys ∧ ys.size = new * new ∧
      ∀ r c, c < new → content ys (r * new + c) =
        if r < old ∧ c < old then content xs (r * old + c) else none := by
  have hcontent := content_padTo xs (count new true)
  have hpad : (Position.padTo xs (count new true) none).size = new * new := by
    have hle := Nat.mul_le_mul hlt.le hlt.le
    rw [Position.size_padTo, toNat_count_directed, hsize]
    omega
  obtain ⟨n, hn, hrows⟩ : ∃ n, ((old : Int) - 1).toNat = n ∧ (n + 1 = old ∨ n = 0 ∧ old = 0) :=
    ⟨_, rfl, by omega⟩
  have hbound : n * new + old ≤ new * new := by
    rcases hrows with hrows | ⟨rfl, rfl⟩
    · have h1 := Nat.mul_le_mul_right new (show n + 1 ≤ new by omega)
      rw [Nat.succ_mul] at h1
      omega
    · omega
  have hsquare : n * old + old = old * old := by
    rcases hrows with rfl | ⟨rfl, rfl⟩
    · exact (Nat.succ_mul n (n + 1)).symm
    · rfl
  have hstride : n * old ≤ n * new := Nat.mul_le_mul_left n hlt.le
  have hnone : ∀ j, old * old ≤ j → content (Position.padTo xs (count new true) none) j = none :=
    fun j hj => (hcontent j).trans (content_of_size_le (by omega))
  obtain ⟨ys, hys, hsize', hmoved, hrest⟩ := moveRows_eq hlt n
    (Position.padTo xs (count new true) none) (by omega) fun j hj _ => hnone j (by omega)
  refine ⟨ys, ?_, hsize'.trans hpad, fun r c hc => ?_⟩
  · rw [growSquare, lengthen_eq hext, Reply.done_andThen, hn]
    exact hys
  · by_cases hj : r * new + c < n * new + old
    · have hr : r < old := by
        have hrn := row_le hlt.le hj
        rcases hrows with hrows | ⟨rfl, rfl⟩
        · omega
        · omega
      rw [hmoved r c hc hj, hcontent]
      by_cases hc' : c < old
      · rw [if_pos hc', if_pos ⟨hr, hc'⟩]
      · rw [if_neg hc', if_neg fun h => hc' h.2]
    · rw [hrest _ (by omega), hnone _ (by omega), if_neg]
      intro hex
      obtain ⟨hr, hc'⟩ := hex
      have hrn : n < r := row_lt (w := new) hc' (by omega)
      omega

/-- After a growth the pairs of old vertices have what they had, and the others have nothing. -/
theorem grow_eq {xs : Array (Option α)} {directed : Bool}
    (hsize : xs.size = (count old directed).toNat) (hlt : old < new)
    (hext : Length.Extensible xs.size (count new directed)) :
    ∃ ys, grow xs (old : Int) (new : Int) directed = .done () ys ∧
      ys.size = (count new directed).toNat ∧
      ∀ a b : Nat, a < new → b < new → content ys (ofPair a b new directed).toNat =
        if a < old ∧ b < old then content xs (ofPair a b old directed).toNat else none := by
  cases directed with
  | true =>
    rw [toNat_count_directed] at hsize
    obtain ⟨ys, hys, hsize', hcontent⟩ := growSquare_eq hsize hlt hext
    refine ⟨ys, hys, by rw [hsize', toNat_count_directed], fun a b _ hb => ?_⟩
    rw [toNat_square, toNat_square]
    exact hcontent a b hb
  | false =>
    have hmono : count (old : Int) false ≤ count (new : Int) false :=
      count_mono (Int.natCast_nonneg old) (by omega)
    refine ⟨Position.padTo xs (count new false) none, lengthen_eq hext, ?_, fun a b ha hb => ?_⟩
    · rw [Position.size_padTo]
      omega
    · rw [content_padTo]
      by_cases hold : a < old ∧ b < old
      · rw [if_pos hold]
        rfl
      · -- the rows of the new vertices begin where the old storage ends
        have h1 : rowsBefore old ≤ rowsBefore (max (a : Int) b) :=
          rowsBefore_mono (Int.natCast_nonneg old) (by omega)
        have h2 : rowsBefore (max (a : Int) b) ≤ ofPair a b new false :=
          rowsBefore_le_triangular (Int.natCast_nonneg a) (Int.natCast_nonneg b)
        have h3 : count (old : Int) false = rowsBefore old := count_undirected old
        rw [if_neg hold, content_of_size_le (by omega)]

/-- A growth for which there is no room changes nothing. -/
theorem grow_refused {xs : Array (Option α)} {directed : Bool} {old new : Int}
    (h : ¬ Length.Extensible xs.size (count new directed)) :
    grow xs old new directed = .fail (Length.refusal (count new directed - xs.size)) xs := by
  have hlengthen : lengthen xs new directed =
      .fail (Length.refusal (count new directed - xs.size)) xs := if_neg h
  cases directed with
  | true =>
    rw [grow, if_pos rfl, growSquare, hlengthen, Reply.fail_andThen]
  | false => exact hlengthen

end IndexGraph.Slots
