import IndexGraph.Proofs.Slots.Growth

/-
  Growing conserves what is stored, whatever widths are given (`grow_conserves`): the storage
  afterwards holds the values there were, each as often as before, and as many empty slots as were
  missing. This includes widths that shrink or are negative, storage of a wrong length, and a
  growth that is refused on the way because an index lies outside.
  The steps only exchange cells. For single cells this holds wherever the two indices lead, also
  if they count from the end or name the same cell. Blocks are exchanged without a check; but a
  row moves as a block only if the square gets wider, and then both its places are inside
  (`block_inside`). Hence nothing changes if blocks are taken for slices, which are cut where the
  storage ends and could make it longer or shorter (`growBySlices_eq`).
  `Rearranges` says what one step may do, and it is kept from row to row.
-/

namespace IndexGraph.Slots

variable {α : Type} {xs : Array α}

/-! ## One block for another -/

theorem exists_append {l : List α} {k : Nat} (h : k ≤ l.length) :
    ∃ a b, l = a ++ b ∧ a.length = k :=
  ⟨l.take k, l.drop k, (List.take_append_drop k l).symm, List.length_take_of_le h⟩

theorem toList_extract_block {a b c : List α} (h : xs.toList = a ++ (b ++ c)) :
    (xs.extract a.length (a.length + b.length)).toList = b := by
  rw [Array.toList_extract, h, List.extract_eq_take_drop, List.drop_left' rfl,
    Nat.add_sub_cancel_left, List.take_left' rfl]

theorem toList_overwrite (ys : List α) : ∀ (xs : Array α) (a b c : List α),
    xs.toList = a ++ (b ++ c) → b.length = ys.length →
      (overwrite xs a.length ys).toList = a ++ (ys ++ c) := by
  induction ys with
  | nil =>
    intro xs a b c h hb
    rw [overwrite, h, List.length_eq_zero_iff.1 hb]
  | cons y ys ih =>
    intro xs a b c h hb
    obtain ⟨x, b, rfl⟩ := List.exists_cons_of_length_eq_add_one hb
    have hset : (xs.setIfInBounds a.length y).toList = (a ++ [y]) ++ (b ++ c) := by
      rw [Array.toList_setIfInBounds, h, List.set_append_right _ _ (Nat.le_refl _), Nat.sub_self,
        List.append_assoc]
      rfl
    have hrest := ih _ _ b c hset (Nat.succ.inj hb)
    rw [List.length_append] at hrest
    rw [overwrite]
    exact hrest.trans (List.append_assoc a [y] (ys ++ c))

theorem perm_exchange (a b c d e : List α) :
    (a ++ (d ++ (c ++ (b ++ e)))).Perm (a ++ (b ++ (c ++ (d ++ e)))) := by
  refine List.Perm.append_left a ?_
  calc List.Perm (d ++ (c ++ (b ++ e))) (c ++ (d ++ (b ++ e))) :=
        List.perm_append_comm_assoc d c (b ++ e)
    List.Perm _ (c ++ (b ++ (d ++ e))) := (List.perm_append_comm_assoc d b e).append_left c
    List.Perm _ (b ++ (c ++ (d ++ e))) := List.perm_append_comm_assoc c b (d ++ e)

/-- The storage around two blocks inside it that do not overlap. -/
theorem exists_blocks {p q n : Nat} (hpq : p + n ≤ q) (hsize : q + n ≤ xs.size) :
    ∃ a b c d e, xs.toList = a ++ (b ++ (c ++ (d ++ e))) ∧ a.length = p ∧ b.length = n ∧
      d.length = n ∧ (a ++ (b ++ c)).length = q := by
  have hlength : xs.toList.length = xs.size := Array.length_toList
  obtain ⟨a, r₁, h, ha⟩ := exists_append (show p ≤ xs.toList.length by omega)
  rw [h, List.length_append] at hlength
  obtain ⟨b, r₂, rfl, hb⟩ := exists_append (show n ≤ r₁.length by omega)
  rw [List.length_append] at hlength
  obtain ⟨c, r₃, rfl, hc⟩ := exists_append (show q - (p + n) ≤ r₂.length by omega)
  rw [List.length_append] at hlength
  obtain ⟨d, e, rfl, hd⟩ := exists_append (show n ≤ r₃.length by omega)
  refine ⟨a, b, c, d, e, h, ha, hb, hd, ?_⟩
  rw [List.length_append, List.length_append]
  omega

theorem toList_exchangeBlocks {a b c d e : List α} (h : xs.toList = a ++ (b ++ (c ++ (d ++ e))))
    (hlength : d.length = b.length) :
    (exchangeBlocks xs a.length (a ++ (b ++ c)).length b.length).toList =
      a ++ (d ++ (c ++ (b ++ e))) := by
  have hbehind : xs.toList = (a ++ (b ++ c)) ++ (d ++ e) := by
    rw [h]
    simp only [List.append_assoc]
  have hatP := toList_extract_block h
  have hatQ := toList_extract_block hbehind
  rw [hlength] at hatQ
  have hfirst := toList_overwrite d xs a b _ h hlength.symm
  have hsecond := toList_overwrite b (overwrite xs a.length d) (a ++ (d ++ c)) d e
    (by rw [hfirst]; simp only [List.append_assoc]) hlength
  have hplace : (a ++ (d ++ c)).length = (a ++ (b ++ c)).length := by
    simp only [List.length_append, hlength]
  rw [hplace] at hsecond
  rw [exchangeBlocks, hatP, hatQ, hsecond]
  simp only [List.append_assoc]

/-- Two blocks inside the storage that do not overlap change places. -/
theorem perm_exchangeBlocks {p q n : Nat} (hpq : p + n ≤ q) (hsize : q + n ≤ xs.size) :
    (exchangeBlocks xs p q n).toList.Perm xs.toList := by
  obtain ⟨a, b, c, d, e, h, rfl, rfl, hd, rfl⟩ := exists_blocks hpq hsize
  rw [toList_exchangeBlocks h hd, h]
  exact perm_exchange a b c d e

/-! ## Blocks as slices -/

/-- The bound of a slice: a negative one counts from the end, and none leads outside. -/
def bound (size : Nat) (i : Int) : Nat := min size (if i < 0 then i + size else i).toNat

/-- The entries from `i` up to `j`, as far as there are any. -/
def slice (l : List α) (i j : Int) : List α := (l.take (bound l.length j)).drop (bound l.length i)

/-- Puts `ys` in place of the entries from `i` up to `j`, of which there may be more or fewer. -/
def splice (l : List α) (i j : Int) (ys : List α) : List α :=
  l.take (bound l.length i) ++ (ys ++ l.drop (max (bound l.length i) (bound l.length j)))

/-- Puts two slices in place of each other, the one at `p` first. Both are read before. -/
def exchangeSlices (l : List α) (p q len : Int) : List α :=
  splice (splice l p (p + len) (slice l q (q + len))) q (q + len) (slice l p (p + len))

/-- `moveRow` with slices for blocks. -/
def moveRowBySlices (old new : Int) (row : Nat) (xs : Array α) : Reply (Array α) Unit :=
  let p := row * old
  let q := row * new
  if p + old ≤ q then .done () (exchangeSlices xs.toList p q old).toArray
  else exchangeCells p q old.toNat xs

/-- `moveRows` with slices for blocks. -/
def moveRowsBySlices (old new : Int) : Nat → Array α → Reply (Array α) Unit
  | 0, xs => .done () xs
  | n + 1, xs =>
    (moveRowBySlices old new (n + 1) xs).andThen fun _ ys => moveRowsBySlices old new n ys

/-- `grow` with slices for blocks. -/
def growBySlices (xs : Array (Option α)) (old new : Int) (directed : Bool) :
    Reply (Array (Option α)) Unit :=
  if directed then
    (lengthen xs new true).andThen fun _ xs => moveRowsBySlices old new (old - 1).toNat xs
  else lengthen xs new false

theorem bound_natCast {size k : Nat} (h : k ≤ size) : bound size (k : Int) = k := by
  unfold bound
  rw [if_neg (by omega)]
  omega

theorem slice_append {a b c : List α} {i j : Int} (hi : i = a.length)
    (hj : j = (a.length + b.length : Nat)) : slice (a ++ (b ++ c)) i j = b := by
  have hlength : (a ++ (b ++ c)).length = a.length + b.length + c.length := by
    rw [List.length_append, List.length_append, Nat.add_assoc]
  unfold slice
  rw [hi, hj, hlength, bound_natCast (by omega), bound_natCast (by omega),
    List.take_length_add_append, List.take_left' rfl, List.drop_left' rfl]

theorem splice_append {a b c : List α} {i j : Int} (hi : i = a.length)
    (hj : j = (a.length + b.length : Nat)) (ys : List α) :
    splice (a ++ (b ++ c)) i j ys = a ++ (ys ++ c) := by
  have hlength : (a ++ (b ++ c)).length = a.length + b.length + c.length := by
    rw [List.length_append, List.length_append, Nat.add_assoc]
  unfold splice
  rw [hi, hj, hlength, bound_natCast (by omega), bound_natCast (by omega), List.take_left' rfl,
    max_eq_right (by omega), ← List.drop_drop, List.drop_left' rfl, List.drop_left' rfl]

/-- Slices that lie inside and do not overlap are blocks. -/
theorem exchangeSlices_eq {p q n : Nat} (hpq : p + n ≤ q) (hsize : q + n ≤ xs.size) :
    (exchangeSlices xs.toList p q n).toArray = exchangeBlocks xs p q n := by
  obtain ⟨a, b, c, d, e, h, rfl, rfl, hd, rfl⟩ := exists_blocks hpq hsize
  have hbehind : xs.toList = (a ++ (b ++ c)) ++ (d ++ e) := by
    rw [h]
    simp only [List.append_assoc]
  have hplace : (a ++ (b ++ c)).length = (a ++ (d ++ c)).length := by
    simp only [List.length_append, hd]
  have hatP : slice xs.toList a.length (a.length + b.length) = b := by
    rw [h]
    exact slice_append rfl (by omega)
  have hatQ : slice xs.toList (a ++ (b ++ c)).length ((a ++ (b ++ c)).length + b.length) = d := by
    rw [hbehind]
    exact slice_append rfl (by omega)
  have hfirst : splice xs.toList a.length (a.length + b.length) d =
      (a ++ (d ++ c)) ++ (d ++ e) := by
    rw [h, splice_append rfl (by omega)]
    simp only [List.append_assoc]
  have hsecond : exchangeSlices xs.toList a.length (a ++ (b ++ c)).length b.length =
      a ++ (d ++ (c ++ (b ++ e))) := by
    rw [exchangeSlices, hatP, hatQ, hfirst, hplace, splice_append rfl (by omega)]
    simp only [List.append_assoc]
  rw [hsecond, ← toList_exchangeBlocks h hd, Array.toArray_toList]

/-! ## Steps that only exchange -/

/-- The reply leaves the values of `xs` in some order, and is refused for its index if at all. -/
structure Rearranges (xs : Array α) (r : Reply (Array α) Unit) : Prop where
  result : r.result = .ok () ∨ r.result = .error .outOfRange
  perm : r.state.toList.Perm xs.toList

namespace Rearranges

theorem done {ys : Array α} (h : ys.toList.Perm xs.toList) : Rearranges xs (.done () ys) :=
  ⟨.inl rfl, h⟩

theorem fail (xs : Array α) : Rearranges xs (.fail .outOfRange xs) :=
  ⟨.inr rfl, .refl _⟩

theorem of_perm {ys : Array α} {r : Reply (Array α) Unit} (h : Rearranges ys r)
    (hperm : ys.toList.Perm xs.toList) : Rearranges xs r :=
  ⟨h.result, h.perm.trans hperm⟩

theorem andThen {r : Reply (Array α) Unit} {k : Unit → Array α → Reply (Array α) Unit}
    (h : Rearranges xs r) (hnext : Rearranges r.state (k () r.state)) :
    Rearranges xs (r.andThen k) := by
  rcases h.result with hok | hrange
  · constructor
    · rw [Reply.result_andThen, hok]
      exact hnext.result
    · rw [Reply.state_andThen, hok]
      exact hnext.perm.trans h.perm
  · constructor
    · rw [Reply.result_andThen, hrange]
      exact .inr rfl
    · rw [Reply.state_andThen, hrange]
      exact h.perm

end Rearranges

theorem perm_swap {k l : Nat} (hk : k < xs.size) (hl : l < xs.size) :
    (xs.swapIfInBounds k l).toList.Perm xs.toList := by
  rw [Array.swapIfInBounds_def, dif_pos hk, dif_pos hl]
  exact (Array.swap_perm hk hl).toList

theorem rearranges_exchangeCells (p q : Int) (n : Nat) : ∀ xs : Array α,
    Rearranges xs (exchangeCells p q n xs) := by
  induction n with
  | zero => exact fun xs => .done (.refl _)
  | succ n ih =>
    intro xs
    unfold exchangeCells
    split
    · rename_i k l hk hl
      have hswap := perm_swap (Position.resolve?_lt hk) (Position.resolve?_lt hl)
      exact (ih _).of_perm hswap
    · exact .fail xs

/-- A row that moves as a block moves to the right, inside the wider square. -/
theorem block_inside {old new : Int} {row : Nat} (h0 : 0 < row) (hrow : (row : Int) < old)
    (hblock : row * old + old ≤ row * new) : row * new + old ≤ new * new := by
  have hwider : old < new := by
    by_contra hle
    have hmul : (row : Int) * new ≤ row * old :=
      mul_le_mul_of_nonneg_left (not_lt.1 hle) (Int.natCast_nonneg row)
    omega
  have hmul : ((row : Int) + 1) * new ≤ new * new :=
    mul_le_mul_of_nonneg_right (by omega) (by omega)
  linarith

section rows

variable {old new : Int}

theorem rearranges_moveRow {row : Nat} (h0 : 0 < row) (hrow : (row : Int) < old)
    (hsize : new * new ≤ xs.size) : Rearranges xs (moveRow old new row xs) := by
  unfold moveRow
  dsimp only
  split
  · rename_i hblock
    have hinside := block_inside h0 hrow hblock
    have hplace : 0 ≤ (row : Int) * old := mul_nonneg (by omega) (by omega)
    exact .done (perm_exchangeBlocks (by omega) (by omega))
  · exact rearranges_exchangeCells _ _ _ xs

theorem moveRowBySlices_eq {row : Nat} (h0 : 0 < row) (hrow : (row : Int) < old)
    (hsize : new * new ≤ xs.size) : moveRowBySlices old new row xs = moveRow old new row xs := by
  unfold moveRowBySlices moveRow
  dsimp only
  split
  · rename_i hblock
    have hinside := block_inside h0 hrow hblock
    have hplace : 0 ≤ (row : Int) * old := mul_nonneg (by omega) (by omega)
    have hsource : (((row * old).toNat : Nat) : Int) = row * old := Int.toNat_of_nonneg hplace
    have htarget : (((row * new).toNat : Nat) : Int) = row * new := Int.toNat_of_nonneg (by omega)
    have hlen : ((old.toNat : Nat) : Int) = old := Int.toNat_of_nonneg (by omega)
    rw [← exchangeSlices_eq (by omega) (by omega), hsource, htarget, hlen]
  · rfl

/-- All rows: they stay inside, as no step changes the size. -/
theorem moveRows_spec (n : Nat) (hn : n ≤ (old - 1).toNat) : ∀ xs : Array α,
    new * new ≤ xs.size → Rearranges xs (moveRows old new n xs) ∧
      moveRowsBySlices old new n xs = moveRows old new n xs := by
  induction n with
  | zero => exact fun xs _ => ⟨.done (.refl _), rfl⟩
  | succ n ih =>
    intro xs hsize
    have hold : ((n + 1 : Nat) : Int) < old := by omega
    have hrow := rearranges_moveRow (Nat.succ_pos n) hold hsize
    have hsame : (moveRow old new (n + 1) xs).state.size = xs.size := hrow.perm.length_eq
    obtain ⟨hrest, hslices⟩ := ih (by omega) (moveRow old new (n + 1) xs).state (by rwa [hsame])
    refine ⟨hrow.andThen hrest, ?_⟩
    rw [moveRowsBySlices, moveRows, moveRowBySlices_eq (Nat.succ_pos n) hold hsize]
    exact Reply.andThen_congr fun _ _ => hslices

end rows

/-! ## A growth -/

theorem toList_padTo (xs : Array (Option α)) (size : Int) :
    (Position.padTo xs size none).toList =
      xs.toList ++ List.replicate (size - xs.size).toNat none := by
  rw [Position.padTo, Array.toList_append, Array.toList_replicate]

theorem size_le_padTo (xs : Array (Option α)) (new : Int) :
    new * new ≤ (Position.padTo xs (count new true) none).size := by
  have hcount : count new true = new * new := rfl
  rw [Position.size_padTo, hcount]
  omega

/-- Once the storage is long enough, a growth only rearranges it. -/
theorem rearranges_grow {xs : Array (Option α)} {new : Int} {directed : Bool} (old : Int)
    (h : Length.Extensible xs.size (count new directed)) :
    Rearranges (Position.padTo xs (count new directed) none) (grow xs old new directed) := by
  cases directed with
  | false =>
    have hgrow : grow xs old new false = lengthen xs new false := rfl
    rw [hgrow, lengthen_eq h]
    exact .done (.refl _)
  | true =>
    have hgrow : grow xs old new true = growSquare xs old new := rfl
    rw [hgrow, growSquare, lengthen_eq h, Reply.done_andThen]
    exact (moveRows_spec _ (Nat.le_refl _) _ (size_le_padTo xs new)).1

/-- No slice is ever cut. -/
theorem growBySlices_eq (xs : Array (Option α)) (old new : Int) (directed : Bool) :
    growBySlices xs old new directed = grow xs old new directed := by
  cases directed with
  | false => rfl
  | true =>
    unfold growBySlices grow growSquare lengthen
    rw [if_pos rfl, if_pos rfl]
    split
    · rw [Reply.done_andThen, Reply.done_andThen]
      exact (moveRows_spec _ (Nat.le_refl _) _ (size_le_padTo xs new)).2
    · rfl

/-- What a growth of `xs` to at least `wanted` slots came to. -/
structure Conserves (xs : Array (Option α)) (wanted : Int) (r : Reply (Array (Option α)) Unit) :
    Prop where
  /-- The values there were are left, and as many empty slots more as were missing. -/
  perm : r.result = .ok () ∨ r.result = .error .outOfRange →
    r.state.toList.Perm (xs.toList ++ List.replicate (wanted - xs.size).toNat none)
  result : Length.Extensible xs.size wanted → r.result = .ok () ∨ r.result = .error .outOfRange
  /-- Without room nothing is changed. -/
  refused : ¬ Length.Extensible xs.size wanted → r = .fail (Length.refusal (wanted - xs.size)) xs

/-- For any storage, any widths and either layout, a growth that is answered or is refused for an
index outside leaves the values there were, with as many empty slots more as were missing. A growth
is refused in no other way, but for want of room, and then the storage stays as it is. The same
holds if blocks are slices that may be cut, as the growth is the same then. -/
theorem grow_conserves (xs : Array (Option α)) (old new : Int) (directed : Bool) :
    Conserves xs (count new directed) (grow xs old new directed) ∧
      growBySlices xs old new directed = grow xs old new directed := by
  refine ⟨?_, growBySlices_eq xs old new directed⟩
  by_cases hext : Length.Extensible xs.size (count new directed)
  · have hr := rearranges_grow old hext
    refine ⟨fun _ => ?_, fun _ => hr.result, fun hno => absurd hext hno⟩
    rw [← toList_padTo]
    exact hr.perm
  · have hr : grow xs old new directed = .fail (Length.refusal (count new directed - xs.size)) xs :=
      grow_refused hext
    refine ⟨fun hresult => ?_, fun h => absurd h hext, fun _ => hr⟩
    rw [hr] at hresult
    rcases hresult with hok | hrange
    · cases hok
    · have hcases := Length.refusal_cases (count new directed - xs.size)
      rw [Except.error.inj hrange] at hcases
      simp at hcases

-- towards a negative width rows are exchanged with the end of the storage
example :
    let r := grow #[some 0, some 1, some 2, some 3, some 4, some 5, some 6, none, none] 3 (-1) true
    r.result = .ok () ∧
      r.state = #[some 4, some 5, some 2, none, none, some 1, some 0, some 6, some 3] := by
  decide

end IndexGraph.Slots
