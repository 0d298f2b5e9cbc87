import IndexGraph.Length

/-
  Indexing from either end: `0, 1, …` count from the front and `-1, -2, …` from the back.
  Main statements: a resolved index is in bounds (`resolve?_lt`), and an index between `0` and
  the size resolves to itself (`resolve?_natCast`).
-/

namespace IndexGraph.Position

variable {α : Type}

/-- The place that index `i` names in a sequence of the given size. -/
def resolve? (size : Nat) (i : Int) : Option Nat :=
  let k := if i < 0 then i + size else i
  if 0 ≤ k ∧ k < size then some k.toNat else none

/-- The entry at index `i`. -/
def read (xs : Array α) (i : Int) : Except Fault α :=
  match (resolve? xs.size i).bind (xs[·]?) with
  | some x => .ok x
  | none => .error .outOfRange

/-- Replaces the entry at index `i` by its image under `f`. -/
def modify (xs : Array α) (i : Int) (f : α → α) : Except Fault (Array α) :=
  match resolve? xs.size i with
  | some k => .ok (xs.modify k f)
  | none => .error .outOfRange

/-- Replaces the entry at index `i`. -/
def write (xs : Array α) (i : Int) (x : α) : Except Fault (Array α) :=
  match resolve? xs.size i with
  | some k => .ok (xs.setIfInBounds k x)
  | none => .error .outOfRange

/-- Appends `fill` until there are at least `size` entries. -/
def padTo (xs : Array α) (size : Int) (fill : α) : Array α :=
  xs ++ Array.replicate (size - xs.size).toNat fill

/-- Appends `fill` until there are at least `size` entries, if so many may be asked for. -/
def padTo? (xs : Array α) (size : Int) (fill : α) : Except Fault (Array α) :=
  if Length.Extensible xs.size size then .ok (padTo xs size fill)
  else .error (Length.refusal (size - xs.size))

theorem resolve?_lt {size k : Nat} {i : Int} (h : resolve? size i = some k) : k < size := by
  unfold resolve? at h
  dsimp only at h
  split at h <;> split at h <;> simp at h <;> omega

theorem resolve?_natCast {size k : Nat} (h : k < size) : resolve? size (k : Int) = some k := by
  unfold resolve?
  have h0 : ¬ (k : Int) < 0 := by omega
  have h1 : (0 : Int) ≤ k ∧ (k : Int) < size := by omega
  simp only [h0, if_false, h1, and_self, if_true, Int.toNat_natCast]

theorem resolve?_eq_some_iff {size k : Nat} {i : Int} :
    resolve? size i = some k ↔ k < size ∧ (i = k ∨ i = (k : Int) - size) := by
  unfold resolve?
  dsimp only
  split <;> split <;> simp <;> omega

/-- An index is refused exactly if it lies outside at both ends. -/
theorem resolve?_eq_none_iff {size : Nat} {i : Int} :
    resolve? size i = none ↔ i < -size ∨ (size : Int) ≤ i := by
  unfold resolve?
  dsimp only
  split <;> split <;> simp <;> omega

theorem read_eq_ok_iff {xs : Array α} {i : Int} {x : α} :
    read xs i = .ok x ↔ ∃ k, resolve? xs.size i = some k ∧ xs[k]? = some x := by
  unfold read
  cases h : resolve? xs.size i with
  | none => simp
  | some k => cases h' : xs[k]? <;> simp [h']

theorem read_natCast {xs : Array α} {k : Nat} (h : k < xs.size) :
    read xs (k : Int) = .ok xs[k] := by
  rw [read_eq_ok_iff]
  exact ⟨k, resolve?_natCast h, Array.getElem?_eq_getElem h⟩

theorem write_natCast {xs : Array α} {k : Nat} (h : k < xs.size) (x : α) :
    write xs (k : Int) x = .ok (xs.setIfInBounds k x) := by
  rw [write, resolve?_natCast h]

theorem modify_natCast {xs : Array α} {k : Nat} (h : k < xs.size) (f : α → α) :
    modify xs (k : Int) f = .ok (xs.modify k f) := by
  rw [modify, resolve?_natCast h]

theorem read_eq_getElem? {xs : Array α} {k : Nat} (h : k < xs.size) {x : α} :
    read xs (k : Int) = .ok x ↔ xs[k]? = some x := by
  simp [read_eq_ok_iff, resolve?_natCast h]

/-- What is read after an entry was replaced. -/
theorem exists_write {xs : Array α} {v : Int} (h0 : 0 ≤ v) (hv : v < xs.size) (x : α) :
    ∃ ys, write xs v x = .ok ys ∧ ys.size = xs.size ∧
      ∀ w : Int, 0 ≤ w → w < xs.size → read ys w = if w = v then .ok x else read xs w := by
  obtain ⟨k, rfl⟩ := Int.eq_ofNat_of_zero_le h0
  have hk : k < xs.size := by omega
  refine ⟨_, write_natCast hk x, Array.size_setIfInBounds, fun w hw0 hw => ?_⟩
  obtain ⟨j, rfl⟩ := Int.eq_ofNat_of_zero_le hw0
  have hj : j < xs.size := by omega
  rw [read_natCast hj, read_natCast (Nat.lt_of_lt_of_eq hj Array.size_setIfInBounds.symm),
    Array.getElem_setIfInBounds hj]
  by_cases hjk : k = j
  · rw [if_pos hjk, if_pos (by omega)]
  · rw [if_neg hjk, if_neg (by omega)]

/-- What is read after an entry was changed. -/
theorem exists_modify {xs : Array α} {v : Int} (h0 : 0 ≤ v) (hv : v < xs.size) (f : α → α) :
    ∃ ys, modify xs v f = .ok ys ∧ ys.size = xs.size ∧
      ∀ w : Int, 0 ≤ w → w < xs.size →
        read ys w = if w = v then (read xs v).map f else read xs w := by
  obtain ⟨k, rfl⟩ := Int.eq_ofNat_of_zero_le h0
  have hk : k < xs.size := by omega
  refine ⟨_, modify_natCast hk f, Array.size_modify, fun w hw0 hw => ?_⟩
  obtain ⟨j, rfl⟩ := Int.eq_ofNat_of_zero_le hw0
  have hj : j < xs.size := by omega
  rw [read_natCast hj, read_natCast hk,
    read_natCast (Nat.lt_of_lt_of_eq hj Array.size_modify.symm), Array.getElem_modify]
  by_cases hjk : k = j
  · subst hjk
    rw [if_pos rfl, if_pos rfl]
    rfl
  · rw [if_neg hjk, if_neg (by omega)]

theorem size_padTo (xs : Array α) (size : Int) (fill : α) :
    (padTo xs size fill).size = max xs.size size.toNat := by
  simp only [padTo, Array.size_append, Array.size_replicate]
  omega

theorem getElem?_padTo (xs : Array α) (size : Int) (fill : α) (i : Nat) :
    (padTo xs size fill)[i]? =
      if i < xs.size then xs[i]? else if i < size.toNat then some fill else none := by
  simp only [padTo, Array.getElem?_append, Array.getElem?_replicate]
  split
  · rfl
  · congr 1
    simp only [eq_iff_iff]
    omega

end IndexGraph.Position
