import IndexGraph.Position
import Mathlib.Logic.Function.Basic

/-
  Arrays as functions on the indices `0, …, n - 1`. `Reads xs n f`: the array has `n` entries
  and the one at index `v` is `f v`. A write changes the function at one place.
-/

namespace IndexGraph.Position

open Function (update)

variable {α : Type} {xs : Array α} {n : Nat} {f : Int → α} {v : Int}

/-- The array holds the values of `f` at the indices below `n`. -/
structure Reads (xs : Array α) (n : Nat) (f : Int → α) : Prop where
  size_eq : xs.size = n
  read_eq : ∀ v : Int, 0 ≤ v → v < n → read xs v = .ok (f v)

theorem reads_replicate (n : Nat) (x : α) : Reads (Array.replicate n x) n fun _ => x := by
  refine ⟨Array.size_replicate, fun v h0 hn => ?_⟩
  obtain ⟨k, rfl⟩ := Int.eq_ofNat_of_zero_le h0
  have hk : k < (Array.replicate n x).size := by
    rw [Array.size_replicate]
    omega
  rw [read_natCast hk, Array.getElem_replicate]

namespace Reads

theorem getElem?_eq (h : Reads xs n f) {k : Nat} (hk : k < n) : xs[k]? = some (f k) := by
  have hread := h.read_eq k (Int.natCast_nonneg k) (by omega)
  exact (read_eq_getElem? (by rw [h.size_eq]; exact hk)).1 hread

theorem write (h : Reads xs n f) (h0 : 0 ≤ v) (hn : v < n) (x : α) :
    ∃ ys, Position.write xs v x = .ok ys ∧ Reads ys n (update f v x) := by
  have hsize := h.size_eq
  obtain ⟨ys, hwrite, hsize', hread⟩ := exists_write h0 (show v < xs.size by omega) x
  refine ⟨ys, hwrite, hsize'.trans hsize, fun w hw0 hwn => ?_⟩
  rw [hread w hw0 (by omega), Function.update_apply]
  split
  · rfl
  · exact h.read_eq w hw0 hwn

theorem modify (h : Reads xs n f) (h0 : 0 ≤ v) (hn : v < n) (change : α → α) :
    ∃ ys, Position.modify xs v change = .ok ys ∧ Reads ys n (update f v (change (f v))) := by
  have hsize := h.size_eq
  obtain ⟨ys, hmodify, hsize', hread⟩ := exists_modify h0 (show v < xs.size by omega) change
  refine ⟨ys, hmodify, hsize'.trans hsize, fun w hw0 hwn => ?_⟩
  rw [hread w hw0 (by omega), Function.update_apply]
  split
  · rw [h.read_eq v h0 hn]
    rfl
  · exact h.read_eq w hw0 hwn

end Reads

end IndexGraph.Position
