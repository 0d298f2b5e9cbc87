import IndexGraph.Position
import IndexGraph.Reply
import IndexGraph.Slots

/-
  Growing the flat storage of a weight matrix in place.
  A triangle only gets longer. In a square the stride changes, so each row but the first moves,
  the last one first: then the place a row moves to holds no row that still has to move. A row
  whose old and new places are disjoint is exchanged as a block; otherwise its cells are
  exchanged one by one, the last column first, so that none is overwritten before it has moved.
  Every step is an exchange, so no value is lost or doubled, whatever the widths are; one that
  leaves the storage is refused and the steps before it stay.
-/

namespace IndexGraph.Slots

variable {α : Type}

/-- Writes the values one after the other from place `p` on. -/
def overwrite (xs : Array α) (p : Nat) : List α → Array α
  | [] => xs
  | y :: ys => overwrite (xs.setIfInBounds p y) (p + 1) ys

/-- Exchanges two disjoint blocks of the same length, each read before either is written. -/
def exchangeBlocks (xs : Array α) (p q len : Nat) : Array α :=
  let atP := (xs.extract p (p + len)).toList
  let atQ := (xs.extract q (q + len)).toList
  overwrite (overwrite xs p atQ) q atP

/-- Exchanges the first `n` cells from `p` on with those from `q` on, the last pair first. The
two indices of a pair are both resolved before either cell is changed. -/
def exchangeCells (p q : Int) : Nat → Array α → Reply (Array α) Unit
  | 0, xs => .done () xs
  | n + 1, xs =>
    match Position.resolve? xs.size (p + n), Position.resolve? xs.size (q + n) with
    | some k, some l => exchangeCells p q n (xs.swapIfInBounds k l)
    | _, _ => .fail .outOfRange xs

/-- Moves row `row` from stride `old` to stride `new`. -/
def moveRow (old new : Int) (row : Nat) (xs : Array α) : Reply (Array α) Unit :=
  let p := row * old
  let q := row * new
  if p + old ≤ q then .done () (exchangeBlocks xs p.toNat q.toNat old.toNat)
  else exchangeCells p q old.toNat xs

/-- Moves the rows `n, n - 1, …, 1`; row 0 stays where it is. -/
def moveRows (old new : Int) : Nat → Array α → Reply (Array α) Unit
  | 0, xs => .done () xs
  | n + 1, xs => (moveRow old new (n + 1) xs).andThen fun _ ys => moveRows old new n ys

/-- Lengthens the storage to that of `new` vertices. -/
def lengthen (xs : Array (Option α)) (new : Int) (directed : Bool) :
    Reply (Array (Option α)) Unit :=
  if Length.Extensible xs.size (count new directed) then
    .done () (Position.padTo xs (count new directed) none)
  else .fail (Length.refusal (count new directed - xs.size)) xs

/-- Widens a full square from `old` to `new` vertices. -/
def growSquare (xs : Array (Option α)) (old new : Int) : Reply (Array (Option α)) Unit :=
  (lengthen xs new true).andThen fun _ xs => moveRows old new (old - 1).toNat xs

/-- Grows the storage of either layout from `old` to `new` vertices. -/
def grow (xs : Array (Option α)) (old new : Int) (directed : Bool) :
    Reply (Array (Option α)) Unit :=
  if directed then growSquare xs old new else lengthen xs new false

end IndexGraph.Slots
