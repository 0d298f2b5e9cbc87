import IndexGraph.Fault

/-
  How long a sequence may be. Lengths are signed machine words of 64 bits. A new sequence is
  asked for by a length, and a negative one stands for none; but a number that is no machine word
  is refused, however far below zero it lies. An entry takes eight bytes, so a sequence of `2 ^ 44`
  entries would fill the `2 ^ 47` addresses of a process, and none of that length can be had.
  Padding asks for the entries that are missing, if any are; then the bound is on all entries
  together, those already there included.
  The bound is applied to each sequence by itself. Below it memory is taken to suffice for whatever
  a call holds at one time: several sequences, the new entries of a padding beside the old ones,
  and what grows by single elements, such as sets and stacks, which are not counted at all. That is
  an idealisation: what is said of a call below `room` is said for as long as memory lasts.
-/

namespace IndexGraph.Length

/-- The first number that is too large for a machine word. -/
def limit : Nat := Nat.pow 2 63

/-- The first length that no sequence can have, whatever else is held. -/
def room : Nat := Nat.pow 2 44

/-- A new sequence of `n` entries may be asked for. -/
def Allowed (n : Int) : Prop := -limit ≤ n ∧ n < room

/-- A sequence of `present` entries may be padded to `size`. -/
def Extensible (present : Nat) (size : Int) : Prop := size ≤ present ∨ size < room

instance (n : Int) : Decidable (Allowed n) :=
  inferInstanceAs (Decidable (-limit ≤ n ∧ n < room))

instance (present : Nat) (size : Int) : Decidable (Extensible present size) :=
  inferInstanceAs (Decidable (size ≤ present ∨ size < room))

/-- Why `n` entries cannot be had. -/
def refusal (n : Int) : Fault :=
  if -limit ≤ n ∧ n < limit then .noRoom else .lengthRange

theorem refusal_cases (n : Int) : refusal n = .noRoom ∨ refusal n = .lengthRange := by
  unfold refusal
  split
  · exact .inl rfl
  · exact .inr rfl

/-- A new sequence of `n` entries. -/
def fresh {α : Type} (n : Int) (fill : α) : Except Fault (Array α) :=
  if Allowed n then .ok (Array.replicate n.toNat fill) else .error (refusal n)

theorem allowed_natCast {n : Nat} : Allowed n ↔ n < room := by
  unfold Allowed
  omega

theorem fresh_of_not_lt {α : Type} {n : Nat} (h : ¬ n < room) (fill : α) :
    fresh (n : Int) fill = .error (refusal n) := if_neg (mt allowed_natCast.1 h)

theorem fresh_natCast {α : Type} {n : Nat} (h : n < room) (fill : α) :
    fresh (n : Int) fill = .ok (Array.replicate n fill) := by
  rw [fresh, if_pos (allowed_natCast.2 h), Int.toNat_natCast]

end IndexGraph.Length
