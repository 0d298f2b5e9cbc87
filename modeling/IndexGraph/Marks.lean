import IndexGraph.Position
import IndexGraph.Reply

/-
  The set of vertices that a search has marked, kept as one flag per vertex.
  The flags are padded on demand, so a search need not know the number of vertices. Marking
  resolves its index after padding: a negative index counts from the end of the flags there
  are, and names nothing while there are none. Asking never pads and knows no negative vertex.
  Main statement: a vertex is new exactly if it was unmarked (`mark_natCast`).
-/

namespace IndexGraph

/-- The marked vertices, as flags. -/
structure Marks where
  flags : Array Bool
  deriving DecidableEq, Repr

namespace Marks

/-- No vertex is marked and no room is kept. -/
def empty : Marks := ⟨#[]⟩

/-- No vertex is marked; there is room for `capacity` vertices. -/
def ofCapacity (capacity : Int) : Except Fault Marks :=
  (Length.fresh capacity false).map Marks.mk

/-- The same marks with room for `v`. -/
def pad (m : Marks) (v : Int) : Marks := ⟨Position.padTo m.flags (v + 1) false⟩

/-- Marks a vertex for which there is room, and tells whether it was unmarked before. -/
def markPadded (m : Marks) (v : Int) : Reply Marks Bool :=
  match Position.resolve? m.flags.size v with
  | none => .fail .outOfRange m
  | some k =>
    if m.flags[k]? = some true then .done false m
    else .done true ⟨m.flags.setIfInBounds k true⟩

/-- Marks a vertex and tells whether it was unmarked before. -/
def mark (m : Marks) (v : Int) : Reply Marks Bool :=
  if Length.Extensible m.flags.size (v + 1) then (m.pad v).markPadded v
  else .fail (Length.refusal (v + 1 - m.flags.size)) m

/-- A vertex beyond the flags is unmarked, and so is every negative one. -/
def isMarked (m : Marks) (v : Int) : Bool :=
  decide (0 ≤ v) && (m.flags[v.toNat]?).getD false

/-- The marked vertices in increasing order. -/
def toList (m : Marks) : List Nat :=
  (List.range m.flags.size).filter fun v => m.isMarked v

/-- The text shown for a set of marks. -/
def describe (m : Marks) : String :=
  let seen := String.intercalate ", " (m.toList.map toString)
  s!"VisitMap([{seen}])"

/-- What marking several vertices in turn came to: those marked for the first time, the latest
first, the marks afterwards, and the fault that ended the sweep early, if one did. -/
structure Sweep where
  fresh : List Int
  marks : Marks
  fault : Option Fault

/-- The answer of a step whose sweep came to `s`. -/
def Sweep.outcome {α : Type} (s : Sweep) (a : α) : Except Fault α :=
  match s.fault with
  | none => .ok a
  | some e => .error e

/-- Marks the vertices in turn, up to the first that cannot be marked, and puts those marked for
the first time before `fresh`. -/
def markAll (fresh : List Int) (m : Marks) : List Int → Sweep
  | [] => { fresh := fresh, marks := m, fault := none }
  | v :: vs =>
    match m.mark v with
    | ⟨.error e, m, _⟩ => { fresh := fresh, marks := m, fault := some e }
    | ⟨.ok true, m, _⟩ => markAll (v :: fresh) m vs
    | ⟨.ok false, m, _⟩ => markAll fresh m vs

/-- Vertices marked before only stand behind those of the sweep. -/
theorem markAll_eq (fresh : List Int) (m : Marks) (vs : List Int) :
    (m.markAll fresh vs).fresh = (m.markAll [] vs).fresh ++ fresh ∧
      (m.markAll fresh vs).marks = (m.markAll [] vs).marks ∧
      (m.markAll fresh vs).fault = (m.markAll [] vs).fault := by
  induction vs generalizing fresh m with
  | nil => exact ⟨rfl, rfl, rfl⟩
  | cons v vs ih =>
    rw [markAll, markAll]
    split
    · exact ⟨rfl, rfl, rfl⟩
    · rename_i m' _ _
      obtain ⟨h1, h2, h3⟩ := ih (v :: fresh) m'
      obtain ⟨k1, k2, k3⟩ := ih [v] m'
      exact ⟨by rw [h1, k1, List.append_assoc]; rfl, h2.trans k2.symm, h3.trans k3.symm⟩
    · exact ih fresh _

@[simp] theorem isMarked_natCast (m : Marks) (v : Nat) :
    m.isMarked (v : Int) = (m.flags[v]?).getD false := by
  simp [isMarked]

theorem isMarked_of_neg (m : Marks) {v : Int} (h : v < 0) : m.isMarked v = false := by
  have : ¬ 0 ≤ v := by omega
  simp [isMarked, this]

@[simp] theorem isMarked_empty (v : Int) : empty.isMarked v = false := by
  simp [isMarked, empty]

theorem isMarked_of_ofCapacity {capacity : Int} {m : Marks} (h : ofCapacity capacity = .ok m)
    (v : Int) : m.isMarked v = false := by
  unfold ofCapacity Length.fresh at h
  split at h
  · cases h
    unfold isMarked
    rw [Array.getElem?_replicate]
    split <;> simp
  · cases h

/-- Padding marks nothing. -/
@[simp] theorem isMarked_pad (m : Marks) (v w : Int) : (m.pad v).isMarked w = m.isMarked w := by
  unfold isMarked pad
  rw [Position.getElem?_padTo]
  split
  · rfl
  · rename_i h
    rw [Array.getElem?_eq_none (by omega)]
    split <;> rfl

theorem isMarked_set (flags : Array Bool) {k : Nat} (hk : k < flags.size) (w : Int) :
    (Marks.mk (flags.setIfInBounds k true)).isMarked w =
      ((Marks.mk flags).isMarked w || decide (w = k)) := by
  by_cases hw : w < 0
  · rw [isMarked_of_neg _ hw, isMarked_of_neg _ hw]
    have : w ≠ k := by omega
    simp [this]
  · obtain ⟨j, rfl⟩ := Int.eq_ofNat_of_zero_le (Int.not_lt.1 hw)
    rw [isMarked_natCast, isMarked_natCast]
    by_cases hj : j = k
    · subst hj
      simp [hk]
    · have : (j : Int) ≠ k := by omega
      simp [this, Array.getElem?_setIfInBounds_ne (Ne.symm hj)]

/-- A vertex is new exactly if it was unmarked, and marking it changes no other vertex. -/
theorem mark_natCast (m : Marks) (v : Nat) (h : Length.Extensible m.flags.size (v + 1)) :
    ∃ m', m.mark v = .done (!m.isMarked v) m' ∧
      ∀ w, m'.isMarked w = (m.isMarked w || decide (w = v)) := by
  have hv : v < (m.pad v).flags.size := by
    simp only [pad, Position.size_padTo]
    omega
  have hread : m.isMarked v = (m.pad v).flags[v] := by
    rw [← isMarked_pad m v v, isMarked_natCast, Array.getElem?_eq_getElem hv]
    rfl
  unfold mark markPadded
  rw [if_pos h, Position.resolve?_natCast hv]
  dsimp only
  rw [Array.getElem?_eq_getElem hv, ← hread]
  cases hm : m.isMarked v with
  | true =>
    refine ⟨m.pad v, by simp, fun w => ?_⟩
    rw [isMarked_pad]
    by_cases hw : w = v
    · simp [hw, hm]
    · simp [hw]
  | false =>
    refine ⟨⟨(m.pad v).flags.setIfInBounds v true⟩, by simp, fun w => ?_⟩
    rw [isMarked_set _ hv, ← isMarked_pad m v w]

end Marks

end IndexGraph
