/-
  The causes for which an operation of this library is refused, and their wording.
  The first eight are about graphs; the others are about single values: an index, a kind of
  value, a magnitude. `unsettled` is the answer of a bounded search whose bound ran out.
-/

namespace IndexGraph

/-- Why an operation was refused. -/
inductive Fault where
  /-- An edge was to be inserted at a negative vertex. -/
  | negativeEndpoint (a b : Int)
  /-- The start vertex is not below the number of vertices. -/
  | startOutside (start count : Int)
  /-- The pair already carries a weight. -/
  | edgeExists (a b : Int)
  /-- The pair carries no weight. -/
  | noEdge (a b : Int)
  /-- An edge was to be inserted without a weight. -/
  | absentWeight (a b : Int)
  /-- A list of costs has not one entry for each edge. -/
  | weightCount (given : Nat) (arcs : Int)
  /-- A strict topological walk ran dry with vertices left over. -/
  | cycle (remaining : Int)
  /-- No predecessor of the vertex has a dominator yet. -/
  | noPredecessor (vertex start : Int)
  /-- An index lies outside its sequence at both ends. -/
  | outOfRange
  /-- A value of the wrong kind was met. -/
  | wrongKind
  /-- A row of an edge list is not a pair. -/
  | notAPair
  /-- A row of a weighted edge list has neither two nor three entries. -/
  | rowLength
  /-- An integer is too large for a binary64 number. -/
  | tooLarge
  /-- A length does not fit into a machine word. -/
  | lengthRange
  /-- There is no room for a sequence of that length. -/
  | noRoom
  /-- The start vertex is not the last one of its own post-order. -/
  | startNotLast
  /-- The bound of a search ran out before its end. -/
  | unsettled
  deriving DecidableEq, Repr

/-- The text shown for a fault. -/
def Fault.message : Fault → String
  | .negativeEndpoint a b => s!"negative vertex in edge ({a}, {b})"
  | .startOutside start count => s!"start vertex {start} outside graph of {count} vertices"
  | .edgeExists a b => s!"edge ({a}, {b}) already exists"
  | .noEdge a b => s!"no edge ({a}, {b})"
  | .absentWeight a b => s!"edge ({a}, {b}) cannot have weight None"
  | .weightCount given arcs => s!"{given} weights given for {arcs} edges"
  | .cycle remaining => s!"graph contains a cycle, {remaining} vertices left unordered"
  | .noPredecessor vertex start =>
    s!"vertex {vertex} has no predecessor reachable from {start}"
  | .outOfRange => "index out of range"
  | .wrongKind => "value of the wrong kind"
  | .notAPair => "edge is not a pair"
  | .rowLength => "edge row needs two or three entries"
  | .tooLarge => "integer too large for a real number"
  | .lengthRange => "length does not fit into a machine word"
  | .noRoom => "no room for a sequence of that length"
  | .startNotLast => "start vertex is not last in post-order"
  | .unsettled => "search stopped at its bound"

/-- A computation in two parts answers if both parts do. -/
theorem bind_eq_ok_iff {α β : Type} {x : Except Fault α} {f : α → Except Fault β} {b : β} :
    x >>= f = .ok b ↔ ∃ a, x = .ok a ∧ f a = .ok b := by
  cases x with
  | error e =>
    constructor
    · intro h
      cases h
    · rintro ⟨a, ⟨⟩, _⟩
  | ok a =>
    constructor
    · exact fun h => ⟨a, rfl, h⟩
    · rintro ⟨_, ⟨⟩, h⟩
      exact h

end IndexGraph
