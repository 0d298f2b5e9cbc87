import IndexGraph.Slots.Growth

/-
  A graph with at most one weighted edge for each pair of vertices, ordered pairs in a directed
  matrix and unordered ones in an undirected matrix. The weights lie in flat storage, addressed
  as `IndexGraph.Slots` says, and the storage grows when an edge mentions a new vertex.
  Inserting checks the vertices first, then the weight, then makes room, and looks at the slot
  last. Room is only made for a pair that has no slot yet, so a taken slot never follows a growth.
-/

namespace IndexGraph

/-- Weights for the pairs of the vertices below `capacity`. -/
structure WeightMatrix (α : Type) where
  directed : Bool
  capacity : Nat
  edgeCount : Nat
  slots : Array (Option α)

/-- A row of a list of weighted edges. -/
inductive EdgeRow (α : Type) where
  /-- The two ends of an edge and its weight. -/
  | edge (a b : Int) (weight : Option α)
  /-- A row with neither two nor three entries. -/
  | malformed

namespace WeightMatrix

variable {α : Type}

/-- No vertices and no edges. -/
def empty (directed : Bool) : WeightMatrix α where
  directed := directed
  capacity := 0
  edgeCount := 0
  slots := #[]

/-- There are no edges. -/
def isEmpty (m : WeightMatrix α) : Bool := m.edgeCount == 0

/-- Both vertices are below the capacity. -/
def covers (m : WeightMatrix α) (a b : Int) : Bool :=
  decide (0 ≤ a ∧ a < m.capacity ∧ 0 ≤ b ∧ b < m.capacity)

/-- The slot of a pair at the present capacity. -/
def slot (m : WeightMatrix α) (a b : Int) : Int := Slots.ofPair a b m.capacity m.directed

/-- What the slot of a pair holds. -/
def cell (m : WeightMatrix α) (a b : Int) : Except Fault (Option α) :=
  Position.read m.slots (m.slot a b)

/-- Makes room for at least `capacity` vertices and reports a growth. -/
def makeRoom (m : WeightMatrix α) (capacity : Int) : Reply (WeightMatrix α) Unit :=
  if capacity ≤ m.capacity then .done () m
  else
    let grown := Slots.grow m.slots m.capacity capacity m.directed
    ((grown.mapState fun slots => { m with slots := slots }).andThen fun _ m =>
      .done () { m with capacity := capacity.toNat }).after
        (.growth m.directed m.capacity capacity.toNat)

/-- No edges, and room for `capacity` vertices. -/
def ofCapacity (directed : Bool) (capacity : Int) : Reply (WeightMatrix α) Unit :=
  (empty directed).makeRoom capacity

/-- Checks the ends and the weight of an edge and makes room for it; answers what its slot
holds and the weight. -/
def prepare (m : WeightMatrix α) (a b : Int) (weight : Option α) :
    Reply (WeightMatrix α) (Option α × α) :=
  if a < 0 ∨ b < 0 then .fail (.negativeEndpoint a b) m
  else
    match weight with
    | none => .fail (.absentWeight a b) m
    | some w =>
      (m.makeRoom (max a b + 1)).andThen fun _ m =>
        match m.cell a b with
        | .error e => .fail e m
        | .ok old => .done (old, w) m

/-- Puts `content` into the slot of a pair, with the new number of edges. -/
def store (m : WeightMatrix α) (a b : Int) (content : Option α) (edgeCount : Nat) :
    Reply (WeightMatrix α) Unit :=
  match Position.resolve? m.slots.size (m.slot a b) with
  | none => .fail .outOfRange m
  | some k => .done () { m with slots := m.slots.setIfInBounds k content, edgeCount := edgeCount }

/-- Inserts an edge; a pair that carries a weight keeps it and the call is refused. -/
def insert (m : WeightMatrix α) (a b : Int) (weight : Option α) :
    Reply (WeightMatrix α) Unit :=
  (m.prepare a b weight).andThen fun (old, w) m =>
    match old with
    | some _ => .fail (.edgeExists a b) m
    | none => m.store a b (some w) (m.edgeCount + 1)

/-- Inserts an edge or replaces its weight; answers the weight there was. -/
def put (m : WeightMatrix α) (a b : Int) (weight : Option α) :
    Reply (WeightMatrix α) (Option α) :=
  (m.prepare a b weight).andThen fun (old, w) m =>
    let edgeCount := if old.isNone then m.edgeCount + 1 else m.edgeCount
    (m.store a b (some w) edgeCount).mapValue fun _ => old

/-- Removes an edge and answers its weight. -/
def erase (m : WeightMatrix α) (a b : Int) : Reply (WeightMatrix α) α :=
  if m.covers a b then
    match m.cell a b with
    | .error e => .fail e m
    | .ok none => .fail (.noEdge a b) m
    | .ok (some w) => (m.store a b none (m.edgeCount - 1)).mapValue fun _ => w
  else .fail (.noEdge a b) m

/-- Inserts the edges in turn, up to the first row that is malformed or refused. -/
def insertAll (m : WeightMatrix α) : List (EdgeRow α) → Reply (WeightMatrix α) Unit
  | [] => .done () m
  | .malformed :: _ => .fail .rowLength m
  | .edge a b w :: rows => (m.insert a b w).andThen fun _ m => m.insertAll rows

/-- The weight of a pair, if it carries one. -/
def weight? (m : WeightMatrix α) (a b : Int) : Except Fault (Option α) :=
  if m.covers a b then m.cell a b else .ok none

/-- The pair carries a weight. -/
def contains (m : WeightMatrix α) (a b : Int) : Except Fault Bool :=
  (m.weight? a b).map Option.isSome

/-- The edges among the given pairs, in their order. -/
def present (m : WeightMatrix α) : List (Nat × Nat) → Except Fault (List (Nat × Nat × α))
  | [] => .ok []
  | (a, b) :: pairs =>
    match m.cell a b with
    | .error e => .error e
    | .ok none => m.present pairs
    | .ok (some w) => (m.present pairs).map ((a, b, w) :: ·)

/-- The pairs of row `v`, none if there is no such row. -/
def rowPairs (m : WeightMatrix α) (v : Int) : List (Nat × Nat) :=
  if m.covers v v then (List.range m.capacity).map (v.toNat, ·) else []

/-- The pairs of column `v`, none if there is no such column. -/
def columnPairs (m : WeightMatrix α) (v : Int) : List (Nat × Nat) :=
  if m.covers v v then (List.range m.capacity).map (·, v.toNat) else []

/-- Every pair that has a slot of its own, row by row: an unordered pair is named with its
larger vertex first. -/
def allPairs (m : WeightMatrix α) : List (Nat × Nat) :=
  (List.range m.capacity).flatMap fun a =>
    (List.range (if m.directed then m.capacity else a + 1)).map (a, ·)

/-- The ends and weights of the edges that leave `v`, by increasing end. -/
def arcsFrom (m : WeightMatrix α) (v : Int) : Except Fault (List (Nat × α)) :=
  (m.present (m.rowPairs v)).map fun es => es.map fun (_, b, w) => (b, w)

/-- The sources and weights of the edges that enter `v`, by increasing source. -/
def arcsInto (m : WeightMatrix α) (v : Int) : Except Fault (List (Nat × α)) :=
  (m.present (m.columnPairs v)).map fun es => es.map fun (a, _, w) => (a, w)

/-- The ends of the edges that leave `v`. -/
def successors (m : WeightMatrix α) (v : Int) : Except Fault (List Nat) :=
  (m.arcsFrom v).map fun es => es.map Prod.fst

/-- The sources of the edges that enter `v`. -/
def predecessors (m : WeightMatrix α) (v : Int) : Except Fault (List Nat) :=
  (m.arcsInto v).map fun es => es.map Prod.fst

/-- All edges with their weights, row by row; an undirected edge is listed once. -/
def edges (m : WeightMatrix α) : Except Fault (List (Nat × Nat × α)) := m.present m.allPairs

/-- The text shown for a matrix. -/
def describe (m : WeightMatrix α) : String :=
  let directed := if m.directed then "True" else "False"
  s!"MatrixGraph(directed={directed}, vertices={m.capacity}, edges={m.edgeCount})"

theorem length_present_le (m : WeightMatrix α) {pairs : List (Nat × Nat)}
    {es : List (Nat × Nat × α)} (h : m.present pairs = .ok es) : es.length ≤ pairs.length := by
  induction pairs generalizing es with
  | nil =>
    cases h
    exact Nat.le_refl _
  | cons p pairs ih =>
    obtain ⟨a, b⟩ := p
    rw [present] at h
    split at h
    · cases h
    · exact Nat.le_succ_of_le (ih h)
    · cases hp : m.present pairs with
      | error e => rw [hp] at h; cases h
      | ok rest =>
        rw [hp] at h
        cases h
        exact Nat.succ_le_succ (ih hp)

theorem length_rowPairs_le (m : WeightMatrix α) (v : Int) :
    (m.rowPairs v).length ≤ m.capacity := by
  unfold rowPairs
  split <;> simp

theorem rowPairs_eq_nil (m : WeightMatrix α) {v : Int} (h : v < 0 ∨ (m.capacity : Int) ≤ v) :
    m.rowPairs v = [] := by
  unfold rowPairs covers
  rw [if_neg]
  simp only [decide_eq_true_eq]
  omega

theorem length_arcsFrom_le (m : WeightMatrix α) (v : Int) :
    ((m.arcsFrom v).toOption.getD []).length ≤ m.capacity := by
  unfold arcsFrom
  cases h : m.present (m.rowPairs v) with
  | error e => exact Nat.zero_le _
  | ok es =>
    simp only [Except.map, Except.toOption, Option.getD_some, List.length_map]
    exact Nat.le_trans (m.length_present_le h) (m.length_rowPairs_le v)

theorem arcsFrom_eq_nil (m : WeightMatrix α) {v : Int} (h : v < 0 ∨ (m.capacity : Int) ≤ v) :
    m.arcsFrom v = .ok [] := by
  rw [arcsFrom, m.rowPairs_eq_nil h]
  rfl

end WeightMatrix

end IndexGraph
