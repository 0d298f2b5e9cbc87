import IndexGraph.Cost
import IndexGraph.Heap
import IndexGraph.Network
import IndexGraph.Position

/-
  Least distances from one vertex. The search keeps the best distance so far of every vertex and
  a queue of entries that gives up the least one first. An entry whose vertex has been reached
  more cheaply since is stale and dropped; otherwise every edge that leaves the vertex may lower a
  distance, and each distance that is lowered enters the queue.
-/

namespace IndexGraph

namespace ShortestPath

/-- A vertex that was reached, and at what cost. -/
structure Entry where
  cost : Cost
  vertex : Int

/-- Entries are ordered by cost and, at the same cost, by vertex. -/
def Entry.before (a b : Entry) : Bool :=
  a.cost.lt b.cost || (a.cost.same b.cost && decide (a.vertex < b.vertex))

/-- A search under way. -/
structure Search where
  /-- The best distance so far; a vertex not reached yet has none. -/
  distance : Array (Option Cost)
  queue : Heap Entry

/-- A search with one entry, that `start` is reached at no cost. -/
def Search.startAt (start : Int) (distance : Array (Option Cost)) : Search :=
  { distance := distance, queue := Heap.empty.insert Entry.before ⟨.whole 0, start⟩ }

/-- The cost of an edge: what it carries or, where costs are given, the one at that index. A
flag is an index too, zero or one. -/
def edgeCost (costs : Option (Array (Option Weight))) (carried : Option Weight) :
    Except Fault (Option Weight) :=
  match costs, carried with
  | none, w => .ok w
  | some costs, some (.whole i) => Position.read costs i
  | some costs, some (.flag b) => Position.read costs (if b then 1 else 0)
  | some _, _ => .error .wrongKind

/-- Gives `v` the distance `cost` and a new entry, if that is below its distance so far. -/
def Search.lower (v : Int) (cost : Cost) : Search → Except Fault Search
  | ⟨distance, queue⟩ =>
    match Position.resolve? distance.size v with
    | none => .error .outOfRange
    | some k =>
      if cost.below (distance[k]?).join then
        .ok ⟨distance.setIfInBounds k (some cost), queue.insert Entry.before ⟨cost, v⟩⟩
      else .ok ⟨distance, queue⟩

/-- Tries one edge to `v` from a vertex at distance `base`. -/
def relax (costs : Option (Array (Option Weight))) (base : Cost) (s : Search)
    (v : Int) (carried : Option Weight) : Except Fault Search := do
  let cost ← base.add (← Cost.ofWeight (← edgeCost costs carried))
  s.lower v cost

/-- Tries the listed edges in turn. -/
def relaxAll (costs : Option (Array (Option Weight))) (base : Cost) :
    List (Int × Option Weight) → Search → Except Fault Search
  | [], s => .ok s
  | (v, carried) :: edges, s => do
    relaxAll costs base edges (← relax costs base s v carried)

/-- The entry carries the present distance of its vertex. -/
def Entry.current (e : Entry) : Option Cost → Bool
  | some d => e.cost.same d
  | none => false

/-- Handles the entry `e` that was taken from the queue of `s`. -/
def settle (g : Network) (costs : Option (Array (Option Weight))) (e : Entry) (s : Search) :
    Except Fault Search := do
  if e.current (← Position.read s.distance e.vertex) then
    relaxAll costs e.cost (g.arcsFrom e.vertex) s
  else return s

/-- Takes entries, at most `n` of them, until the queue is empty. -/
def takeSome (g : Network) (costs : Option (Array (Option Weight))) :
    Nat → Search → Except Fault Search
  | 0, s => .ok s
  | n + 1, ⟨distance, queue⟩ =>
    match queue.take? Entry.before with
    | none => .ok ⟨distance, queue⟩
    | some (e, queue) => do takeSome g costs n (← settle g costs e ⟨distance, queue⟩)

/-- Takes entries in rounds of `n` until the queue is empty. -/
def run (g : Network) (costs : Option (Array (Option Weight))) (n : Nat) :
    Nat → Search → Except Fault Search
  | 0, s => if s.queue.isEmpty then .ok s else .error .unsettled
  | rounds + 1, s =>
    if s.queue.isEmpty then .ok s
    else do run g costs n rounds (← takeSome g costs n s)

/-- A bound on the rounds of as many entries as there are edges, and one more. Without a cycle of
negative cost each distance is that of a way without repeated vertices, and is lowered by no
way twice. Such a way has at most one edge for each vertex below `extent`, but no more than there
are edges. And there are no more than `2 ^ 64` real distances for a vertex to go through. -/
def roundBound (extent arcs : Nat) : Nat :=
  Nat.pow (arcs + 1) (min extent arcs + 1) + Nat.pow 2 64 + 1

end ShortestPath

/-- The least distance of every vertex from `start`; a vertex that `start` does not reach has
none. Where `costs` is given there must be one for each edge, and what an edge carries is the
index of its cost. -/
def Network.distances (g : Network) (start : Int) (costs : Option (Array (Option Weight))) :
    Except Fault (Array (Option Cost)) := do
  if start < 0 ∨ g.vertexCount ≤ start then .error (.startOutside start g.vertexCount)
  else
    let given := costs.map Array.size
    match given with
    | some k => if g.arcCount ≠ k then .error (.weightCount k g.arcCount)
    | none => pure ()
    let distance ← Position.write (← Length.fresh g.vertexCount none) start (some (.whole 0))
    let arcs := g.arcTotal
    let s ← ShortestPath.run g costs (arcs + 1) (ShortestPath.roundBound g.extent arcs)
      (ShortestPath.Search.startAt start distance)
    return s.distance

end IndexGraph
