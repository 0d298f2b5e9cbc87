import IndexGraph.Network
import IndexGraph.Position
import IndexGraph.Reply

/-
  The topological walk. The edges into each vertex are counted once, at the start. The vertices
  that none enters are put on a stack; each step takes one off, reports it and takes its edges
  off the counts, and a vertex whose count comes to zero joins the stack.
  Vertices on a cycle, and those behind one, never come to zero. The walk then runs dry with
  vertices left over: it says so once, and a strict walk is refused there.
-/

namespace IndexGraph

/-- A walk that reports a vertex after all its predecessors. -/
structure TopologicalWalk where
  /-- For each vertex, the edges into it from vertices not yet reported. -/
  pending : Array Int
  /-- The vertices that may be reported, the next one first. -/
  ready : List Int
  /-- The number of vertices not yet reported. -/
  unreported : Int
  strict : Bool

namespace TopologicalWalk

/-- Counts one edge into each listed vertex. -/
def tally (pending : Array Int) : List Int → Except Fault (Array Int)
  | [] => .ok pending
  | v :: vs =>
    match Position.modify pending v (· + 1) with
    | .error e => .error e
    | .ok pending => tally pending vs

/-- A walk over the vertices below `count`. -/
def ofSuccessors (successors : Int → List Int) (count : Int) (strict : Bool) :
    Except Fault TopologicalWalk := do
  let zeros ← Length.fresh count 0
  let vertices := (List.range count.toNat).map fun (v : Nat) => (v : Int)
  let pending ← tally zeros (vertices.flatMap successors)
  let sources := (List.range count.toNat).filter fun v => pending[v]? == some 0
  return { pending := pending
           ready := (sources.map fun (v : Nat) => (v : Int)).reverse
           unreported := count
           strict := strict }

/-- What taking edges off the counts came to: the counts afterwards, the vertices that may be
reported, the next one first, and the fault that ended the sweep early, if one did. -/
structure Release where
  pending : Array Int
  ready : List Int
  fault : Option Fault

/-- Takes one edge off the count of each listed vertex, up to the first that has no count, and
puts each vertex that comes to zero before `ready`. -/
def release (ready : List Int) (pending : Array Int) : List Int → Release
  | [] => { pending := pending, ready := ready, fault := none }
  | v :: vs =>
    match Position.resolve? pending.size v with
    | none => { pending := pending, ready := ready, fault := some .outOfRange }
    | some k =>
      if pending[k]? = some 1 then release (v :: ready) (pending.setIfInBounds k 0) vs
      else release ready (pending.modify k (· - 1)) vs

/-- Reports the next vertex, if there is one. Where a successor has no count the vertex is
lost, though no longer counted as unreported, and the successors before that one are released. -/
def next (successors : Int → List Int) :
    TopologicalWalk → Reply TopologicalWalk (Option Int)
  | ⟨pending, [], unreported, strict⟩ =>
    if unreported = 0 then .done none ⟨pending, [], 0, strict⟩
    else
      { result := if strict then .error (.cycle unreported) else .ok none
        state := ⟨pending, [], 0, strict⟩
        notices := [.unordered unreported] }
  | ⟨pending, v :: rest, unreported, strict⟩ =>
    match release rest pending (successors v) with
    | ⟨pending, ready, fault⟩ =>
      { result := match fault with
          | none => .ok (some v)
          | some e => .error e
        state := ⟨pending, ready, unreported - 1, strict⟩ }

/-- The vertices that are left, on a graph that stays as it is. A count comes to zero at most
once, so at most one vertex for each count joins the stack. -/
def drain (successors : Int → List Int) (w : TopologicalWalk) :
    Reply TopologicalWalk (List Int) :=
  Reply.drain (next successors) (w.ready.length + w.pending.size + 1) w

end TopologicalWalk

/-- The vertices in topological order, with the walk's notices. -/
def Network.topologicalOrder (g : Network) (strict : Bool) : Reply Unit (List Int) :=
  match TopologicalWalk.ofSuccessors g.successors g.vertexCount strict with
  | .error e => .fail e ()
  | .ok w => (w.drain g.successors).mapState fun _ => ()

end IndexGraph
