import IndexGraph.Dominator.Immediate

/-
  Dominance frontiers. Only a vertex with two or more incoming edges lies in a frontier: from
  each of its reachable predecessors the way up the dominator tree is followed until it comes
  to the immediate dominator of the vertex, and the vertex joins the frontier of all before.
-/

namespace IndexGraph

namespace Dominator

/-- Adds `v` to a frontier that does not hold it. -/
def join (v : Nat) (frontier : List Nat) : List Nat :=
  if v ∈ frontier then frontier else frontier ++ [v]

/-- Adds `v` to the frontiers on the way up from `runner` to `top`, which is left out. -/
def spread (idoms : Idoms) (top : Int) (v : Nat) :
    Nat → Int → Array (List Nat) → Except Fault (Array (List Nat))
  | 0, _, _ => .error .unsettled
  | fuel + 1, runner, frontiers =>
    if runner = top then .ok frontiers
    else do
      let frontiers ← Position.modify frontiers runner (join v)
      spread idoms top v fuel (← above idoms runner) frontiers

/-- Adds `v` to the frontiers on the ways up from its predecessors. A way is at most as long as
the tree has entries, but for its first vertex. -/
def spreadAll (idoms : Idoms) (top : Int) (v : Nat) :
    List Int → Array (List Nat) → Except Fault (Array (List Nat))
  | [], frontiers => .ok frontiers
  | p :: ps, frontiers => do
    match ← Position.read idoms p with
    | none => spreadAll idoms top v ps frontiers
    | some _ =>
      spreadAll idoms top v ps (← spread idoms top v (idoms.size + 2) p frontiers)

/-- Handles the listed vertices, each with its immediate dominator. -/
def frontiersOf (g : Network) (idoms : Idoms) :
    List (Nat × Option Int) → Array (List Nat) → Except Fault (Array (List Nat))
  | [], frontiers => .ok frontiers
  | (_, none) :: rest, frontiers => frontiersOf g idoms rest frontiers
  | (v, some top) :: rest, frontiers => do
    let predecessors := g.predecessors v
    if predecessors.length < 2 then frontiersOf g idoms rest frontiers
    else frontiersOf g idoms rest (← spreadAll idoms top v predecessors frontiers)

end Dominator

/-- The dominance frontier of every vertex, in increasing order. -/
def Network.dominanceFrontiers (g : Network) (start : Int) : Reply Unit (Array (List Nat)) :=
  (g.immediateDominators start).andThen fun idoms _ =>
    let table := idoms.toList.zipIdx.map fun (d, v) => (v, d)
    { result := Dominator.frontiersOf g idoms table (Array.replicate idoms.size [])
      state := () }

end IndexGraph
