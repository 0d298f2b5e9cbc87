import IndexGraph.Dominator.Meet
import IndexGraph.Walk.DepthFirst

/-
  Immediate dominators by repeated passes. The vertices reachable from the start are numbered in
  post-order and visited in the reverse of it, the start left out. A visit gives a vertex the
  meet of those of its predecessors that have a dominator already. The passes end with the
  first that changes nothing; it counts as a pass.
-/

namespace IndexGraph

namespace Dominator

/-- Puts the numbers `n, n + 1, …` at the listed vertices. -/
def enumerate (number : Array Int) (n : Nat) : List Int → Except Fault (Array Int)
  | [] => .ok number
  | v :: vs =>
    match Position.write number v n with
    | .error e => .error e
    | .ok number => enumerate number (n + 1) vs

/-- The meet of `found` and those predecessors that have a dominator. -/
def meetAll (idoms : Idoms) (number : Array Int) :
    Option Int → List Int → Except Fault (Option Int)
  | found, [] => .ok found
  | found, p :: ps => do
    match ← Position.read idoms p, found with
    | none, found => meetAll idoms number found ps
    | some _, none => meetAll idoms number (some p) ps
    | some _, some q => meetAll idoms number (some (← meet idoms number q p)) ps

/-- Visits one vertex; tells whether its dominator changed. -/
def visit (g : Network) (number : Array Int) (start : Int) (idoms : Idoms) (v : Int) :
    Except Fault (Idoms × Bool) := do
  match ← meetAll idoms number none (g.predecessors v) with
  | none => .error (.noPredecessor v start)
  | some d =>
    if (← Position.read idoms v) = some d then return (idoms, false)
    else return (← Position.write idoms v (some d), true)

/-- Visits the vertices in turn; tells whether a dominator changed. -/
def pass (g : Network) (number : Array Int) (start : Int) :
    List Int → Idoms → Except Fault (Idoms × Bool)
  | [], idoms => .ok (idoms, false)
  | v :: vs, idoms => do
    let (idoms, here) ← visit g number start idoms v
    let (idoms, later) ← pass g number start vs idoms
    return (idoms, here || later)

/-- Repeats passes until one changes nothing; answers the dominators and the number of passes,
of which `passes` are already made. -/
def settle (g : Network) (number : Array Int) (start : Int) (vertices : List Int) :
    Nat → Nat → Idoms → Except Fault (Idoms × Nat)
  | 0, _, _ => .error .unsettled
  | fuel + 1, passes, idoms => do
    let (idoms, changed) ← pass g number start vertices idoms
    if changed then settle g number start vertices fuel (passes + 1) idoms
    else return (idoms, passes + 1)

/-- A bound on the passes over `visited` of `count` vertices. What a pass makes of the
dominators hangs on nothing but the dominators. Those of the vertices not visited stay, and the
others are each absent or one of the indices `-count, …, count - 1`; so more passes than there
are such tables would never end. -/
def passBound (count visited : Nat) : Nat := Nat.pow (2 * count + 1) visited + 1

/-- The immediate dominators from `start` and the number of passes they took. -/
def solve (g : Network) (start : Int) : Except Fault (Idoms × Nat) := do
  if start < 0 ∨ g.vertexCount ≤ start then .error (.startOutside start g.vertexCount)
  else
    let order ← g.postOrder start
    if order.getLast? ≠ some start then .error .startNotLast
    else
      let number ← enumerate (← Length.fresh g.vertexCount 0) 0 order
      let idoms ← Position.write (← Length.fresh g.vertexCount none) start (some start)
      settle g number start order.dropLast.reverse
        (passBound g.vertexCount.toNat order.length) 0 idoms

end Dominator

/-- The immediate dominator of every vertex: `start` has itself and a vertex that `start` does
not reach has none. The notice tells the number of passes. -/
def Network.immediateDominators (g : Network) (start : Int) : Reply Unit Idoms :=
  match Dominator.solve g start with
  | .error e => .fail e ()
  | .ok (idoms, passes) => (Reply.done idoms ()).after (.settled start passes)

end IndexGraph
