import IndexGraph.Marks
import IndexGraph.Network
import IndexGraph.Reply

/-
  Depth-first walks that report one vertex at a time. Between two steps the graph may change;
  a step asks for the successors as they are then.
  The pre-order walk marks a vertex when it is put on the stack, so each is put there once, and
  reports it when it is taken off. The post-order walk meets a vertex twice on top of its
  stack: the first time it marks it as found and puts its unfound successors above it; the second
  time all of these are done, so it takes the vertex off and reports it. A vertex may lie on that
  stack more than once, so a second set of marks keeps it from being reported again.
  Both visit the last listed successor first.
-/

namespace IndexGraph

/-- A walk that reports a vertex on entry. -/
structure PreOrderWalk where
  /-- The vertices still to be reported, the next one first. -/
  stack : List Int
  found : Marks

namespace PreOrderWalk

/-- A walk from `start`, which is marked from the outset. -/
def startAt (start : Int) : Except Fault PreOrderWalk :=
  let r := Marks.empty.mark start
  r.result.map fun _ => { stack := [start], found := r.state }

/-- Reports the next vertex, if there is one. Where a successor cannot be marked the vertex is
lost and the successors before that one are kept. -/
def next (successors : Int → List Int) : PreOrderWalk → Reply PreOrderWalk (Option Int)
  | ⟨[], found⟩ => .done none ⟨[], found⟩
  | ⟨v :: rest, found⟩ =>
    let s := found.markAll rest (successors v)
    { result := s.outcome (some v), state := ⟨s.fresh, s.marks⟩ }

/-- The vertices that are left, on a graph that stays as it is. -/
def drain (g : Network) (w : PreOrderWalk) : Reply PreOrderWalk (List Int) :=
  Reply.drain (next g.successors) (w.stack.length + g.successorBound + 1) w

end PreOrderWalk

/-- A walk that reports a vertex on exit. -/
structure PostOrderWalk where
  /-- The vertices still to be met, the next one first. -/
  stack : List Int
  found : Marks
  done : Marks

namespace PostOrderWalk

/-- A walk from `start`, which is not marked before the first step. -/
def startAt (start : Int) : PostOrderWalk :=
  { stack := [start], found := Marks.empty, done := Marks.empty }

/-- What meeting the vertex on top of the stack came to. -/
inductive Turn where
  /-- The vertex was found, or was a stale copy; the walk goes on. -/
  | silent
  | report (v : Int)
  | finished

/-- Meets the vertex on top of the stack. -/
def turn (successors : Int → List Int) : PostOrderWalk → Reply PostOrderWalk Turn
  | ⟨[], found, done⟩ => .done .finished ⟨[], found, done⟩
  | ⟨v :: rest, found, done⟩ =>
    match found.mark v with
    | ⟨.error e, found, _⟩ => .fail e ⟨v :: rest, found, done⟩
    | ⟨.ok true, found, _⟩ =>
      let unfound := (successors v).filter fun c => !found.isMarked c
      .done .silent ⟨unfound.reverse ++ v :: rest, found, done⟩
    | ⟨.ok false, found, _⟩ =>
      match done.mark v with
      | ⟨.error e, done, _⟩ => .fail e ⟨rest, found, done⟩
      | ⟨.ok true, done, _⟩ => .done (.report v) ⟨rest, found, done⟩
      | ⟨.ok false, done, _⟩ => .done .silent ⟨rest, found, done⟩

/-- Takes turns until one reports a vertex, if one does. -/
def next (successors : Int → List Int) : Nat → PostOrderWalk → Reply PostOrderWalk (Option Int)
  | 0, w => .fail .unsettled w
  | fuel + 1, w =>
    (w.turn successors).andThen fun
      | .silent, w => next successors fuel w
      | .report v, w => .done (some v) w
      | .finished, w => .done none w

/-- A bound on the turns that are left. Each entry of the stack takes at most two, and at most
as many entries join it as the lists of successors hold. -/
def turnBound (g : Network) (w : PostOrderWalk) : Nat :=
  2 * (w.stack.length + g.successorBound) + 1

/-- The next vertex on `g` as it is now. -/
def nextOn (g : Network) (w : PostOrderWalk) : Reply PostOrderWalk (Option Int) :=
  w.next g.successors (w.turnBound g)

/-- The vertices that are left, on a graph that stays as it is. -/
def drain (g : Network) (w : PostOrderWalk) : Reply PostOrderWalk (List Int) :=
  Reply.drain (next g.successors (w.turnBound g)) (w.turnBound g) w

end PostOrderWalk

namespace Network

/-- The vertices reachable from `start`, each on its first visit. -/
def preOrder (g : Network) (start : Int) : Except Fault (List Int) := do
  ((← PreOrderWalk.startAt start).drain g).result

/-- The vertices reachable from `start`, each after all its descendants. -/
def postOrder (g : Network) (start : Int) : Except Fault (List Int) :=
  ((PostOrderWalk.startAt start).drain g).result

end Network

end IndexGraph
