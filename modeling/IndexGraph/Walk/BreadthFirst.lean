import IndexGraph.Marks
import IndexGraph.Network
import IndexGraph.Reply

/-
  The walk in level order: by increasing distance from the start. A vertex is marked when it
  joins the queue, so each joins it once. Between two steps the graph may change.
  The queue is kept as two stacks: vertices leave from one and join the other, which is turned
  over when the first is empty. What a step does to the queue is said by `next_of_queue_nil` and
  `next_of_queue_cons`.
-/

namespace IndexGraph

/-- A walk that reports the vertices level by level. -/
structure LevelWalk where
  /-- The vertices that leave the queue first, the next one first. -/
  front : List Int
  /-- The vertices behind them, the latest first. -/
  back : List Int
  found : Marks

namespace LevelWalk

/-- The vertices still to be reported, the next one first. -/
def queue (w : LevelWalk) : List Int := w.front ++ w.back.reverse

/-- A walk from `start`, which is marked from the outset. -/
def startAt (start : Int) : Except Fault LevelWalk :=
  let r := Marks.empty.mark start
  r.result.map fun _ => { front := [start], back := [], found := r.state }

/-- Reports `v`, which was first in the queue, and lets its unmarked successors join. Where a
successor cannot be marked the vertex is lost and the successors before that one are kept. -/
def report (successors : Int → List Int) (v : Int) (front back : List Int) (found : Marks) :
    Reply LevelWalk (Option Int) :=
  let s := found.markAll back (successors v)
  { result := s.outcome (some v), state := ⟨front, s.fresh, s.marks⟩ }

/-- Reports the next vertex, if there is one. -/
def next (successors : Int → List Int) : LevelWalk → Reply LevelWalk (Option Int)
  | ⟨v :: front, back, found⟩ => report successors v front back found
  | ⟨[], back, found⟩ =>
    match back.reverse with
    | [] => .done none ⟨[], [], found⟩
    | v :: front => report successors v front [] found

/-- The vertices that are left, on a graph that stays as it is. -/
def drain (g : Network) (w : LevelWalk) : Reply LevelWalk (List Int) :=
  Reply.drain (next g.successors) (w.queue.length + g.successorBound + 1) w

/-- Reporting puts what was marked for the first time at the end of the queue. -/
theorem report_queue (successors : Int → List Int) (v : Int) (front back : List Int)
    (found : Marks) :
    let s := found.markAll [] (successors v)
    let r := report successors v front back found
    r.result = s.outcome (some v) ∧
      r.state.queue = front ++ back.reverse ++ s.fresh.reverse ∧ r.state.found = s.marks := by
  obtain ⟨hfresh, hmarks, hfault⟩ := Marks.markAll_eq back found (successors v)
  refine ⟨?_, ?_, hmarks⟩
  · simp only [report, Marks.Sweep.outcome, hfault]
  · simp only [report, queue, hfresh, List.reverse_append, List.append_assoc]

/-- An empty queue stays empty. -/
theorem next_of_queue_nil (successors : Int → List Int) (w : LevelWalk) (h : w.queue = []) :
    w.next successors = .done none w := by
  obtain ⟨front, back, found⟩ := w
  obtain ⟨rfl, hback⟩ := List.append_eq_nil_iff.1 h
  have : back = [] := List.reverse_eq_nil_iff.1 hback
  subst this
  rfl

/-- A step takes the first vertex from the queue and marks its successors. -/
theorem next_of_queue_cons (successors : Int → List Int) (w : LevelWalk) {v : Int}
    {rest : List Int} (h : w.queue = v :: rest) :
    let s := w.found.markAll [] (successors v)
    let r := w.next successors
    r.result = s.outcome (some v) ∧ r.state.queue = rest ++ s.fresh.reverse ∧
      r.state.found = s.marks := by
  obtain ⟨front, back, found⟩ := w
  cases front with
  | cons u front =>
    cases h
    exact report_queue successors _ _ _ _
  | nil =>
    have hback : back.reverse = v :: rest := h
    simp only [next, hback]
    have := report_queue successors v rest [] found
    rwa [List.reverse_nil, List.append_nil] at this

end LevelWalk

/-- The vertices reachable from `start`, by levels. -/
def Network.levelOrder (g : Network) (start : Int) : Except Fault (List Int) := do
  ((← LevelWalk.startAt start).drain g).result

end IndexGraph
