import IndexGraph.Walk.BreadthFirst
import IndexGraph.Walk.DepthFirst
import IndexGraph.Walk.Topological

/-
  The four orders in which a graph is walked, under one name.
-/

namespace IndexGraph

/-- A walk in any of the four orders. -/
inductive Walk where
  | preOrder (w : PreOrderWalk)
  | postOrder (w : PostOrderWalk)
  | level (w : LevelWalk)
  | topological (w : TopologicalWalk)

namespace Walk

/-- Reports the next vertex, if there is one, on `g` as it is now. -/
def next (g : Network) : Walk → Reply Walk (Option Int)
  | .preOrder w => (w.next g.successors).mapState .preOrder
  | .postOrder w => (w.nextOn g).mapState .postOrder
  | .level w => (w.next g.successors).mapState .level
  | .topological w => (w.next g.successors).mapState .topological

/-- The vertices that are left, on a graph that stays as it is. -/
def drain (g : Network) : Walk → Reply Walk (List Int)
  | .preOrder w => (w.drain g).mapState .preOrder
  | .postOrder w => (w.drain g).mapState .postOrder
  | .level w => (w.drain g).mapState .level
  | .topological w => (w.drain g.successors).mapState .topological

end Walk

end IndexGraph
