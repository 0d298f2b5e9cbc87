/-
  The values an edge may carry. The library stores and returns them and gives a meaning only to
  the numbers among them (`IndexGraph.Cost`). An absent weight is no weight: where one may be
  missing the type is `Option Weight`, also for the entries of a list.
-/

namespace IndexGraph

/-- What an edge may carry. -/
inductive Weight where
  | flag (b : Bool)
  | whole (n : Int)
  | real (x : Float)
  | text (s : String)
  | items (ws : List (Option Weight))
  deriving Inhabited

/-- The weight of an edge that was inserted without one. -/
def Weight.unit : Weight := .whole 1

end IndexGraph
