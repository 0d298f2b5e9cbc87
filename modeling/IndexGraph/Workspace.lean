import IndexGraph.Marks
import IndexGraph.Multigraph
import IndexGraph.Network
import IndexGraph.Walk
import IndexGraph.WeightMatrix

/-
  A workspace holds graphs, sets of marks and walks under way, and names for some of them.
  A walk refers to its graph by the place the graph has in the workspace. So it sees every
  change of that graph, and keeps it when its name is given to something else.
-/

namespace IndexGraph

/-- What a workspace holds. A walk comes with the place of its graph. -/
inductive Item where
  | multigraph (g : Multigraph)
  | matrix (m : WeightMatrix Weight)
  | network (g : Network)
  | marks (m : Marks)
  | walk (graph : Nat) (w : Walk)

/-- The graph that the searches see, if the item is one. -/
def Item.network? : Item → Option Network
  | .multigraph g => some (.ofMultigraph g)
  | .matrix m => some (.ofMatrix m)
  | .network g => some g
  | _ => none

/-- The text shown for an item, if it has one. -/
def Item.describe? : Item → Option String
  | .multigraph g => some g.describe
  | .matrix m => some m.describe
  | .marks m => some m.describe
  | _ => none

/-- Items by their place, and names for places, the latest first. -/
structure Workspace where
  items : Array Item
  names : List (String × Nat)

namespace Workspace

/-- Nothing is held. -/
def empty : Workspace := { items := #[], names := [] }

/-- Holds one more item; its place is the number of items so far. -/
def add (s : Workspace) (item : Item) : Workspace :=
  { items := s.items.push item, names := s.names }

/-- Changes the item at a place. -/
def replace (s : Workspace) (place : Nat) (item : Item) : Workspace :=
  { items := s.items.setIfInBounds place item, names := s.names }

/-- Gives a name to a place; what had the name before loses it. -/
def bind (s : Workspace) (name : String) (place : Nat) : Workspace :=
  { items := s.items, names := (name, place) :: s.names }

/-- The place that has a name. -/
def place? (s : Workspace) (name : String) : Option Nat := s.names.lookup name

/-- The graph at a place as it is now. -/
def network? (s : Workspace) (place : Nat) : Option Network :=
  (s.items[place]?).bind Item.network?

/-- Are the items at two places equal? Multigraphs are compared by what they hold, everything
else is equal to itself only. -/
def same (s : Workspace) (p q : Nat) : Bool :=
  match s.items[p]?, s.items[q]? with
  | some (.multigraph g), some (.multigraph h) => decide (g = h)
  | _, _ => p == q

/-- Applies a step to the walk at a place, on its graph as it is now. -/
def move? {α : Type} (step : Network → Walk → Reply Walk α) (s : Workspace) (place : Nat) :
    Option (Reply Workspace α) :=
  match s.items[place]? with
  | some (.walk graph w) =>
    (s.network? graph).map fun g =>
      (step g w).mapState fun w => s.replace place (.walk graph w)
  | _ => none

end Workspace

end IndexGraph
