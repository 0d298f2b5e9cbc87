import IndexGraph.Position

/-
  Trees of immediate dominators and the meet of two vertices in one.
  A tree is an array that holds for each vertex the one above it; the root is above itself and
  a vertex outside the tree has none. The meet climbs from both vertices until they coincide.
  Vertices higher up have larger numbers, so it is always the finger with the smaller number
  that climbs. Two different vertices with one number never come together.
-/

namespace IndexGraph

/-- For each vertex its immediate dominator, if it has one. -/
abbrev Idoms := Array (Option Int)

namespace Dominator

/-- The vertex above `v`. Nothing is above a vertex outside the tree. -/
def above (idoms : Idoms) (v : Int) : Except Fault Int :=
  match Position.read idoms v with
  | .error e => .error e
  | .ok none => .error .wrongKind
  | .ok (some p) => .ok p

/-- Climbs with at most `fuel` comparisons. -/
def climb (idoms : Idoms) (number : Array Int) : Nat → Int → Int → Except Fault Int
  | 0, _, _ => .error .unsettled
  | fuel + 1, a, b =>
    if a = b then .ok a
    else do
      let na ← Position.read number a
      let nb ← Position.read number b
      if na < nb then climb idoms number fuel (← above idoms a) b
      else if nb < na then climb idoms number fuel a (← above idoms b)
      else .error .unsettled

/-- The vertex where the ways up from `a` and `b` come together. Each finger is its first vertex
or an entry of `idoms`, so a way that takes more steps than there are pairs of these has no
end. -/
def meet (idoms : Idoms) (number : Array Int) (a b : Int) : Except Fault Int :=
  climb idoms number ((idoms.size + 1) * (idoms.size + 1) + 1) a b

end Dominator

end IndexGraph
