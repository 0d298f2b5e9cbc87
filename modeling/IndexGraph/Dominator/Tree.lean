import IndexGraph.Dominator.Meet

/-
  The dominator tree read downwards, and the question whether one vertex dominates another.
-/

namespace IndexGraph.Dominator

/-- Lists `v` before the others under `d`, in a tree sorted by its keys. -/
def hang (d : Int) (v : Nat) : List (Int × List Nat) → List (Int × List Nat)
  | [] => [(d, [v])]
  | (k, vs) :: rest =>
    if d < k then (d, [v]) :: (k, vs) :: rest
    else if d = k then (k, v :: vs) :: rest
    else (k, vs) :: hang d v rest

/-- Each dominator with the vertices right below it, both in increasing order. The root is not
below itself, and vertices outside the tree are left out. -/
def tree (idoms : Idoms) : List (Int × List Nat) :=
  idoms.toList.zipIdx.foldr (fun (d, v) below =>
    match d with
    | none => below
    | some d => if d = v then below else hang d v below) []

/-- Follows the way up from `v`: is `a` on it? -/
def onWayUp (idoms : Idoms) (a : Int) : Nat → Int → Except Fault Bool
  | 0, _ => .error .unsettled
  | fuel + 1, v =>
    if v = a then .ok true
    else
      match above idoms v with
      | .error e => .error e
      | .ok p => if p = v then .ok false else onWayUp idoms a fuel p

/-- Does `a` dominate `b`? Nothing dominates a vertex outside the tree, and such a vertex
dominates nothing. -/
def dominates (idoms : Idoms) (a b : Int) : Except Fault Bool := do
  match ← Position.read idoms a with
  | none => return false
  | some _ =>
    match ← Position.read idoms b with
    | none => return false
    | some _ => onWayUp idoms a (idoms.size + 2) b

end IndexGraph.Dominator
