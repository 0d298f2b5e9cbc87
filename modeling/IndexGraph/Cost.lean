import IndexGraph.Binary64
import IndexGraph.Fault
import IndexGraph.Weight

/-
  Costs of edges and ways: whole and real numbers. Whole costs are added exactly. A sum with a
  real cost is real: the whole one is first rounded to the nearest real, which is refused where
  there is none. Comparisons never round, and nothing compares with what is not a number.
-/

namespace IndexGraph

/-- A number that an edge or a way costs. -/
inductive Cost where
  | whole (n : Int)
  | real (x : Float)

namespace Cost

/-- The cost that a weight stands for: a flag counts as zero or one. -/
def ofWeight : Option Weight → Except Fault Cost
  | some (.flag b) => .ok (.whole (if b then 1 else 0))
  | some (.whole n) => .ok (.whole n)
  | some (.real x) => .ok (.real x)
  | _ => .error .wrongKind

/-- The cost as a real number. -/
def toReal : Cost → Except Fault Float
  | .whole n =>
    match Binary64.ofInt? n with
    | some x => .ok x
    | none => .error .tooLarge
  | .real x => .ok x

/-- The sum of two costs. -/
def add : Cost → Cost → Except Fault Cost
  | .whole m, .whole n => .ok (.whole (m + n))
  | a, b => do return .real ((← a.toReal) + (← b.toReal))

/-- How two costs compare. -/
def compare? : Cost → Cost → Option Ordering
  | .whole m, .whole n => some (compare m n)
  | .real x, .real y =>
    if x < y then some .lt else if y < x then some .gt else if x == y then some .eq else none
  | .whole m, .real y => Binary64.compareInt m (Binary64.decode y.toBits.toNat)
  | .real x, .whole n =>
    (Binary64.compareInt n (Binary64.decode x.toBits.toNat)).map Ordering.swap

/-- One cost is below another. -/
def lt (a b : Cost) : Bool := a.compare? b == some .lt

/-- Two costs are the same number. -/
def same (a b : Cost) : Bool := a.compare? b == some .eq

/-- A cost is below a distance; where there is none yet, every number but infinity is. -/
def below : Cost → Option Cost → Bool
  | a, some b => a.lt b
  | .whole _, none => true
  | .real x, none => decide (x < 1.0 / 0.0)

end Cost

end IndexGraph
