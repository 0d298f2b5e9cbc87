/-
  Where a pair of vertices lives in the flat storage of a weight matrix.
  A directed matrix of width `n` is a full square, one slot per ordered pair, row after row. An
  undirected one is a packed lower triangle, one slot per unordered pair: the pair is put in
  the order `(long, short)` and the rows before `long` take `1 + 2 + … + long` slots.
  Every division is by two, where `/` goes to the floor.
-/

namespace IndexGraph.Slots

/-- The slot of an ordered pair in a full square. -/
def square (row column width : Int) : Int := row * width + column

/-- The slot of an unordered pair in a packed lower triangle. -/
def triangular (row column : Int) : Int :=
  let long := max row column
  let short := min row column
  long * (long + 1) / 2 + short

/-- The slot of a pair in the layout for `directed`. -/
def ofPair (row column width : Int) (directed : Bool) : Int :=
  if directed then square row column width else triangular row column

/-- The number of slots for `capacity` vertices. -/
def count (capacity : Int) (directed : Bool) : Int :=
  if directed then capacity * capacity else capacity * (capacity + 1) / 2

end IndexGraph.Slots
