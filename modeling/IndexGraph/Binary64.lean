/-
  Binary64 numbers beside whole ones: the exact value of a number, the nearest number to an
  integer, and the exact comparison of the two kinds. All of it is arithmetic on the three
  fields of the bit pattern: sign, exponent (11 bits) and fraction (52 bits).
-/

namespace IndexGraph.Binary64

/-- The exact value of a binary64 number. -/
inductive Value where
  | notANumber
  | infinite (negative : Bool)
  /-- The number `mantissa * 2 ^ exponent`. -/
  | finite (mantissa exponent : Int)
  deriving DecidableEq, Repr

/-- Two to the power `k`. -/
def twoTo (k : Nat) : Nat := Nat.pow 2 k

/-- Reads a bit pattern. A zero exponent field stands for a fraction without a leading one. -/
def decode (bits : Nat) : Value :=
  let negative := bits / twoTo 63 % 2 = 1
  let exponent := bits / twoTo 52 % twoTo 11
  let fraction := bits % twoTo 52
  if exponent = 2047 then
    if fraction = 0 then .infinite negative else .notANumber
  else
    let magnitude : Int := if exponent = 0 then fraction else (twoTo 52 + fraction : Nat)
    .finite (if negative then -magnitude else magnitude) (max (exponent : Int) 1 - 1075)

/-- The quotient of `a` by `twoTo shift`, rounded to the nearest integer; a half goes to the
even neighbour. -/
def roundShift (a shift : Nat) : Nat :=
  let q := a / twoTo shift
  let r := a % twoTo shift
  if twoTo shift < 2 * r ∨ (2 * r = twoTo shift ∧ q % 2 = 1) then q + 1 else q

/-- The bit pattern of the number nearest to `a`. A mantissa that is rounded up to a power of
two carries over into the exponent by itself. Patterns from `2047 * twoTo 52` on are no finite
numbers, so `a` is too large for them. -/
def nearestBits? (a : Nat) : Option Nat :=
  if a = 0 then some 0
  else
    let top := a.log2
    let mantissa := if top ≤ 52 then a * twoTo (52 - top) else roundShift a (top - 52)
    let bits := (top + 1023) * twoTo 52 + (mantissa - twoTo 52)
    if bits < 2047 * twoTo 52 then some bits else none

/-- The number nearest to an integer, unless the integer is too large. -/
def ofInt? (n : Int) : Option Float :=
  (nearestBits? n.natAbs).map fun bits =>
    Float.ofBits (if n < 0 then twoTo 63 + bits else bits).toUInt64

/-- Compares an integer with the exact value of a number. -/
def compareInt (n : Int) : Value → Option Ordering
  | .notANumber => none
  | .infinite negative => some (if negative then .gt else .lt)
  | .finite m e =>
    some (if 0 ≤ e then compare n (m * twoTo e.toNat) else compare (n * twoTo (-e).toNat) m)

end IndexGraph.Binary64
