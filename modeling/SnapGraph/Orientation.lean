import SnapGraph.Point

/-!
The orientation of three points on the sphere, and the order of directions around a point.

Well separated points are decided by the sign of the triple product. If that is within its rounding
error, the determinant is computed again from two edge vectors, and then from an infinitesimal
perturbation of the points, so that only repeated points have orientation zero. No exact arithmetic
is used.
-/

namespace SnapGraph

namespace Orientation

/-- The distance from one to the next float: two to the power -52. -/
def epsilon : Float := Float.ofBits 0x3CB0000000000000

/-- A bound on the error of the triple product of three unit vectors. -/
def maxTripleError : Float := 1.8274 * epsilon

/-- A bound on the error of the determinant of two short edge vectors. -/
def maxStableError : Float := 32.0 * epsilon * epsilon

/-- The sign of a float; a NaN has none. -/
def signOf (x : Float) : Int := if x > 0 then 1 else if x < 0 then -1 else 0

/-- The sign of the determinant of the edge vectors that leave `a`, or zero if it is in doubt. -/
def stableSign (a b c : Point) : Int :=
  let ab := b - a
  let ac := c - a
  let det := (ab.cross ac).dot a
  let error := 4.0 * epsilon * (ab.norm * ac.norm)
  let bound := if maxStableError ≤ error then error else maxStableError
  if det > bound then 1 else if det < -bound then -1 else 0

/-- The coefficients of an infinitesimal perturbation of three lexicographically ascending points,
from the greatest infinitesimal to the least. -/
def perturbationTerms (a b c : Point) : List Int :=
  let bc := b.cross c
  [signOf bc.z, signOf bc.y, signOf bc.x,
    signOf (c.x * a.y - c.y * a.x), signOf c.x, -signOf c.y,
    signOf (c.z * a.x - c.x * a.z), signOf c.z,
    signOf (a.x * b.y - a.y * b.x), -signOf b.x, signOf b.y, signOf a.x]

/-- The sign of the determinant of three lexicographically ascending points after an infinitesimal
perturbation: that of the first coefficient that is not zero. -/
def perturbedSign (a b c : Point) : Int :=
  ((perturbationTerms a b c).find? (· != 0)).getD 1

/-- Swaps two points that descend, and says whether it did. -/
def ascend (p q : Point) : Point × Point × Bool :=
  if p.compareLex q == .gt then (q, p, true) else (p, q, false)

/-- The perturbed sign of three points in any order: sorting them changes the sign with every
swap. -/
def symbolicSign (a b c : Point) : Int :=
  let (a, b, swapped₁) := ascend a b
  let (b, c, swapped₂) := ascend b c
  let (a, b, swapped₃) := ascend a b
  let odd := (swapped₁ ^^ swapped₂) ^^ swapped₃
  if odd then -perturbedSign a b c else perturbedSign a b c

/-- The orientation of points that the triple product does not tell. -/
def closeSign (a b c : Point) : Int :=
  if a.sameAs b || b.sameAs c || c.sameAs a then 0
  else
    let s := stableSign a b c
    if s != 0 then s else symbolicSign a b c

end Orientation

open SnapGraph.Orientation

/-- The orientation of three points: 1 if they wind counter-clockwise, -1 if clockwise, and 0 only
if two of them are the same. -/
def orientation (a b c : Point) : Int :=
  let det := (a.cross b).dot c
  if det > maxTripleError then 1
  else if det < -maxTripleError then -1
  else closeSign a b c

/-- Whether the directions from `o` to `a`, `b`, `c` are met in that order on a counter-clockwise
sweep around `o`. It holds if `a` is `b` or `b` is `c`, and otherwise fails if `a` is `c`. -/
def orderedCCW (a b c o : Point) : Bool :=
  [decide (orientation b o a ≥ 0), decide (orientation c o b ≥ 0),
    decide (orientation a o c > 0)].count true ≥ 2

end SnapGraph
