/-!
Decimal numerals and the floats they stand for.

The leading digits of a numeral that fit in 64 bits are its significand; integer digits beyond
them only count for the exponent, and fraction digits beyond them for nothing. The value is the
significand, rounded to a float, times or divided by one power of ten. So a numeral with a short
significand and a small exponent is read exactly, and others may miss the nearest float by a few
last places.
-/

namespace SnapGraph.Json

/-- A numeral by its parts; digits are numbers below ten. -/
structure Numeral where
  negative : Bool
  whole : List Nat
  fraction : List Nat
  exponentNegative : Bool
  exponent : List Nat
  deriving DecidableEq, Repr

/-- Extends `n` by digits while the result stays below `limit`; the rest are the digits not
used. -/
def absorb (limit : Nat) : Nat → List Nat → Nat × List Nat
  | n, [] => (n, [])
  | n, d :: ds => if n * 10 + d < limit then absorb limit (n * 10 + d) ds else (n, d :: ds)

/-- A power of ten with a non-negative exponent, rounded to the nearest float. -/
def powerOfTen (k : Nat) : Float := Float.ofScientific 1 false k

/-- `f · 10^e`, or nothing if that is too great. Below `10^-308` the division is done in steps of
`10^308`. -/
def scaleByTen (f : Float) (e : Int) : Option Float :=
  if 0 ≤ e then
    if e ≤ 308 then
      let g := f * powerOfTen e.toNat
      if g.isInf then none else some g
    else if f == 0 then some f else none
  else if -308 ≤ e then some (f / powerOfTen (-e).toNat)
  else if f == 0 then some f
  else scaleByTen (f / powerOfTen 308) (e + 308)
termination_by e.natAbs
decreasing_by omega

/-- The float that a numeral stands for, or nothing if it is out of range. -/
def Numeral.toFloat? (n : Numeral) : Option Float :=
  let (head, droppedWhole) := absorb (Nat.pow 2 64) 0 n.whole
  let (significand, droppedFraction) := absorb (Nat.pow 2 64) head n.fraction
  let places : Int := (n.fraction.length : Int) - droppedFraction.length
  let (size, excess) := absorb (Nat.pow 2 31) 0 n.exponent
  let magnitude :=
    if excess.isEmpty then
      let shift : Int := if n.exponentNegative then -size else size
      scaleByTen significand.toUInt64.toFloat ((droppedWhole.length : Int) - places + shift)
    else if significand ≠ 0 ∧ n.exponentNegative = false then none
    else some 0
  magnitude.map fun f => if n.negative then -f else f

end SnapGraph.Json
