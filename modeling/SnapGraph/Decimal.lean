/-!
The shortest decimal that reads back as a given float, and its positional text.

A finite float is `m · 2^q`. The reals that round to it form an interval, with its ends if `m` is
even. For 1, 2, … digits the two neighbours of the value on that decimal grid are tested in exact
arithmetic: the first grid with a neighbour in the interval gives the digits, of two neighbours the
nearer one, of two equally near ones the upper.
-/

namespace SnapGraph

/-- The number `coefficient · 10^exponent`. -/
structure Decimal where
  coefficient : Nat
  exponent : Int
  deriving DecidableEq, Repr

/-- A positive float `mantissa · 2^exponent`. -/
structure Dyadic where
  mantissa : Nat
  exponent : Int
  /-- Whether the next smaller float is half as far away as the next greater one. -/
  halfGapBelow : Bool
  deriving DecidableEq, Repr

namespace Dyadic

def ofFloat (x : Float) : Dyadic :=
  let bits : Nat := x.toBits.toNat % Nat.pow 2 63
  let biased : Nat := bits / Nat.pow 2 52
  let fraction : Nat := bits % Nat.pow 2 52
  if biased = 0 then ⟨fraction, -1074, false⟩
  else ⟨Nat.pow 2 52 + fraction, (biased : Int) - 1075, fraction = 0 && biased ≠ 1⟩

/-- The fraction `a · 2^q / 10^j` as a numerator and a denominator. -/
def ratio (a : Nat) (q j : Int) : Nat × Nat :=
  (a * Nat.pow 2 q.toNat * Nat.pow 10 (-j).toNat, Nat.pow 2 (-q).toNat * Nat.pow 10 j.toNat)

/-- How many decimal digits stand before the point; negative by the zeros that follow it if there
are none. No float is below `10^-400`. -/
def magnitude (d : Dyadic) : Int :=
  let (num, den) := ratio d.mantissa d.exponent (-400)
  ((Nat.toDigits 10 (num / den)).length : Int) - 400

/-- The multiple of `10^j` that is nearest to the float among those of its two neighbours on that
grid that read back as the float. In quarters of its last place the float is `4m`, and the reals
that read back lie from `4m - 2`, or `4m - 1` where the gap below is halved, to `4m + 2`. -/
def nearest? (d : Dyadic) (j : Int) : Option Nat :=
  let q := d.exponent - 2
  let (num, den) := ratio (4 * d.mantissa) q j
  let (low, _) := ratio (4 * d.mantissa - if d.halfGapBelow then 1 else 2) q j
  let (high, _) := ratio (4 * d.mantissa + 2) q j
  let lower := num / den
  let upper := lower + 1
  let closed := d.mantissa % 2 == 0
  let lowerFits := decide (low < lower * den) || closed && low == lower * den
  let upperFits := decide (upper * den < high) || closed && upper * den == high
  match lowerFits, upperFits with
  | true, true => some (if 2 * (num % den) < den then lower else upper)
  | true, false => some lower
  | false, true => some upper
  | false, false => none

/-- The shortest decimal that reads back as the float; seventeen digits always do. -/
def shortest (d : Dyadic) : Decimal :=
  let e := d.magnitude
  let found := (List.range 17).findSome? fun (k : Nat) =>
    (d.nearest? (e - (k + 1))).map fun c => Decimal.mk c (e - (k + 1))
  found.getD ⟨0, 0⟩

end Dyadic

namespace Decimal

/-- The decimal without trailing zeros, where its coefficient has at most one. -/
def trim (d : Decimal) : Decimal :=
  if d.coefficient % 10 = 0 then ⟨d.coefficient / 10, d.exponent + 1⟩ else d

/-- Positional text: no exponent, no point after an integer, one zero before a leading point. -/
def positional (d : Decimal) : String :=
  let digits := Nat.toDigits 10 d.coefficient
  if 0 ≤ d.exponent then String.ofList (digits ++ List.replicate d.exponent.toNat '0')
  else
    let places := (-d.exponent).toNat
    if places < digits.length then
      let whole := digits.length - places
      String.ofList (digits.take whole ++ '.' :: digits.drop whole)
    else
      String.ofList ('0' :: '.' :: (List.replicate (places - digits.length) '0' ++ digits))

end Decimal

/-- The text of a float: its shortest decimal in positional notation, with a sign if it is negative
or negative zero; a NaN has no sign. -/
def floatText (x : Float) : String :=
  if x.isNaN then "NaN"
  else
    let sign := if x.toBits.toNat < Nat.pow 2 63 then "" else "-"
    let size :=
      if x.isInf then "inf"
      else if x == 0 then "0"
      else (Dyadic.ofFloat x).shortest.trim.positional
    sign ++ size

end SnapGraph
