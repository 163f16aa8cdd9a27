import SnapGraph.Decimal
import SnapGraph.Json.Reader
import SnapGraph.Point

/-!
Points as text: a display form with three decimals, and JSON.
-/

namespace SnapGraph.Point

def toText (p : Point) : String :=
  "S2Point(" ++ floatText p.x ++ ", " ++ floatText p.y ++ ", " ++ floatText p.z ++ ")"

/-- A point from a JSON value with the fields `x`, `y` and `z`. -/
def ofValue? (v : Json.Value) : Option Point := do
  match ← v.asRecord? ["x", "y", "z"] with
  | [x, y, z] => return ⟨← x.asFloat?, ← y.asFloat?, ← z.asFloat?⟩
  | _ => none

def ofText? (s : String) : Option Point := Json.read? s >>= ofValue?

end SnapGraph.Point
