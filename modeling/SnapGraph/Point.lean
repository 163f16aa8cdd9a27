/-!
Points on the unit sphere, stored as vectors of three floats. Nothing enforces unit length;
`normalize` is there for points built by hand.
-/

namespace SnapGraph

/-! ### Total order of floats -/

/-- A float's place in the total order of bit patterns: negative before positive, `-0` before `0`,
infinities outside the finite values and NaNs outside the infinities. -/
def floatRank (x : Float) : Int :=
  let bits := x.toBits.toNat
  if bits < Nat.pow 2 63 then bits else (Nat.pow 2 63 : Int) - 1 - (bits : Int)

/-- Compares floats by the total order of bit patterns. -/
def compareFloat (x y : Float) : Ordering := compare (floatRank x) (floatRank y)

/-! ### Points -/

/-- A direction in space. -/
structure Point where
  x : Float
  y : Float
  z : Float
  deriving Inhabited

namespace Point

/-- Equality of coordinates as floats: a NaN differs from itself, and zero equals its negative. -/
def sameAs (p q : Point) : Bool := p.x == q.x && p.y == q.y && p.z == q.z

instance : Add Point := ⟨fun p q => ⟨p.x + q.x, p.y + q.y, p.z + q.z⟩⟩

instance : Sub Point := ⟨fun p q => ⟨p.x - q.x, p.y - q.y, p.z - q.z⟩⟩

instance : Neg Point := ⟨fun p => ⟨-p.x, -p.y, -p.z⟩⟩

def scale (p : Point) (k : Float) : Point := ⟨p.x * k, p.y * k, p.z * k⟩

def dot (p q : Point) : Float := p.x * q.x + p.y * q.y + p.z * q.z

def cross (p q : Point) : Point :=
  ⟨p.y * q.z - p.z * q.y, p.z * q.x - p.x * q.z, p.x * q.y - p.y * q.x⟩

def norm2 (p : Point) : Float := p.dot p

def norm (p : Point) : Float := p.norm2.sqrt

/-- The point scaled to unit length; the zero vector stays as it is. -/
def normalize (p : Point) : Point :=
  let n := p.norm
  if n == 0 then p else p.scale (1 / n)

/-- The unit point in the direction of the given coordinates. -/
def ofCoords (x y z : Float) : Point := normalize ⟨x, y, z⟩

def toArray (p : Point) : Array Float := #[p.x, p.y, p.z]

/-- The point with the given three coordinates. -/
def ofArray? : Array Float → Option Point
  | #[x, y, z] => some ⟨x, y, z⟩
  | _ => none

theorem ofArray?_toArray (p : Point) : ofArray? p.toArray = some p := rfl

/-- Lexicographic order of coordinates, each in the total order of bit patterns. -/
def compareLex (p q : Point) : Ordering :=
  (compareFloat p.x q.x).then ((compareFloat p.y q.y).then (compareFloat p.z q.z))

end Point

end SnapGraph
