import SnapGraph.Incidence
import SnapGraph.Offsets

/-!
Tables of the edges at all vertices at once. Where the edges of each vertex begin, in the edge table or
in the edge ids sorted by destination, is found in one pass, because the keys ascend; a vertex is then
looked up without a search. Copies of an edge are searched only among the edges that leave its origin.
-/

namespace SnapGraph

/-! ### Offsets of ascending keys -/

section Offsets

variable {α : Type} (xs : Array α) (key : α → Int)

/-- The first place from `e` on whose key is not less than `v`. -/
def skipBelow (v : Int) (e : Nat) : Nat :=
  if h : e < xs.size then
    if key xs[e] < v then skipBelow v (e + 1) else e
  else e
termination_by xs.size - e

/-- Where the keys from each of `v, v + 1, …` on begin, for a pass that has come to `e`. -/
def offsetsFrom (v : Int) (e : Nat) : Nat → List Nat
  | 0 => []
  | count + 1 =>
      let e := skipBelow xs key v e
      e :: offsetsFrom (v + 1) e count

/-- Where each of the keys `0, …, n - 1` begins, and where the last one ends. -/
def offsetsOf (n : Nat) : Array Nat := (offsetsFrom xs key 0 0 (n + 1)).toArray

end Offsets

/-! ### Edges that leave a vertex -/

structure OutMap where
  edges : Array Edge
  offsets : Array Nat

def Graph.outMap (g : Graph) : OutMap := ⟨g.edges, offsetsOf g.edges Edge.origin g.numVertices⟩

namespace OutMap

/-- The ids of the edges that leave a vertex, in order of destination. -/
def range (m : OutMap) (v : Int) : Except Fault IdRange := do
  let (start, stop) ← bounds m.offsets v
  return ⟨start, stop⟩

/-- The edges that leave a vertex. -/
def edgesOf (m : OutMap) (v : Int) : Except Fault (Array Edge) := part m.offsets m.edges v

/-- The ids of the copies of the edge from `v` to `w`; an empty range stands where the edge would be
inserted. -/
def copies (m : OutMap) (v w : Int) : Except Fault IdRange := do
  let r ← m.range v
  let out ← slice m.edges r.start r.stop
  return ⟨r.start + partitionPoint out (·.dest < w), r.start + partitionPoint out (·.dest ≤ w)⟩

end OutMap

/-! ### Edges that enter a vertex -/

/-- The edge ids by destination, and where those of each vertex begin. -/
structure InMap where
  ids : Array Nat
  offsets : Array Nat

def Graph.inMap (g : Graph) : InMap :=
  let ids := g.inEdgeIds.toArray
  ⟨ids, offsetsOf ids (fun e => (g.edge e).dest) g.numVertices⟩

namespace InMap

/-- The places in `ids` of the edges that enter a vertex. -/
def range (m : InMap) (v : Int) : Except Fault IdRange := do
  let (start, stop) ← bounds m.offsets v
  return ⟨start, stop⟩

/-- The ids of the edges that enter a vertex, in order of origin. -/
def idsOf (m : InMap) (v : Int) : Except Fault (Array Nat) := part m.offsets m.ids v

end InMap

end SnapGraph
