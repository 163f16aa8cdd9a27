import SnapGraph.Graph
import SnapGraph.Search

/-!
The edges at a vertex. Edges that leave a vertex are a range of the edge table, and edges that enter
it a range of the table sorted by destination; both are found by binary search.
-/

namespace SnapGraph

structure IdRange where
  start : Nat
  stop : Nat
  deriving DecidableEq, Repr

namespace IdRange

def toList (r : IdRange) : List Nat := List.range' r.start (r.stop - r.start)

def size (r : IdRange) : Nat := r.stop - r.start

end IdRange

/-- The edge table of a graph, and its edge ids sorted by destination. -/
structure Incidence where
  edges : Array Edge
  byDest : Array Nat

def Graph.incidence (g : Graph) : Incidence := ⟨g.edges, g.inEdgeIds.toArray⟩

namespace Incidence

variable (t : Incidence)

/-- The ids of the edges that leave `v`, in order of destination. -/
def outRange (v : Int) : IdRange :=
  ⟨partitionPoint t.edges (·.origin < v), partitionPoint t.edges (·.origin ≤ v)⟩

def outIds (v : Int) : List Nat := (t.outRange v).toList

def outDegree (v : Int) : Nat := (t.outRange v).size

/-- The ids of the copies of an edge; an empty range stands where the edge would be inserted. -/
def copies (e : Edge) : IdRange :=
  ⟨partitionPoint t.edges (· < e), partitionPoint t.edges (· ≤ e)⟩

def destOf (e : Nat) : Int := (t.edges.getD e default).dest

/-- The places in `byDest` of the edges that enter `v`. -/
def inRange (v : Int) : IdRange :=
  ⟨partitionPoint t.byDest (t.destOf · < v), partitionPoint t.byDest (t.destOf · ≤ v)⟩

/-- The ids of the edges that enter `v`, in order of origin. -/
def inIds (v : Int) : List Nat := (t.inRange v).toList.map (t.byDest.getD · 0)

def inDegree (v : Int) : Nat := (t.inRange v).size

end Incidence

/-- The copies of the edge from a vertex of the graph to any other. -/
def Graph.copiesBetween? (g : Graph) (v w : Int) : Except Fault IdRange := do
  let _ ← indexOf g.numVertices v
  return g.incidence.copies ⟨v, w⟩

end SnapGraph
