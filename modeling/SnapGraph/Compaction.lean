import SnapGraph.Layer

/-!
Compaction drops the vertices that no edge touches and renumbers the others in order, so a sorted
edge table stays sorted.

The new number of each old vertex stands in a scratch table that is handed from one call to the
next. Only the entries of touched vertices are written and read, so old entries do no harm and need
not be cleared.
-/

namespace SnapGraph

def touchedVertices (edges : Array Edge) : List Int :=
  ascending (edges.toList.flatMap fun e => [e.origin, e.dest])

/-- A table cut or filled up with zeros to a given size. -/
def resizeTo (size : Nat) (table : Array Int) : Array Int :=
  table.take size ++ Array.replicate (size - table.size) 0

/-- Numbers vertices from `next` on. -/
def numberFrom (next : Nat) (table : Array Int) : List Nat → Array Int
  | [] => table
  | v :: vs => numberFrom (next + 1) (table.setIfInBounds v next) vs

/-- An edge with both endpoints looked up in a table. -/
def Edge.renumber (table : Array Int) (e : Edge) : Edge :=
  ⟨table.getD e.origin.toNat 0, table.getD e.dest.toNat 0⟩

/-- What compaction leaves: vertices, renumbered edges, and the scratch table for the next call. -/
structure Compacted where
  vertices : Array Point
  edges : Array Edge
  scratch : Array Int

/-- Drops the vertices that no edge touches. -/
def compact (vertices : Array Point) (edges : Array Edge) (scratch : Array Int) :
    Except Fault Compacted := do
  let used ← (touchedVertices edges).mapM (indexOf vertices.size)
  let table := numberFrom 0 (resizeTo vertices.size scratch) used
  return { vertices := (used.map fun v => vertices.getD v default).toArray
           edges := edges.map (Edge.renumber table)
           scratch := table }

/-- Drops the untouched vertices of a layer, if its options allow that. -/
def Layer.compact (l : Layer) (scratch : Array Int) : Except Fault (Layer × Array Int) :=
  if l.options.allowVertexFiltering then do
    let c ← SnapGraph.compact l.vertices l.edges scratch
    return ({ l with vertices := c.vertices, edges := c.edges }, c.scratch)
  else .ok (l, scratch)

end SnapGraph
