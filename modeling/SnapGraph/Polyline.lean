import SnapGraph.Path
import SnapGraph.Walk

/-!
Polylines: all edges of a graph threaded into chains. For directed edges the input order is followed
as closely as possible, so that snapping a polyline again gives the same result; undirected edges
are taken in either direction.
-/

namespace SnapGraph

inductive PolylineKind
  /-- One polyline for each chain of interior vertices. -/
  | path
  /-- As few polylines as possible. -/
  | walk
  deriving DecidableEq, Repr

namespace Graph

/-- The tables for threading polylines through a graph. -/
def thread (g : Graph) : Except Fault Thread := do
  let sibling ← if g.options.isDirected then pure id else g.siblingOf
  return ⟨g, g.incidence, sibling, ← g.minInputIds⟩

/-- Assembles all edges into polylines. -/
def polylines (g : Graph) (kind : PolylineKind) : Except Fault (List (List Nat)) := do
  if g.options.degenerates ≠ .discard ∨ g.options.siblings.pairsUp then throw .unsupportedOptions
  let t ← g.thread
  let chains ← match kind with
    | .path => t.paths
    | .walk => t.walks
  return orderChains t.key chains

end Graph

end SnapGraph
