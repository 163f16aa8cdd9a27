import SnapGraph.Graph

/-!
Sibling maps. Sorted by destination, then origin, the edge ids stand where their siblings stand in
the edge table, if every edge has a sibling: the `k`-th copy of an edge is the sibling of the `k`-th
copy of its reverse. Only undirected degenerate edges, which come in pairs, have to be exchanged
within each pair.
-/

namespace SnapGraph

/-- Exchanges the entries of each pair of equal degenerate edges; `i` is the id of the first edge.
Both edges of a pair must be there, and the first must stand for itself. -/
def swapDegenerates : Nat → List Edge → List Int → Except Fault (List Int)
  | _, [], ids => .ok ids
  | i, e :: rest, ids =>
      if e.isDegenerate then
        match rest, ids with
        | e' :: rest, a :: b :: ids =>
            if e' = e ∧ a = i then do return b :: a :: (← swapDegenerates (i + 2) rest ids)
            else .error .unpairedDegenerate
        | _, _ => .error .unpairedDegenerate
      else
        match ids with
        | [] => swapDegenerates (i + 1) rest []
        | a :: ids => do return a :: (← swapDegenerates (i + 1) rest ids)

namespace Graph

/-- Makes a sibling map of the edge ids sorted by destination. -/
def makeSiblingMap (g : Graph) (ids : List Int) : Except Fault (List Int) :=
  if g.options.guaranteesSiblings then
    if g.options.isDirected || g.options.degenerates = .discard then .ok ids
    else swapDegenerates 0 g.edges.toList ids
  else .error .siblingsNotGuaranteed

def siblingMap (g : Graph) : Except Fault (List Int) :=
  g.makeSiblingMap (g.inEdgeIds.map Int.ofNat)

/-- The sibling of an edge, as a function. -/
def siblingOf (g : Graph) : Except Fault (Nat → Nat) := do
  let siblings := (← g.siblingMap).toArray
  return fun e => (siblings.getD e 0).toNat

end Graph

end SnapGraph
