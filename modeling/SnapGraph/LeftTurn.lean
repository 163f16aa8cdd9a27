import SnapGraph.Bundle
import SnapGraph.ComparisonSort
import SnapGraph.Graph
import SnapGraph.Orientation

/-!
Left-turn routing: every edge that enters a vertex is paired with an edge that leaves it, the next
one in clockwise order. Starting anywhere and only turning left traces a loop whose interior holds
no other edge of the same component.

Around a vertex the incoming and outgoing edges need not alternate. They are matched like opening
and closing brackets on a circle, an incoming edge being an opening bracket. Between two vertices an
outgoing edge comes right before an incoming one, so an edge turns onto its own sibling only if it
has no other way on.

The order of directions around a vertex is a parameter, a `Compass`; nothing here depends on how it
comes about. Directions are told by floating point numbers, so around some vertices they are in no
order at all, and the sort may then give up.
-/

namespace SnapGraph

/-- Compares two directions around a center, clockwise from an anchor: `compass center anchor a b`
says how the direction to `a` stands to the direction to `b`. -/
abbrev Compass := Int → Int → Int → Int → Ordering

/-- An edge at the vertex being routed. -/
structure Spoke where
  incoming : Bool
  edge : Nat
  /-- The other endpoint. -/
  tip : Int
  /-- The place among the spokes with the same tip. -/
  rank : Nat
  deriving DecidableEq, Repr

namespace Spoke

/-- The spokes to one tip: outgoing and incoming edges in turn, outgoing first. -/
def alternate (tip : Int) : Nat → List Nat → List Nat → List Spoke
  | _, [], [] => []
  | rank, [], i :: ins => ⟨true, i, tip, rank⟩ :: alternate tip (rank + 1) [] ins
  | rank, o :: outs, [] => ⟨false, o, tip, rank⟩ :: alternate tip (rank + 1) outs []
  | rank, o :: outs, i :: ins =>
      ⟨false, o, tip, rank⟩ :: ⟨true, i, tip, rank + 1⟩ :: alternate tip (rank + 2) outs ins

/-- Compares spokes by direction, spokes in one direction by rank. -/
def compareBy (direction : Int → Int → Ordering) (a b : Spoke) : Ordering :=
  if a.tip = b.tip then compare a.rank b.rank else direction a.tip b.tip

end Spoke

/-- The spokes of a bundle; a degenerate edge has none. -/
def Bundle.spokes (b : Bundle Nat) : List Spoke :=
  if b.edge.isDegenerate then [] else Spoke.alternate b.edge.dest 0 b.forward b.backward

/-- The spokes of a star in clockwise order, beginning with its first one. -/
def Star.spokes (sort : ComparisonSort Spoke) (compass : Compass) (s : Star Nat) :
    Except Fault (List Spoke) :=
  match s.bundles.flatMap Bundle.spokes with
  | [] => .ok []
  | first :: rest => do
      return first :: (← sort.sort (Spoke.compareBy (compass s.center first.tip)) rest)

/-! ### Matching -/

/-- Pairs of an incoming edge and the outgoing edge it turns to, and the incoming edges left without
a turn, the latest first. -/
structure Matching where
  turns : List (Nat × Nat)
  unmatched : List Nat
  deriving DecidableEq, Repr

namespace Matching

/-- One way through the spokes: an outgoing edge is matched with the latest incoming edge that still
waits. The result is the pairs, the edges that wait at the end, and the outgoing edges met while
none waited. -/
def scan : List Nat → List Spoke → List (Nat × Nat) × List Nat × List Nat
  | waiting, [] => ([], waiting, [])
  | waiting, s :: rest =>
      if s.incoming then scan (s.edge :: waiting) rest
      else
        match waiting with
        | e :: waiting =>
            let (turns, left, free) := scan waiting rest
            ((e, s.edge) :: turns, left, free)
        | [] =>
            let (turns, left, free) := scan [] rest
            (turns, left, s.edge :: free)

/-- Matches the spokes around a vertex. Edges that wait at the end of the way wrap around to the
outgoing edges that were met free, the latest first. -/
def ofSpokes (spokes : List Spoke) : Matching :=
  let (turns, waiting, free) := scan [] spokes
  ⟨turns ++ waiting.zip free, waiting.drop free.length⟩

end Matching

/-! ### Routing -/

/-- For each edge the edge that follows it, if there is one. -/
abbrev Turns := Array (Option Nat)

/-- Why a star cannot be routed completely: a degenerate edge, or else the earliest incoming edge
without a turn. -/
def Star.error? (s : Star Nat) (m : Matching) : Option BuildError :=
  let degenerate := s.bundles.findSome? fun b =>
    if b.edge.isDegenerate then b.forward.head? else none
  match degenerate with
  | some e => some (.degenerateEdge e)
  | none => m.unmatched.getLast?.map fun e => .unmatchedEdge e s.center

/-- The stars of an edge table, given edge ids by destination. -/
def routingStars (edges : Array Edge) (inIds : List Nat) : List (Star Nat) :=
  let outs := edges.toList.zipIdx.map fun (e, i) => (⟨e, i⟩ : Tagged Nat)
  let ins := inIds.map fun i => (⟨(edges.getD i default).reverse, i⟩ : Tagged Nat)
  Star.ofBundles (Bundle.merge outs ins)

/-- Writes pairs into a table of turns. -/
def Turns.record (turns : Turns) (pairs : List (Nat × Nat)) : Turns :=
  pairs.foldl (fun turns (e, next) => turns.setIfInBounds e (some next)) turns

/-- The turns of stars whose spokes are in order. The table is complete even if an error is reported,
which is the first one in the order of stars. -/
def Turns.ofStars (numEdges : Nat) (stars : List (Star Nat × List Spoke)) : Outcome Turns :=
  let matched := stars.map fun (s, spokes) => (s, Matching.ofSpokes spokes)
  ⟨Turns.record (Array.replicate numEdges none) (matched.flatMap fun (_, m) => m.turns),
    matched.findSome? fun (s, m) => s.error? m⟩

/-- Routes all edges, unless the sort gives up around a vertex. -/
def route (sort : ComparisonSort Spoke) (compass : Compass) (edges : Array Edge)
    (inIds : List Nat) : Except Fault (Outcome Turns) := do
  let stars ← (routingStars edges inIds).mapM fun s => do return (s, ← s.spokes sort compass)
  return Turns.ofStars edges.size stars

namespace Graph

/-- The order of directions around a vertex of the graph. Vertices at the position of the anchor
come first, and vertices at one position are ordered by id. -/
def compass (g : Graph) : Compass := fun center anchor a b =>
  let atA := g.position a
  let atB := g.position b
  let start := g.position anchor
  match atA.sameAs start, atB.sameAs start with
  | true, true => compare a b
  | true, false => .lt
  | false, true => .gt
  | false, false =>
      if atA.sameAs atB then compare a b
      else if orderedCCW atA atB start (g.position center) then .gt
      else .lt

def leftTurns (g : Graph) (sort : ComparisonSort Spoke) : Except Fault (Outcome Turns) :=
  route sort g.compass g.edges g.inEdgeIds

/-- The left turns of a graph, given edge ids by destination. As many ids as the graph has edges
are looked at. -/
def leftTurnsFrom (g : Graph) (sort : ComparisonSort Spoke) (inIds : List Int) :
    Except Fault (Outcome Turns) := do
  if inIds.length < g.numEdges then throw .outOfRange
  let inIds ← (inIds.take g.numEdges).mapM (indexOf g.numEdges)
  route sort g.compass g.edges inIds

end Graph

end SnapGraph
