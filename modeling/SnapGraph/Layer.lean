import SnapGraph.Cleaning
import SnapGraph.Point

/-!
A layer: vertices, an edge table, and the side tables that say which input edges each edge stands
for and which labels each input edge has. `Layer.check` states what makes a layer valid, and
`Layer.build` makes one from snapped input edges.
-/

namespace SnapGraph

/-- Whether both endpoints are among the vertices `0, …, n - 1`. -/
def Edge.inRange (n : Nat) (e : Edge) : Bool :=
  decide (0 ≤ e.origin) && decide (e.origin < n) && decide (0 ≤ e.dest) && decide (e.dest < n)

/-- The first place where a list of edges descends, counted from `i`. -/
def firstDescent? (i : Nat) : List Edge → Option Nat
  | a :: b :: rest => if b < a then some i else firstDescent? (i + 1) (b :: rest)
  | _ => none

/-- Checks that every endpoint is among `n` vertices and that the edges ascend. Endpoints are
looked at before the order. -/
def checkEdges (edges : List Edge) (n : Nat) : Except Violation Unit :=
  match edges.zipIdx.find? fun (e, _) => !e.inRange n with
  | some (e, i) => .error (.edgeOutOfRange i e n)
  | none =>
      match firstDescent? 0 edges with
      | some i => .error (.edgesOutOfOrder i)
      | none => .ok ()

structure Layer where
  options : Options
  vertices : Array Point
  edges : Array Edge
  /-- For each edge, the handle of the set of input edges snapped to it. -/
  inputHandles : Array Int
  inputSets : IdSets
  /-- For each input edge, the handle of its set of labels. -/
  labelHandles : Array Int
  labelSets : IdSets

namespace Layer

/-- Checks that every edge has a handle and that the edge table is valid. -/
def check (l : Layer) : Except Violation Unit :=
  if l.inputHandles.size = l.edges.size then checkEdges l.edges.toList l.vertices.size
  else .error (.setCount l.inputHandles.size l.edges.size)

/-- The rows that input edges start as, the first one having id `i`. An undirected edge is stored
with its reverse, which has no input ids. -/
def inputRows (undirected : Bool) : Nat → List Edge → List Row
  | _, [] => []
  | i, e :: rest =>
      let row : Row := ⟨e, i⟩
      if undirected then row :: ⟨e.reverse, IdSets.emptyId⟩ :: inputRows undirected (i + 1) rest
      else row :: inputRows undirected (i + 1) rest

/-- The labels of `n` input edges; those beyond the given ones have none. -/
def paddedLabels (n : Nat) (labels : List (List Int)) : List (List Int) :=
  labels.take n ++ List.replicate (n - labels.length) []

/-- Makes a layer from snapped input edges and their labels: input edge `i` is the `i`-th edge.
The edges are cleaned under the options. -/
def build (options : Options) (vertices : Array Point) (inputs : List Edge)
    (labels : List (List Int)) : Except Failure Layer :=
  match inputs.find? fun e => !e.inRange vertices.size with
  | some e => .error (.error (.invariantViolation (.inputOutOfRange e vertices.size)))
  | none => do
      let cleaned ← liftFault (clean options (inputRows options.isUndirected 0 inputs) .empty)
      match cleaned.error? with
      | some e => .error (.error e)
      | none =>
          let (labelHandles, labelSets) ←
            liftFault (IdSets.empty.addAll (paddedLabels inputs.length labels))
          return { options := cleaned.options
                   vertices := vertices
                   edges := (cleaned.rows.map Tagged.edge).toArray
                   inputHandles := (cleaned.rows.map Tagged.item).toArray
                   inputSets := cleaned.sets
                   labelHandles := labelHandles.toArray
                   labelSets := labelSets }

end Layer

end SnapGraph
