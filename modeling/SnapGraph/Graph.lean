import SnapGraph.Layer

/-!
A graph is a layer whose tables are valid: edges ascend and join vertices of the layer. Here are
its look-ups. Those that take an id from outside fail if it names nothing.
-/

namespace SnapGraph

structure Graph extends Layer where
  valid : toLayer.check = .ok ()

def Layer.graph (l : Layer) : Except Fault Graph :=
  match h : l.check with
  | .ok () => .ok ⟨l, h⟩
  | .error v => .error (.invalidTables v)

/-- Stands for the least input id of an edge that no input edge was snapped to. -/
def noInput : Int := -1

namespace Graph

def numVertices (g : Graph) : Nat := g.vertices.size

def numEdges (g : Graph) : Nat := g.edges.size

/-! ### Vertices and edges -/

def vertex? (g : Graph) (v : Int) : Except Fault Point := do
  return g.vertices.getD (← indexOf g.numVertices v) default

/-- The position of a vertex that an edge of the graph names. -/
def position (g : Graph) (v : Int) : Point := g.vertices.getD v.toNat default

def edge? (g : Graph) (e : Int) : Except Fault Edge := do
  return g.edges.getD (← indexOf g.numEdges e) default

/-- The edge with an id of the graph. -/
def edge (g : Graph) (e : Nat) : Edge := g.edges.getD e default

/-- The ids count on without bound; those of the first `2 ^ 31` edges fit a 32-bit integer. -/
def edgeIds (g : Graph) : List Nat := List.range g.numEdges

/-- Edge ids by destination, then origin, then id. All edges into a vertex stand together. -/
def inEdgeIds (g : Graph) : List Nat :=
  g.edgeIds.mergeSort fun a b => (g.edge a).reverse ≤ (g.edge b).reverse

/-! ### Input edges and labels -/

/-- The input edges that were snapped to an edge. -/
def inputIds (g : Graph) (e : Nat) : Except Fault IdSet :=
  g.inputSets.find (g.inputHandles.getD e IdSets.emptyId)

/-- The handle of the input edges of the edge with a given id. -/
def inputHandle? (g : Graph) (e : Int) : Except Fault Int := do
  return g.inputHandles.getD (← indexOf g.inputHandles.size e) IdSets.emptyId

def minInputId (g : Graph) (e : Nat) : Except Fault Int := do
  return (← g.inputIds e).first?.getD noInput

def minInputIds (g : Graph) : Except Fault (Array Int) := do
  return (← g.edgeIds.mapM g.minInputId).toArray

/-- The positions of a list by ascending value, equal values by position. Applied to least input
ids, this is about the order that the edges came in. -/
def inputOrder (ids : List Int) : List Nat :=
  (ids.zipIdx.mergeSort fun a b => a.1 ≤ b.1).map Prod.snd

def labelHandle? (g : Graph) (i : Int) : Except Fault Int := do
  return g.labelHandles.getD (← indexOf g.labelHandles.size i) IdSets.emptyId

/-- The labels of an input edge. -/
def labels? (g : Graph) (i : Int) : Except Fault IdSet := do g.labelSets.find (← g.labelHandle? i)

/-- The labels of all input edges that were snapped to an edge, in ascending order. -/
def edgeLabels? (g : Graph) (e : Int) : Except Fault (List Int) := do
  let inputs ← g.inputSets.find (← g.inputHandle? e)
  let labels ← inputs.toList.mapM g.labels?
  return ascending (labels.flatMap IdSet.toList)

end Graph

end SnapGraph
