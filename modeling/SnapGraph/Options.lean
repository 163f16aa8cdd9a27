/-!
The four policies a layer of snapped edges is cleaned under, and what they promise afterwards.
-/

namespace SnapGraph

/-- Whether edges carry a direction. Undirected edges are stored as sibling pairs. -/
inductive EdgeType
  | directed
  | undirected
  deriving DecidableEq, Repr, Inhabited

/-- What becomes of edges from a vertex to itself. -/
inductive DegeneratePolicy
  | discard
  /-- One is kept at a vertex that no other edge touches. -/
  | discardExcess
  | keep
  deriving DecidableEq, Repr, Inhabited

/-- What becomes of copies of one directed edge. -/
inductive DuplicatePolicy
  /-- Copies become one edge that carries the union of their input ids. -/
  | merge
  | keep
  deriving DecidableEq, Repr, Inhabited

/-- What becomes of an edge together with its sibling. -/
inductive SiblingPolicy
  | discard
  | keep
  /-- An edge without sibling is reported. -/
  | require
  /-- An edge without sibling is given one that has no input ids. -/
  | create
  deriving DecidableEq, Repr, Inhabited

structure Options where
  edgeType : EdgeType := .directed
  degenerates : DegeneratePolicy := .keep
  duplicates : DuplicatePolicy := .keep
  siblings : SiblingPolicy := .keep
  /-- Whether vertices that no edge touches may be dropped. -/
  allowVertexFiltering : Bool := true
  deriving DecidableEq, Repr, Inhabited

namespace SiblingPolicy

/-- Under these policies every edge has a sibling after cleaning, and undirected edges have become
directed ones. -/
def pairsUp : SiblingPolicy → Bool
  | require | create => true
  | discard | keep => false

end SiblingPolicy

namespace Options

def isDirected (o : Options) : Bool := o.edgeType == .directed

def isUndirected (o : Options) : Bool := o.edgeType == .undirected

/-- Whether every edge of a layer with these options has a sibling. -/
def guaranteesSiblings (o : Options) : Bool := o.siblings.pairsUp || o.isUndirected

/-- The options of the layer that cleaning produces. -/
def afterCleaning (o : Options) : Options :=
  if o.siblings.pairsUp then { o with edgeType := .directed } else o

theorem afterCleaning_afterCleaning (o : Options) :
    o.afterCleaning.afterCleaning = o.afterCleaning := by
  unfold afterCleaning
  split <;> simp_all

end Options

end SnapGraph
