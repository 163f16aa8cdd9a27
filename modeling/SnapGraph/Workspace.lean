import SnapGraph.Compaction
import SnapGraph.Complement
import SnapGraph.Polyline

/-!
A workspace holds what has been assembled so far. Assemblers add to it; a step that breaks a
precondition leaves it as it was.
-/

namespace SnapGraph

structure Workspace where
  /-- The labels of the edge asked for last. -/
  labels : List Int := []
  turns : Turns := #[]
  loops : List (List Nat) := []
  directed : List (List (List Nat)) := []
  undirected : List Complements := []
  /-- The renumbering table of compaction. -/
  scratch : Array Int := #[]

namespace Workspace

/-- A workspace after a step, and the error the step reports. -/
abbrev Step := Except Fault (Workspace × Option BuildError)

/-- Replaces the labels by those of an edge. -/
def showLabels (w : Workspace) (g : Graph) (e : Int) : Except Fault Workspace := do
  return { w with labels := ← g.edgeLabels? e }

/-- Replaces the turns by the left turns of a graph, given edge ids by destination or, without any,
by those of the graph. -/
def routeLeft (w : Workspace) (g : Graph) (inIds : Option (List Int))
    (sort : ComparisonSort Spoke := .standard) : Step := do
  let turns ← match inIds with
    | some ids => g.leftTurnsFrom sort ids
    | none => g.leftTurns sort
  return ({ w with turns := turns.value }, turns.error?)

/-- Adds the loops of a directed graph; on an error there are none to add. -/
def addLoops (w : Workspace) (g : Graph) (kind : LoopKind)
    (sort : ComparisonSort Spoke := .standard) : Step :=
  match g.directedLoops sort kind with
  | .ok loops => .ok ({ w with loops := w.loops ++ loops }, none)
  | .error (.error e) => .ok (w, some e)
  | .error (.fault f) => .error f

/-- Adds the components of a directed graph; on an error there are none to add. -/
def addDirected (w : Workspace) (g : Graph) (filaments : FilamentPolicy)
    (sort : ComparisonSort Spoke := .standard) : Step :=
  match g.directedComponents sort filaments with
  | .ok components => .ok ({ w with directed := w.directed ++ components }, none)
  | .error (.error e) => .ok (w, some e)
  | .error (.fault f) => .error f

/-- Adds the components of an undirected graph; on an error, those finished before it. -/
def addUndirected (w : Workspace) (g : Graph) (kind : LoopKind)
    (sort : ComparisonSort Spoke := .standard) : Step := do
  let found ← g.undirectedComponents sort kind
  return ({ w with undirected := w.undirected ++ found.value }, found.error?)

def compact (w : Workspace) (l : Layer) : Except Fault (Workspace × Layer) := do
  let (l, scratch) ← l.compact w.scratch
  return ({ w with scratch }, l)

end Workspace

end SnapGraph
