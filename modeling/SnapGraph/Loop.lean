import SnapGraph.ChainOrder
import SnapGraph.Circuit
import SnapGraph.Offsets

/-!
Loops of directed edges. Turning left at every vertex traces circuits; a circuit is a loop as it is,
or is cut into simple loops, which visit no vertex twice.
-/

namespace SnapGraph

/-- The place of each vertex or edge that is looked up on a path. -/
abbrev Places := Array (Option Nat)

namespace Places

def place? (places : Places) (i : Nat) : Option Nat := (places[i]?).join

def forget (places : Places) (ids : List Nat) : Places :=
  ids.foldl (fun places i => places.setIfInBounds i none) places

end Places

/-- Where a loop is closed. -/
inductive LoopKind
  /-- At the first repeated vertex. -/
  | simple
  /-- At the first repeated edge. -/
  | circuit
  deriving DecidableEq, Repr

/-! ### Simple loops -/

/-- A walk that is being cut into simple loops: the path since the last cut that is not yet part of a
loop, the place on the path of the edge that leaves each vertex, and the loops cut off. -/
structure Peeling where
  path : Array Nat
  places : Places
  loops : List (List Nat)

namespace Peeling

/-- Takes the walk one edge further. As soon as it comes back to a vertex where an edge of the path
began, the edges since then are a loop. -/
def step (edge : Nat → Edge) (p : Peeling) (e : Nat) : Except Fault Peeling := do
  let path := p.path.push e
  let origin ← indexOf p.places.size (edge e).origin
  let places : Places := p.places.setIfInBounds origin (some p.path.size)
  let dest ← indexOf places.size (edge e).dest
  match places.place? dest with
  | none => return ⟨path, places, p.loops⟩
  | some i =>
      let loop := (← slice path i path.size).toList
      let origins ← loop.mapM fun f => indexOf places.size (edge f).origin
      return ⟨path.take i, places.forget origins, p.loops ++ [loop]⟩

/-- The loops of a circuit, and the places after it. -/
def circuit (edge : Nat → Edge) (places : Places) (edges : List Nat) :
    Except Fault (List (List Nat) × Places) := do
  let p ← edges.foldlM (step edge) ⟨#[], places, []⟩
  if p.path.isEmpty then return (p.loops, p.places) else throw .unclosedWalk

end Peeling

/-! ### Circuits -/

namespace LoopKind

/-- The loops of a circuit, and the places after it. -/
def cut (kind : LoopKind) (edge : Nat → Edge) (places : Places) (circuit : List Nat) :
    Except Fault (List (List Nat) × Places) :=
  match kind with
  | .simple => Peeling.circuit edge places circuit
  | .circuit => .ok ([circuit], places)

/-- The loops of each circuit, and the places after all of them. -/
def cutAll (kind : LoopKind) (edge : Nat → Edge) (places : Places) :
    List (List Nat) → Except Fault (List (List (List Nat)) × Places)
  | [] => .ok ([], places)
  | c :: cs => do
      let (loops, places) ← kind.cut edge places c
      let (others, places) ← kind.cutAll edge places cs
      return (loops :: others, places)

end LoopKind

namespace Graph

/-- The table of places before any circuit is cut. -/
def noPlaces (g : Graph) : Places := Array.replicate g.vertices.size none

/-- Assembles the loops of a directed graph without degenerate edges. -/
def directedLoops (g : Graph) (sort : ComparisonSort Spoke) (kind : LoopKind) :
    Except Failure (List (List Nat)) := do
  if g.options.degenerates = .keep ∨ g.options.isUndirected then throw (.fault .unsupportedOptions)
  let turns ← liftFault (g.leftTurns sort)
  match turns.error? with
  | some e => throw (.error e)
  | none =>
      let ids ← liftFault g.minInputIds
      let key := fun e => ids.getD e noInput
      let (loops, _) ← liftFault (kind.cutAll g.edge g.noPlaces (turns.value.circuits g.edgeIds))
      return orderChains key (loops.flatten.map (canonicalLoop key))

end Graph

end SnapGraph
