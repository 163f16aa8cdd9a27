import SnapGraph.Component

/-!
Components of undirected edges. Every component is split into two complements such that an edge is
in one of them exactly if its sibling is in the other. Exploring gives each circuit a side: the
circuit of an edge's sibling belongs to the other side. If an edge and its sibling end up on one
side, the edges do not form loops.
-/

namespace SnapGraph

/-- The side, if any, that each edge has been given. -/
abbrev Sides := Array (Option Bool)

namespace Sides

def side? (sides : Sides) (e : Nat) : Option Bool := (sides[e]?).join

/-- Gives the edges of a circuit a side, one by one, and finds the siblings that have none at that
time. -/
def claim (sibling : Nat → Nat) (side : Bool) : Sides → List Nat →
    Except BuildError (List Nat × Sides)
  | sides, [] => .ok ([], sides)
  | sides, e :: rest =>
      let sides : Sides := sides.setIfInBounds e (some side)
      match sides.side? (sibling e) with
      | none => do
          let (found, sides) ← claim sibling side sides rest
          return (sibling e :: found, sides)
      | some other =>
          if other = side then .error (.siblingInSameComplement e) else claim sibling side sides rest

end Sides

/-- What exploring one component gives: its circuits with their sides, and the state after it. -/
structure Exploration where
  circuits : List (Bool × List Nat)
  turns : Turns
  sides : Sides

/-- The circuits reached from a stack of edges with their sides. -/
def Turns.exploreSides (sibling : Nat → Nat) (turns : Turns) (sides : Sides)
    (frontier : List (Nat × Bool)) : Except BuildError Exploration :=
  match frontier with
  | [] => .ok ⟨[], turns, sides⟩
  | (start, side) :: frontier =>
      match _h : turns.next? start with
      | none => exploreSides sibling turns sides frontier
      | some _ =>
          let circuit := (turns.circuit start).1
          match sides.claim sibling side circuit with
          | .error e => .error e
          | .ok (found, sides) =>
              let onward := found.reverse.map fun s => (s, !side)
              match exploreSides sibling (turns.circuit start).2 sides (onward ++ frontier) with
              | .error e => .error e
              | .ok x => .ok { x with circuits := (side, circuit) :: x.circuits }
termination_by (turns.left, frontier.length)
decreasing_by
  · exact Prod.Lex.right _ (Nat.lt_succ_self _)
  · exact Prod.Lex.left _ _ (left_circuit_lt _h)

/-- The two complements of a component of undirected edges. -/
structure Complements where
  first : List (List Nat)
  second : List (List Nat)
  deriving DecidableEq, Repr

namespace Complements

/-- Cuts the circuits of a component into loops and splits them by side. The places after it are those
for the next component. -/
def ofCircuits (kind : LoopKind) (edge : Nat → Edge) (key : Nat → Int) (places : Places)
    (circuits : List (Bool × List Nat)) : Except Fault (Complements × Places) := do
  let (loops, places) ← kind.cutAll edge places (circuits.map Prod.snd)
  let loopsOf (side : Bool) :=
    let own := (((circuits.map Prod.fst).zip loops).filter fun c => c.1 == side).flatMap Prod.snd
    orderChains key (own.map (canonicalLoop key))
  return (⟨loopsOf false, loopsOf true⟩, places)

def ofComponents (kind : LoopKind) (edge : Nat → Edge) (key : Nat → Int) (places : Places) :
    List (List (Bool × List Nat)) → Except Fault (List Complements)
  | [] => .ok []
  | c :: cs => do
      let (complements, places) ← ofCircuits kind edge key places c
      return complements :: (← ofComponents kind edge key places cs)

/-- The circuits of every component, by the given starts, and the error that ended the search. -/
def circuits (sibling : Nat → Nat) (turns : Turns) (sides : Sides) :
    List Nat → Outcome (List (List (Bool × List Nat)))
  | [] => ⟨[], none⟩
  | start :: starts =>
      match turns.next? start with
      | none => circuits sibling turns sides starts
      | some _ =>
          match turns.exploreSides sibling sides [(start, false)] with
          | .error e => ⟨[], some e⟩
          | .ok x =>
              let others := circuits sibling x.turns x.sides starts
              ⟨x.circuits :: others.value, others.error?⟩

end Complements

namespace Graph

/-- Assembles the components of an undirected graph without degenerate edges. If an edge shares a
side with its sibling, the components finished before stand in the order they were found in. -/
def undirectedComponents (g : Graph) (sort : ComparisonSort Spoke) (kind : LoopKind) :
    Except Fault (Outcome (List Complements)) := do
  if g.options.degenerates = .keep ∨ g.options.isDirected then throw .unsupportedOptions
  let turns ← g.leftTurns sort
  match turns.error? with
  | some e => return ⟨[], some e⟩
  | none =>
      let sibling ← g.siblingOf
      let ids ← g.minInputIds
      let key := fun e => ids.getD e noInput
      let found := Complements.circuits sibling turns.value (Array.replicate g.numEdges none) g.edgeIds
      let components ← Complements.ofComponents kind g.edge key g.noPlaces found.value
      match found.error? with
      | some e => return ⟨components, some e⟩
      | none =>
          return ⟨sortByKey (fun c => chainKey key (c.first.head?.getD [])) components, none⟩

end Graph

end SnapGraph
