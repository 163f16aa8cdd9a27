import SnapGraph.Loop
import SnapGraph.Sibling

/-!
Connected components of directed sibling pairs. A component is found from one circuit by going over
to the circuits of its edges' siblings, then to those of their edges' siblings, and so on.

A filament is a walk along some edges and back along their siblings; it encloses no area. On demand
filaments are removed: where a circuit meets the sibling of an edge that it has passed, the two are
dropped, and the walk between them becomes a loop of its own.
-/

namespace SnapGraph

/-! ### Exploring -/

namespace Turns

/-- Follows the turns from an edge as long as they are not used, and notes the siblings that have one
at the time their edges are passed. -/
def follow (sibling : Nat → Nat) (turns : Turns) (e : Nat) : List Nat × List Nat × Turns :=
  match _h : turns.next? e with
  | none => ([], [], turns)
  | some next =>
      let (rest, found, left) := follow sibling (turns.use e) next
      let waits := ((turns.use e).next? (sibling e)).isSome
      (e :: rest, if waits then sibling e :: found else found, left)
termination_by turns.left
decreasing_by have := left_use _h; omega

/-- Noting siblings does not change the way. -/
theorem follow_eq (sibling : Nat → Nat) (turns : Turns) (e : Nat) :
    (turns.follow sibling e).1 = (turns.circuit e).1 ∧
      (turns.follow sibling e).2.2 = (turns.circuit e).2 := by
  fun_induction follow sibling turns e with
  | case1 turns e hnone =>
      rw [circuit_eq_nil hnone]
      exact ⟨rfl, rfl⟩
  | case2 turns e next hnext rest found left heq waits ih =>
      rw [heq] at ih
      rw [circuit_eq_cons hnext, ← ih.1, ← ih.2]
      exact ⟨rfl, rfl⟩

theorem left_follow_lt {sibling : Nat → Nat} {turns : Turns} {e next : Nat}
    (h : turns.next? e = some next) : (turns.follow sibling e).2.2.left < turns.left := by
  rw [(follow_eq sibling turns e).2]
  exact left_circuit_lt h

/-- The circuits reached from a stack of edges by going over to siblings, and the turns left. A
sibling on the stack may have been used before its turn comes. -/
def explore (sibling : Nat → Nat) (turns : Turns) (frontier : List Nat) :
    List (List Nat) × Turns :=
  match frontier with
  | [] => ([], turns)
  | start :: frontier =>
      match _h : turns.next? start with
      | none => explore sibling turns frontier
      | some _ =>
          let circuit := (turns.follow sibling start).1
          let found := (turns.follow sibling start).2.1
          let rest := (turns.follow sibling start).2.2
          let (circuits, turns) := explore sibling rest (found.reverse ++ frontier)
          (circuit :: circuits, turns)
termination_by (turns.left, frontier.length)
decreasing_by
  · exact Prod.Lex.right _ (Nat.lt_succ_self _)
  · exact Prod.Lex.left _ _ (left_follow_lt _h)

/-- The circuits of every component, by the given starts. -/
def components (sibling : Nat → Nat) (turns : Turns) : List Nat → List (List (List Nat))
  | [] => []
  | start :: starts =>
      match turns.next? start with
      | none => components sibling turns starts
      | some _ =>
          let (circuits, turns) := explore sibling turns [start]
          circuits :: components sibling turns starts

end Turns

/-! ### Filaments -/

/-- A walk from which filaments are being removed: the edges kept so far, the place on the walk of
each edge that is waiting for its sibling, and the loops cut off. -/
structure Pruning where
  path : Array Nat
  places : Places
  loops : List (List Nat)

namespace Pruning

/-- Takes the walk one edge further. If the sibling waits at place `i`, the walk goes back to that
place, and the edges in between, if any, are cut off as a loop. -/
def step (sibling : Nat → Nat) (p : Pruning) (e : Nat) : Except Fault Pruning :=
  let path := p.path.push e
  let places : Places := p.places.setIfInBounds e (some p.path.size)
  match places.place? (sibling e) with
  | none => .ok ⟨path, places, p.loops⟩
  | some i =>
      if i + 2 = path.size then .ok ⟨path.take i, places, p.loops⟩
      else if i + 2 < path.size then
        let loop := (path.extract (i + 1) (path.size - 1)).toList
        .ok ⟨path.take i, places.forget loop, p.loops ++ [loop]⟩
      else .error .brokenPairing

/-- The loops that are left of a circuit, and the places after it. -/
def circuit (sibling : Nat → Nat) (places : Places) (edges : List Nat) :
    Except Fault (List (List Nat) × Places) := do
  let p ← edges.foldlM (step sibling) ⟨#[], places, []⟩
  let rest := p.path.toList
  return (if rest.isEmpty then p.loops else p.loops ++ [rest], p.places.forget rest)

def component (sibling : Nat → Nat) (places : Places) :
    List (List Nat) → Except Fault (List (List Nat) × Places)
  | [] => .ok ([], places)
  | c :: cs => do
      let (loops, places) ← circuit sibling places c
      let (others, places) ← component sibling places cs
      return (loops ++ others, places)

/-- The loops that are left of the circuits of all components. -/
def components (sibling : Nat → Nat) (places : Places) :
    List (List (List Nat)) → Except Fault (List (List (List Nat)))
  | [] => .ok []
  | c :: cs => do
      let (loops, places) ← component sibling places c
      return loops :: (← components sibling places cs)

end Pruning

/-! ### Components -/

inductive FilamentPolicy
  | discard
  | keep
  deriving DecidableEq, Repr

namespace Graph

/-- Whether directed components can be assembled under the options. -/
def admitsDirectedComponents (o : Options) (filaments : FilamentPolicy) : Bool :=
  (o.degenerates == .discard || o.degenerates == .discardExcess && filaments == .keep) &&
    o.siblings.pairsUp && o.isDirected

/-- Assembles the circuits of a directed graph of sibling pairs, grouped into components. Components
of which nothing is left are dropped. -/
def directedComponents (g : Graph) (sort : ComparisonSort Spoke) (filaments : FilamentPolicy) :
    Except Failure (List (List (List Nat))) := do
  if !admitsDirectedComponents g.options filaments then throw (.fault .unsupportedOptions)
  let turns ← liftFault (g.leftTurns sort)
  match turns.error? with
  | some e => throw (.error e)
  | none =>
      let sibling ← liftFault g.siblingOf
      let ids ← liftFault g.minInputIds
      let key := fun e => ids.getD e noInput
      let circuits := turns.value.components sibling g.edgeIds
      let kept ← match filaments with
        | .keep => pure circuits
        | .discard =>
            liftFault (Pruning.components sibling (Array.replicate g.numEdges none) circuits)
      let components := (kept.filter fun c => !c.isEmpty).map fun loops =>
        orderChains key (loops.map (canonicalLoop key))
      return sortByKey (fun c => chainKey key (c.head?.getD [])) components

end Graph

end SnapGraph
