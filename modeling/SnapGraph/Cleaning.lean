import SnapGraph.Bundle
import SnapGraph.IdSet
import SnapGraph.Options

/-!
Cleaning turns the raw multiset of snapped edges into the sorted table that a graph is made of.
Each bundle of copies is decided on its own: `Options.plan` says from the numbers of copies how many
edges remain and how they come by their input ids, and `Bundle.realize` carries that out. Undirected
edges must come as pairs of directed edges.
-/

namespace SnapGraph

/-- An edge with the handle of its set of input ids. -/
abbrev Row := Tagged Int

inductive Plan
  | drop
  /-- Every copy stays with its own input ids; `created` more have none. -/
  | copy (created : Nat)
  /-- `count` edges remain, each with the input ids of all copies. -/
  | unite (count : Nat)
  deriving DecidableEq, Repr

def Plan.count (copies : Nat) : Plan → Nat
  | drop => 0
  | copy created => copies + created
  | unite count => count

namespace Options

/-- The plan for `n` copies of a degenerate edge; `alone` says that no other edge touches its
vertex. -/
def planDegenerate (o : Options) (alone : Bool) (n : Nat) : Except Fault Plan :=
  if o.degenerates = .discard || o.degenerates = .discardExcess && !alone then .ok .drop
  else
    let united := o.duplicates = .merge || o.degenerates = .discardExcess
    if o.isUndirected && o.siblings.pairsUp then
      if n % 2 = 0 then .ok (.unite (if united then 1 else n / 2)) else .error .unpairedDegenerate
    else if united then .ok (.unite (if o.isUndirected then 2 else 1))
    else if o.siblings = .discard then .ok (.unite n)
    else .ok (.copy 0)

/-- The plan for `n` copies of an edge between two vertices, `m` edges running the other way. -/
def planProper (o : Options) (n m : Nat) : Plan :=
  let merged := o.duplicates = .merge
  match o.siblings with
  | .keep => if merged && 1 < n then .unite 1 else .copy 0
  | .discard =>
      if o.isUndirected then if n % 2 = 0 then .drop else .unite 1
      else if n ≤ m then .drop
      else .unite (if merged then 1 else n - m)
  | .require | .create =>
      if merged then .unite 1
      else if o.isUndirected then .unite ((n + 1) / 2)
      else .copy (m - n)

/-- Whether `n` copies of an edge and `m` of its reverse are no sibling pairs. -/
def lacksSibling (o : Options) (n m : Nat) : Bool :=
  if o.isUndirected then n % 2 != 0 else n != m

end Options

namespace Bundle

variable {α : Type}

/-- The plan for a bundle; `alone` says that it is the only one of its star. -/
def plan (o : Options) (alone : Bool) (b : Bundle α) : Except Fault Plan :=
  if b.edge.isDegenerate then o.planDegenerate alone b.forward.length
  else .ok (o.planProper b.forward.length b.backward.length)

/-- Whether sibling pairs are required of the bundle and missing. -/
def missesSibling (o : Options) (b : Bundle α) : Bool :=
  o.siblings == .require && !b.edge.isDegenerate &&
    o.lacksSibling b.forward.length b.backward.length

end Bundle

namespace IdSets

def members (s : IdSets) : List Int → Except Fault (List Int)
  | [] => .ok []
  | handle :: rest => do
      let set ← s.find handle
      let ids ← s.members rest
      return set.toList ++ ids

/-- The handle of the union of the named sets. A single set keeps its handle. -/
def unite (s : IdSets) : List Int → Except Fault (Int × IdSets)
  | [handle] => .ok (handle, s)
  | handles => do s.add (← s.members handles)

end IdSets

namespace Bundle

def realize (b : Bundle Int) (sets : IdSets) : Plan → Except Fault (List Row × IdSets)
  | .drop => .ok ([], sets)
  | .copy created =>
      .ok ((b.forward ++ List.replicate created IdSets.emptyId).map (Tagged.mk b.edge), sets)
  | .unite count => do
      let (handle, sets) ← sets.unite b.forward
      return (List.replicate count ⟨b.edge, handle⟩, sets)

end Bundle

/-- A bundle with the mark that it is alone in its star. -/
def Star.marked {α : Type} (s : Star α) : List (Bool × Bundle α) :=
  s.bundles.map fun b => (s.bundles.length == 1, b)

/-- The edge from the greatest 32-bit vertex id to itself is reserved and never part of a table. -/
def reservedEdge : Edge := ⟨2147483647, 2147483647⟩

/-- The bundles that cleaning decides on, with their marks. -/
def cleaningBundles (rows : List Row) : List (Bool × Bundle Int) :=
  (Star.ofBundles (Bundle.ofTagged (rows.filter (·.edge ≠ reservedEdge)))).flatMap Star.marked

def realizeAll (o : Options) (sets : IdSets) :
    List (Bool × Bundle Int) → Except Fault (List Row × IdSets)
  | [] => .ok ([], sets)
  | (alone, b) :: rest => do
      let plan ← b.plan o alone
      let (rows, sets) ← b.realize sets plan
      let (others, sets) ← realizeAll o sets rest
      return (rows ++ others, sets)

/-- What cleaning leaves. If sibling pairs are missing where they are required, the table is
complete all the same. -/
structure Cleaned where
  options : Options
  rows : List Row
  sets : IdSets
  error? : Option BuildError

/-- Cleans a multiset of edges. The table is sorted, copies of an edge in their given order. -/
def clean (o : Options) (rows : List Row) (sets : IdSets) : Except Fault Cleaned := do
  let bundles := cleaningBundles rows
  let (kept, sets) ← realizeAll o sets bundles
  let missing := bundles.any fun (_, b) => b.missesSibling o
  return ⟨o.afterCleaning, kept, sets, if missing then some .missingSiblings else none⟩

/-- Pairs the edges of a table with a parallel table of handles. -/
def zipRows (edges : List Edge) (handles : List Int) : Except Fault (List Row) :=
  if edges.length = handles.length then .ok (List.zipWith Tagged.mk edges handles)
  else .error .lengthMismatch

end SnapGraph
