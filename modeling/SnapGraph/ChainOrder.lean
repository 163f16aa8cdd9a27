import SnapGraph.Graph
import SnapGraph.Rotation

/-!
The canonical start of a loop and the canonical order of chains, both by the least input ids of the
edges, so that snapping the output again reproduces it.

A loop ends with an edge of the greatest id and does not begin with one: if an input edge was split
into several pieces, the pieces with the greatest id stay together. Where this leaves a choice, the
id sequence is the least possible.
-/

namespace SnapGraph

/-! ### Loops -/

/-- A place of a loop as a possible start: places that cannot be the start come after all that can,
and otherwise the ids decide. -/
structure StartMark where
  later : Bool
  id : Int
  deriving DecidableEq, Repr

instance : Ord StartMark where
  compare a b := (compare a.later b.later).then (compare a.id b.id)

/-- The marks of a loop with the given ids, of which `greatest` is the greatest. A start comes right
after a run of it. -/
def startMarks (greatest : Int) (ids : List Int) : List StartMark :=
  List.zipWith (fun previous id => ⟨!(previous == greatest && id != greatest), id⟩)
    (ids.getLast?.toList ++ ids) ids

/-- The offset of the canonical start of a loop with the given ids. -/
def loopStart (ids : List Int) : Nat :=
  match ids.max? with
  | none => 0
  | some greatest => leastRotation (startMarks greatest ids)

/-- The rotation of a loop that begins at its canonical start. -/
def canonicalLoop {α : Type} (key : α → Int) (edges : List α) : List α :=
  edges.rotateLeft (loopStart (edges.map key))

/-- The canonical rotation of a loop, its ids given as a table. -/
def canonicalLoop? (ids : Array Int) (edges : List Int) : Except Fault (List Int) := do
  let places ← edges.mapM (indexOf ids.size)
  return (canonicalLoop (fun e => ids.getD e noInput) places).map Int.ofNat

/-! ### Chains -/

/-- Sorts by a key; items with equal keys keep their order. -/
def sortByKey {α : Type} (key : α → Int) (l : List α) : List α := l.mergeSort fun a b => key a ≤ key b

/-- The id of the first edge of a chain. -/
def chainKey {α : Type} (key : α → Int) (chain : List α) : Int := (chain.head?.map key).getD noInput

/-- The canonical order of chains: by the ids of their first edges. -/
def orderChains {α : Type} (key : α → Int) (chains : List (List α)) : List (List α) :=
  sortByKey (chainKey key) chains

/-- The canonical order of chains, the ids given as a table. Only with two or more chains is any id
looked at, and then each chain must have a first edge. -/
def orderChains? (ids : Array Int) (chains : List (List Int)) : Except Fault (List (List Int)) :=
  if chains.length < 2 then .ok chains
  else do
    let keyed ← chains.mapM fun chain => do
      let first ← (chain.head?.map Except.ok).getD (.error .outOfRange)
      return (ids.getD (← indexOf ids.size first) noInput, chain)
    return (sortByKey Prod.fst keyed).map Prod.snd

end SnapGraph
