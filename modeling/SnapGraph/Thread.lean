import SnapGraph.ChainOrder
import SnapGraph.Incidence
import SnapGraph.Sibling

/-!
What polylines are threaded through: the edges at each vertex, the sibling of each undirected edge,
and which edges are used. Using an undirected edge uses its sibling too.
-/

namespace SnapGraph

/-- A graph with the tables that polylines look things up in. -/
structure Thread where
  graph : Graph
  incidence : Incidence
  sibling : Nat → Nat
  ids : Array Int

/-- Which edges are used, how many remain (an undirected edge counts once with its sibling), and for
each vertex how many walks began there less how many ended there. -/
structure Usage where
  used : Array Bool
  remaining : Nat
  balance : Array Int

namespace Thread

variable (t : Thread)

def directed : Bool := t.graph.options.isDirected

def key (e : Nat) : Int := t.ids.getD e noInput

def origin (e : Nat) : Int := (t.graph.edge e).origin

def dest (e : Nat) : Int := (t.graph.edge e).dest

/-- A vertex is interior if exactly one chain passes through it. -/
def isInterior (v : Int) : Bool :=
  if t.directed then t.incidence.inDegree v == 1 && t.incidence.outDegree v == 1
  else t.incidence.outDegree v == 2

/-- How many walks must begin at a vertex, less those that must end there; of undirected edges only
the parity counts. -/
def surplus (v : Int) : Int :=
  if t.directed then (t.incidence.outDegree v : Int) - t.incidence.inDegree v
  else (t.incidence.outDegree v % 2 : Nat)

def inputOrder : List Nat := Graph.inputOrder t.ids.toList

def start : Usage where
  used := Array.replicate t.graph.numEdges false
  remaining := if t.directed then t.graph.numEdges else t.graph.numEdges / 2
  balance := Array.replicate t.graph.numVertices 0

end Thread

namespace Usage

def isFree (u : Usage) (e : Nat) : Bool := u.used[e]? == some false

/-- How many entries of the table are free. -/
def free (u : Usage) : Nat := u.used.countP (! ·)

/-- Walks that began at a vertex, less those that ended there. -/
def balanceOf (u : Usage) (v : Int) : Int := u.balance.getD v.toNat 0

/-- Adds to the balance of a vertex. -/
def adjust (u : Usage) (v : Int) (change : Int) : Usage :=
  { u with balance := u.balance.modify v.toNat (· + change) }

end Usage

namespace Thread

def mark (t : Thread) (u : Usage) (e : Nat) : Except Fault Usage :=
  if u.isFree e ∧ u.remaining ≠ 0 then
    let used := u.used.setIfInBounds e true
    let used := if t.directed then used else used.setIfInBounds (t.sibling e) true
    .ok { u with used, remaining := u.remaining - 1 }
  else .error .brokenPairing

theorem countP_setIfInBounds_true_le (used : Array Bool) (i : Nat) :
    (used.setIfInBounds i true).countP (! ·) ≤ used.countP (! ·) := by
  by_cases hi : i < used.size
  · simp only [Array.setIfInBounds, hi, dif_pos, Array.countP_set]
    split <;> simp
  · simp [Array.setIfInBounds, hi]

theorem free_mark_lt {t : Thread} {u u' : Usage} {e : Nat} (h : t.mark u e = .ok u') :
    u'.free < u.free := by
  unfold mark at h
  split at h
  · rename_i hfree
    cases h
    have hget : u.used[e]? = some false := by simpa [Usage.isFree] using hfree.1
    obtain ⟨he, hval⟩ := Array.getElem?_eq_some_iff.1 hget
    have hset : (u.used.setIfInBounds e true).countP (! ·) < u.used.countP (! ·) := by
      have hpos : 0 < u.used.countP (! ·) :=
        Array.countP_pos_iff.2 ⟨u.used[e], Array.getElem_mem he, by simp [hval]⟩
      simp only [Array.setIfInBounds, he, dif_pos, Array.countP_set, hval]
      show u.used.countP (! ·) - 1 + 0 < u.used.countP (! ·)
      omega
    simp only [Usage.free]
    split
    · exact hset
    · exact Nat.lt_of_le_of_lt (countP_setIfInBounds_true_le _ _) hset
  · cases h

end Thread

end SnapGraph
