import SnapGraph.Edge

/-!
Edges seen from their origins. A bundle holds the copies of an edge next to those of its reverse,
and a star the bundles that leave one vertex. Bundles come from merging two lists: copies listed by
edge, and copies listed by reversed edge. If both are sorted, every edge that occurs in either
direction gets exactly one bundle, and every vertex with an incident edge exactly one star.
-/

namespace SnapGraph

/-- An item attached to an edge. -/
structure Tagged (α : Type) where
  edge : Edge
  item : α
  deriving DecidableEq, Repr

/-- The copies of an edge, and those of its reverse. -/
structure Bundle (α : Type) where
  edge : Edge
  forward : List α
  backward : List α
  deriving DecidableEq, Repr

namespace Bundle

variable {α : Type}

/-- The lesser edge of the heads of two lists. -/
def nextEdge? : List (Tagged α) → List (Tagged α) → Option Edge
  | [], [] => none
  | o :: _, [] => some o.edge
  | [], i :: _ => some i.edge
  | o :: _, i :: _ => some (if o.edge ≤ i.edge then o.edge else i.edge)

/-- The items at the front of a list that belong to the edge. -/
def run (e : Edge) (l : List (Tagged α)) : List α :=
  (l.takeWhile fun t => t.edge == e).map Tagged.item

/-- The list after its items at the front that belong to the edge. -/
def afterRun (e : Edge) (l : List (Tagged α)) : List (Tagged α) :=
  l.dropWhile fun t => t.edge == e

theorem length_afterRun_le (e : Edge) (l : List (Tagged α)) :
    (afterRun e l).length ≤ l.length :=
  (List.dropWhile_sublist _).length_le

theorem length_afterRun_lt {e : Edge} {t : Tagged α} (h : t.edge = e) (l : List (Tagged α)) :
    (afterRun e (t :: l)).length < (t :: l).length := by
  simp only [afterRun, h, beq_self_eq_true, List.dropWhile_cons_of_pos, List.length_cons]
  exact Nat.lt_succ_of_le (length_afterRun_le e l)

/-- Taking away the runs of the next edge shortens the lists. -/
theorem length_afterRun_add_lt {e : Edge} {outs ins : List (Tagged α)}
    (h : nextEdge? outs ins = some e) :
    (afterRun e outs).length + (afterRun e ins).length < outs.length + ins.length := by
  have hout := length_afterRun_le e outs
  have hin := length_afterRun_le e ins
  match outs, ins, h with
  | o :: outs, [], h =>
    have := length_afterRun_lt (Option.some.inj h) outs
    omega
  | [], i :: ins, h =>
    have := length_afterRun_lt (Option.some.inj h) ins
    omega
  | o :: outs, i :: ins, h =>
    have h := Option.some.inj h
    split at h
    · have := length_afterRun_lt h outs
      omega
    · have := length_afterRun_lt h ins
      omega

/-- Merges copies listed by edge with copies listed by reversed edge. At every step the runs of the
lesser head edge become a bundle. -/
def merge (outs ins : List (Tagged α)) : List (Bundle α) :=
  match _h : nextEdge? outs ins with
  | none => []
  | some e => ⟨e, run e outs, run e ins⟩ :: merge (afterRun e outs) (afterRun e ins)
termination_by outs.length + ins.length
decreasing_by exact length_afterRun_add_lt _h

/-- Sorts by edge; copies of an edge keep their order. -/
def sortByEdge (l : List (Tagged α)) : List (Tagged α) := l.mergeSort fun a b => a.edge ≤ b.edge

def reversed (l : List (Tagged α)) : List (Tagged α) :=
  l.map fun t => ⟨t.edge.reverse, t.item⟩

/-- The bundles of a multiset of edges, in ascending order. -/
def ofTagged (l : List (Tagged α)) : List (Bundle α) :=
  merge (sortByEdge l) (sortByEdge (reversed l))

end Bundle

structure Star (α : Type) where
  center : Int
  bundles : List (Bundle α)
  deriving DecidableEq, Repr

/-- Groups neighbouring bundles with the same origin. -/
def Star.ofBundles {α : Type} : List (Bundle α) → List (Star α)
  | [] => []
  | b :: bs =>
      match ofBundles bs with
      | [] => [⟨b.edge.origin, [b]⟩]
      | s :: ss =>
          if s.center = b.edge.origin then ⟨s.center, b :: s.bundles⟩ :: ss
          else ⟨b.edge.origin, [b]⟩ :: s :: ss

end SnapGraph
