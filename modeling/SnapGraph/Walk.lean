import SnapGraph.Thread

/-!
Walks: polylines as long as possible, which may pass a vertex, or copies of an edge, more than once.

First a walk begins for every unit of surplus of a vertex. Then all vertices are balanced, and the
edges left form closed walks, which are spliced into the walks that they touch. What touches none
becomes closed walks of their own, begun preferably where a run of edges with one input id begins.
-/

namespace SnapGraph.Thread

variable (t : Thread)

/-- The edge with the least input id, the first such one. -/
def leastEdge? : List Nat → Option Nat
  | [] => none
  | e :: edges =>
      match leastEdge? edges with
      | none => some e
      | some f => if t.key f < t.key e then some f else some e

/-- Whether a walk stops at `v` instead of going on by an edge with the given id: more walks end
here, and an edge with no greater id may still arrive and go on instead. -/
def waitsAt (u : Usage) (v : Int) (id : Int) : Bool :=
  let surplus := t.surplus v - u.balanceOf v
  (if t.directed then decide (surplus < 0) else surplus.tmod 2 == 1) &&
    (t.incidence.inIds v).any fun e => u.isFree e && decide (t.key e ≤ id)

/-- Walks on from `v`, always by the free edge with the least input id. -/
def walk (u : Usage) (v : Int) : Except Fault (List Nat × Usage) :=
  match t.leastEdge? ((t.incidence.outIds v).filter u.isFree) with
  | none => .ok ([], u)
  | some e =>
      if t.waitsAt u v (t.key e) then .ok ([], u)
      else
        match _h : t.mark u e with
        | .error f => .error f
        | .ok u => (walk u (t.dest e)).map fun (rest, u) => (e :: rest, u)
termination_by u.free
decreasing_by exact free_mark_lt _h

/-- A walk uses as many edges as it has. -/
theorem free_walk_le {u u' : Usage} {v : Int} {l : List Nat} (h : t.walk u v = .ok (l, u')) :
    u'.free + l.length ≤ u.free := by
  fun_induction walk t u v generalizing l u' with
  | case1 u v hnone => simp_all
  | case2 u v e hsome hwait => simp_all
  | case3 u v e hsome hwait f hmark => simp_all
  | case4 u v e hsome hwait u₁ hmark ih =>
    cases hw : t.walk u₁ (t.dest e) with
    | error f => simp [hw, Except.map] at h
    | ok r =>
      have := ih hw
      have := free_mark_lt hmark
      simp only [hw, Except.map, Except.ok.injEq, Prod.mk.injEq] at h
      obtain ⟨rfl, rfl⟩ := h
      simp only [List.length_cons]
      omega

/-- Whether a walk begins at `v` for its surplus. -/
def beginsAt (u : Usage) (v : Int) : Bool :=
  let surplus := t.surplus v
  let rest := surplus - u.balanceOf v
  decide (0 < surplus) && (if t.directed then decide (0 < rest) else rest % 2 != 0)

/-- The walks that begin for the surplus of their first vertices. -/
def openWalks (u : Usage) : List Nat → Except Fault (List (List Nat) × Usage)
  | [] => .ok ([], u)
  | e :: edges =>
      let v := t.origin e
      if u.isFree e && t.beginsAt u v then do
        let (w, u) ← t.walk (u.adjust v 1) v
        match w.getLast? with
        | some last =>
            let (ws, u) ← openWalks (u.adjust (t.dest last) (-1)) edges
            return (w :: ws, u)
        | none => openWalks (u.adjust v (-1)) edges
      else openWalks u edges

/-- Splices closed walks into a walk that stands at `v` and goes on by `rest`. Every vertex is looked
at once, those of closed walks too. -/
def splice (u : Usage) (v : Int) (rest : List Nat) : Except Fault (List Nat × Usage) :=
  match _h : t.walk u v with
  | .error f => .error f
  | .ok (found, u') =>
      if found.getLast?.all fun e => t.dest e == v then
        match _hr : found ++ rest with
        | [] => .ok ([], u')
        | e :: rest => (splice u' (t.dest e) rest).map fun (rest, u) => (e :: rest, u)
      else .error .brokenPairing
termination_by u.free + rest.length
decreasing_by
  have := free_walk_le t _h
  have := congrArg List.length _hr
  simp only [List.length_append, List.length_cons] at this
  omega

def maximize (u : Usage) (w : List Nat) : Except Fault (List Nat × Usage) :=
  match w with
  | [] => .ok ([], u)
  | e :: _ => t.splice u (t.origin e) w

def maximizeAll (u : Usage) : List (List Nat) → Except Fault (List (List Nat) × Usage)
  | [] => .ok ([], u)
  | w :: ws => do
      let (w, u) ← t.maximize u w
      let (ws, u) ← maximizeAll u ws
      return (w :: ws, u)

/-- Whether the first of some edges in input order is degenerate, or begins a run of free edges with
its input id: among them one more leaves its origin than enters it. -/
def startsInputChain (u : Usage) : List Nat → Bool
  | [] => false
  | e :: edges =>
      let v := t.origin e
      let run := ((e :: edges).takeWhile fun f => t.key f == t.key e).filter u.isFree
      t.dest e == v ||
        run.countP (fun f => t.origin f == v) == run.countP (fun f => t.dest f == v) + 1

/-- A closed walk from `v`, if there is a free edge to begin with. -/
def closedWalk (u : Usage) (v : Int) : Except Fault (List (List Nat) × Usage) := do
  let (w, u) ← t.walk u v
  if w.isEmpty then return ([], u)
  else
    let (w, u) ← t.maximize u w
    return ([w], u)

/-- The closed walks that are left, begun only where `starts` allows it. -/
def closedWalks (starts : Usage → List Nat → Bool) (u : Usage) :
    List Nat → Except Fault (List (List Nat) × Usage)
  | [] => .ok ([], u)
  | e :: edges =>
      if u.remaining = 0 then .ok ([], u)
      else if u.isFree e && starts u (e :: edges) then do
        let (w, u) ← t.closedWalk u (t.origin e)
        let (ws, u) ← closedWalks starts u edges
        return (w ++ ws, u)
      else closedWalks starts u edges

def walks : Except Fault (List (List Nat)) := do
  let (opened, u) ← t.openWalks t.start t.inputOrder
  let (opened, u) ← if u.remaining = 0 then pure (opened, u) else t.maximizeAll u opened
  let (chained, u) ← t.closedWalks t.startsInputChain u t.inputOrder
  let (others, u) ← t.closedWalks (fun _ _ => true) u t.inputOrder
  if u.remaining = 0 then return opened ++ chained ++ others else throw .brokenPairing

end SnapGraph.Thread
