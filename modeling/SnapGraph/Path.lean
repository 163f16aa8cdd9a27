import SnapGraph.Thread

/-!
Paths: polylines whose inner vertices are interior, so that there is one for every chain. First come
those that begin at a vertex that cannot be interior, in input order, and then closed chains, which
begin at their canonical starts.
-/

namespace SnapGraph.Thread

variable (t : Thread)

/-- Follows edges from `e` until a vertex that is not interior, or the vertex `start`. -/
def path (start : Int) (u : Usage) (e : Nat) : Except Fault (List Nat × Usage) :=
  match _h : t.mark u e with
  | .error f => .error f
  | .ok u =>
      let v := t.dest e
      if !t.isInterior v || v == start then .ok ([e], u)
      else
        match ((t.incidence.outIds v).filter u.isFree).getLast? with
        | none => .ok ([e], u)
        | some next => (path start u next).map fun (rest, u) => (e :: rest, u)
termination_by u.free
decreasing_by exact free_mark_lt _h

/-- The paths that begin at vertices that are not interior. -/
def openPaths (u : Usage) : List Nat → Except Fault (List (List Nat) × Usage)
  | [] => .ok ([], u)
  | e :: edges =>
      if u.isFree e && !t.isInterior (t.origin e) then do
        let (p, u) ← t.path (t.origin e) u e
        let (ps, u) ← openPaths u edges
        return (p :: ps, u)
      else openPaths u edges

/-- The closed chains that are left. -/
def closedPaths (u : Usage) : List Nat → Except Fault (List (List Nat) × Usage)
  | [] => .ok ([], u)
  | e :: edges =>
      if u.remaining = 0 then .ok ([], u)
      else if u.isFree e then do
        let (p, u) ← t.path (t.origin e) u e
        let (ps, u) ← closedPaths u edges
        return (canonicalLoop t.key p :: ps, u)
      else closedPaths u edges

def paths : Except Fault (List (List Nat)) := do
  let (opened, u) ← t.openPaths t.start t.inputOrder
  let (closed, u) ← t.closedPaths u t.inputOrder
  if u.remaining = 0 then return opened ++ closed else throw .brokenPairing

end SnapGraph.Thread
