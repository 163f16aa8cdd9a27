import SnapGraph.LeftTurn

/-!
Circuits of the left turns. A table of turns is used up edge by edge: a circuit follows the turns
from an edge until it meets an edge that is used already, and takes the turns it follows out of the
table. Where the turns are a permutation, the circuits are its cycles.
-/

namespace SnapGraph

namespace Turns

/-- The turn of an edge, if it is not used up. -/
def next? (turns : Turns) (e : Nat) : Option Nat := (turns[e]?).join

def left (turns : Turns) : Nat := turns.countP Option.isSome

/-- The table without the turn of one edge. -/
def use (turns : Turns) (e : Nat) : Turns := turns.setIfInBounds e none

theorem left_use {turns : Turns} {e next : Nat} (h : turns.next? e = some next) :
    (turns.use e).left + 1 = turns.left := by
  have he : e < turns.size := by
    by_cases he : e < turns.size
    · exact he
    · simp [next?, Array.getElem?_eq_none (Nat.le_of_not_lt he)] at h
  have hget : turns[e] = some next := by
    simpa [next?, Array.getElem?_eq_getElem he] using h
  have hpos : 0 < turns.countP Option.isSome :=
    Array.countP_pos_iff.2 ⟨turns[e], Array.getElem_mem he, by simp [hget]⟩
  simp only [left, use, Array.setIfInBounds, he, dif_pos, Array.countP_set, hget]
  simp
  omega

/-- Follows the turns from an edge as long as they are not used. -/
def circuit (turns : Turns) (e : Nat) : List Nat × Turns :=
  match _h : turns.next? e with
  | none => ([], turns)
  | some next =>
      let (rest, turns) := circuit (turns.use e) next
      (e :: rest, turns)
termination_by turns.left
decreasing_by have := left_use _h; omega

theorem circuit_eq_nil {turns : Turns} {e : Nat} (h : turns.next? e = none) :
    turns.circuit e = ([], turns) := by
  rw [circuit]
  split
  · rfl
  · rename_i hnext
    rw [h] at hnext
    cases hnext

theorem circuit_eq_cons {turns : Turns} {e next : Nat} (h : turns.next? e = some next) :
    turns.circuit e = (e :: ((turns.use e).circuit next).1, ((turns.use e).circuit next).2) := by
  rw [circuit]
  split
  · rename_i hnone
    rw [h] at hnone
    cases hnone
  · rename_i hnext
    rw [h] at hnext
    cases hnext
    rfl

theorem left_circuit (turns : Turns) (e : Nat) :
    (turns.circuit e).2.left + (turns.circuit e).1.length = turns.left := by
  fun_induction circuit turns e with
  | case1 turns e h => simp
  | case2 turns e next h rest turns' heq ih =>
    have := left_use h
    simp_all
    omega

theorem left_circuit_lt {turns : Turns} {e next : Nat} (h : turns.next? e = some next) :
    (turns.circuit e).2.left < turns.left := by
  have hlen : 0 < (turns.circuit e).1.length := by
    rw [circuit_eq_cons h]
    exact Nat.succ_pos _
  have := left_circuit turns e
  omega

/-- The circuits that begin at the given edges, so far as these are not used by an earlier one. -/
def circuits (turns : Turns) : List Nat → List (List Nat)
  | [] => []
  | start :: starts =>
      match turns.circuit start with
      | ([], _) => circuits turns starts
      | (c, turns) => c :: circuits turns starts

end Turns

end SnapGraph
