/-!
The least rotation of a list. Two starts are compared place by place; when they differ at the `k`-th
place, no start up to `k` places after the greater one can be least, so that one moves past them.
Every comparison moves a start or the place on, so the search takes linear time.
-/

namespace SnapGraph

variable {α : Type} [Ord α]

/-- The search, with starts `i` and `j` that agree on their first `k` places. -/
def leastRotation.search (s : Array α) (i j k : Nat) : Nat :=
  if h : i < s.size ∧ j < s.size ∧ k < s.size then
    have hpos : 0 < s.size := Nat.lt_of_le_of_lt (Nat.zero_le i) h.1
    have hi : (i + k) % s.size < s.size := Nat.mod_lt _ hpos
    have hj : (j + k) % s.size < s.size := Nat.mod_lt _ hpos
    match compare s[(i + k) % s.size] s[(j + k) % s.size] with
    | .eq => search s i j (k + 1)
    | .gt =>
        let i := i + k + 1
        search s i (if i = j then j + 1 else j) 0
    | .lt =>
        let j := j + k + 1
        search s i (if i = j then j + 1 else j) 0
  else min i j
termination_by 3 * s.size - (i + j + k)
decreasing_by all_goals (try split) <;> omega

/-- The least offset whose rotation of the list is lexicographically least; 0 for the empty
list. -/
def leastRotation (s : List α) : Nat :=
  leastRotation.search s.toArray 0 1 0

end SnapGraph
