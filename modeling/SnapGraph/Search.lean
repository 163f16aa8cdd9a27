/-!
Binary search in an array whose elements that satisfy a condition come before those that do not.
-/

namespace SnapGraph

section Search

variable {α : Type}

/-- The search for the end of the elements that satisfy `p` within `lo, …, hi`. -/
def partitionPoint.search (xs : Array α) (p : α → Bool) (lo hi : Nat) (h : hi ≤ xs.size) : Nat :=
  if hlt : lo < hi then
    let mid := (lo + hi) / 2
    have hmid : mid < xs.size := by omega
    if p xs[mid] then search xs p (mid + 1) hi h
    else search xs p lo mid (by omega)
  else lo
termination_by hi - lo
decreasing_by all_goals omega

/-- How many elements satisfy `p`, where those that do come before those that do not. -/
def partitionPoint (xs : Array α) (p : α → Bool) : Nat :=
  partitionPoint.search xs p 0 xs.size (Nat.le_refl _)

end Search

end SnapGraph
