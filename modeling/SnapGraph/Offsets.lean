import SnapGraph.Fault

/-!
A table cut into parts by offsets. A part begins at its offset and ends at the next one, so there is
one more offset than there are parts.
-/

namespace SnapGraph

/-- Where a part begins and where it ends. -/
def bounds (offsets : Array Nat) (i : Int) : Except Fault (Nat × Nat) := do
  let start ← indexOf offsets.size i
  let stop ← indexOf offsets.size (i + 1)
  return (offsets.getD start 0, offsets.getD stop 0)

/-- The items between two places of a table. -/
def slice {α : Type} (xs : Array α) (start stop : Nat) : Except Fault (Array α) :=
  if start ≤ stop ∧ stop ≤ xs.size then .ok (xs.extract start stop) else .error .outOfRange

/-- The items of a part. -/
def part {α : Type} (offsets : Array Nat) (xs : Array α) (i : Int) : Except Fault (Array α) := do
  let (start, stop) ← bounds offsets i
  slice xs start stop

theorem bounds_eq_ok {offsets : Array Nat} {i start stop : Nat} (hstart : offsets[i]? = some start)
    (hstop : offsets[i + 1]? = some stop) : bounds offsets i = .ok (start, stop) := by
  have hi : i < offsets.size := (Array.getElem?_eq_some_iff.1 hstart).1
  have hi' : i + 1 < offsets.size := (Array.getElem?_eq_some_iff.1 hstop).1
  have hindex : indexOf offsets.size ((i : Int) + 1) = .ok (i + 1) := indexOf_natCast hi'
  rw [bounds, indexOf_natCast hi, hindex]
  show Except.ok (offsets.getD i 0, offsets.getD (i + 1) 0) = .ok (start, stop)
  rw [Array.getD_eq_getD_getElem?, Array.getD_eq_getD_getElem?, hstart, hstop]
  rfl

/-- A part is missing if no offset follows its own. -/
theorem bounds_eq_error {offsets : Array Nat} {i : Nat} (h : offsets.size ≤ i + 1) :
    bounds offsets i = .error .outOfRange := by
  have hindex : indexOf offsets.size ((i : Int) + 1) = .error .outOfRange := by
    rw [indexOf, if_neg (by omega)]
  rw [bounds, hindex]
  unfold indexOf
  split
  · rfl
  · rfl

theorem part_eq_ok {α : Type} {offsets : Array Nat} {xs : Array α} {i start stop : Nat}
    (hbounds : bounds offsets i = .ok (start, stop)) (hle : start ≤ stop) (hsize : stop ≤ xs.size) :
    part offsets xs i = .ok (xs.extract start stop) := by
  rw [part, hbounds]
  exact if_pos ⟨hle, hsize⟩

theorem part_eq_error {α : Type} {offsets : Array Nat} {xs : Array α} {i : Nat}
    (h : offsets.size ≤ i + 1) : part offsets xs i = .error .outOfRange := by
  rw [part, bounds_eq_error h]
  rfl

end SnapGraph
