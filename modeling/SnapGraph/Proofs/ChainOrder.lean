import Mathlib
import SnapGraph.ChainOrder
import SnapGraph.Proofs.Rotation
import SnapGraph.Proofs.Sorting

/-! Canonical loops and canonical orders. The canonical loop is a rotation, and depends on the cyclic
sequence of ids alone, so it is its own canonical loop. Chains are only reordered, and ascend by the
ids of their first edges. -/

namespace SnapGraph

/-! ### Rotations -/

theorem rotateLeft_eq_rotate {α : Type} (l : List α) (n : Nat) : l.rotateLeft n = l.rotate n := by
  rw [List.rotate_eq_drop_append_take_mod]
  show (if l.length ≤ 1 then l else l.drop (n % l.length) ++ l.take (n % l.length)) = _
  split
  · rename_i hlen
    rcases Nat.le_one_iff_eq_zero_or_eq_one.1 hlen with hlen | hlen
    · rw [List.length_eq_zero_iff.1 hlen, List.drop_nil, List.take_nil, List.append_nil]
    · rw [hlen, Nat.mod_one, List.drop_zero, List.take_zero, List.append_nil]
  · rfl

instance : Std.TransOrd StartMark :=
  inferInstanceAs (Std.TransCmp (compareLex (compareOn StartMark.later) (compareOn StartMark.id)))

instance : Std.LawfulEqOrd StartMark where
  eq_of_compare {a b} h := by
    obtain ⟨hlater, hid⟩ := Ordering.then_eq_eq.1 h
    cases a
    cases b
    rw [StartMark.mk.injEq]
    exact ⟨Std.LawfulEqCmp.compare_eq_iff_eq.1 hlater, Std.LawfulEqCmp.compare_eq_iff_eq.1 hid⟩

/-- A mark depends on the id at its place and the one before it in cyclic order. -/
theorem startMarks_rotate_one (greatest : Int) (ids : List Int) :
    startMarks greatest (ids.rotate 1) = (startMarks greatest ids).rotate 1 := by
  cases ids with
  | nil => rfl
  | cons a ids =>
      have hlast : (a :: ids).dropLast ++ [(a :: ids).getLast (List.cons_ne_nil _ _)] = a :: ids :=
        List.dropLast_append_getLast _
      have hlen : (a :: ids).dropLast.length = ids.length := by
        rw [List.length_dropLast, List.length_cons, Nat.add_sub_cancel]
      generalize (a :: ids).getLast _ = last at hlast
      generalize (a :: ids).dropLast = front at hlast hlen
      have hmarks : startMarks greatest (a :: ids) =
          List.zipWith (fun previous id => ⟨!(previous == greatest && id != greatest), id⟩)
            (last :: (front ++ [last])) (a :: ids) := by
        unfold startMarks
        rw [← hlast, List.getLast?_concat]
        rfl
      rw [hmarks, List.zipWith_cons_cons, List.rotate_cons_succ, List.rotate_zero,
        List.rotate_cons_succ, List.rotate_zero]
      unfold startMarks
      rw [List.getLast?_concat, Option.toList_some, List.singleton_append, ← List.cons_append,
        ← hlast, List.append_assoc, List.zipWith_append hlen]
      have hfront : ∀ f : Int → Int → StartMark,
          List.zipWith f (front ++ [last]) ids = List.zipWith f front ids := by
        intro f
        have happend : List.zipWith f (front ++ [last]) (ids ++ []) =
            List.zipWith f front ids ++ List.zipWith f [last] [] := List.zipWith_append hlen
        rwa [List.append_nil, List.zipWith_nil_right, List.append_nil] at happend
      rw [hfront]
      rfl

theorem startMarks_rotate (greatest : Int) (ids : List Int) (r : Nat) :
    startMarks greatest (ids.rotate r) = (startMarks greatest ids).rotate r := by
  induction r with
  | zero => rw [List.rotate_zero, List.rotate_zero]
  | succ r ih => rw [← List.rotate_rotate, startMarks_rotate_one, ih, List.rotate_rotate]

theorem max?_rotate (ids : List Int) (r : Nat) : (ids.rotate r).max? = ids.max? := by
  ext m
  rw [List.max?_eq_some_iff, List.max?_eq_some_iff]
  simp only [List.mem_rotate]

/-! ### Loops -/

theorem loopStart_rotate (ids : List Int) : loopStart (ids.rotate (loopStart ids)) = 0 := by
  rw [loopStart, max?_rotate]
  split
  · rfl
  · rename_i greatest hmax
    rw [startMarks_rotate]
    have hstart : loopStart ids = leastRotation (startMarks greatest ids) := by
      rw [loopStart, hmax]
    rw [hstart, leastRotation_rotate]

section Key

variable {α : Type} (key : α → Int)

theorem canonicalLoop_eq_rotate (l : List α) :
    canonicalLoop key l = l.rotate (loopStart (l.map key)) := rotateLeft_eq_rotate _ _

theorem canonicalLoop_perm (l : List α) : (canonicalLoop key l).Perm l := by
  rw [canonicalLoop_eq_rotate]
  exact List.rotate_perm _ _

theorem canonicalLoop_isRotated (l : List α) : l.IsRotated (canonicalLoop key l) :=
  ⟨_, (canonicalLoop_eq_rotate key l).symm⟩

/-- The canonical loop stays as it is. -/
theorem canonicalLoop_canonicalLoop (l : List α) :
    canonicalLoop key (canonicalLoop key l) = canonicalLoop key l := by
  rw [canonicalLoop_eq_rotate, canonicalLoop_eq_rotate, List.map_rotate, loopStart_rotate,
    List.rotate_zero]

/-- The canonical loop can be looked up if each edge has an id. -/
theorem canonicalLoop?_eq_ok {ids : Array Int} {l : List Nat} (hl : ∀ e ∈ l, e < ids.size) :
    canonicalLoop? ids (l.map Int.ofNat) =
      .ok ((canonicalLoop (fun e => ids.getD e noInput) l).map Int.ofNat) := by
  rw [canonicalLoop?, mapM_indexOf hl]
  rfl

theorem orderChains_perm (chains : List (List α)) : (orderChains key chains).Perm chains :=
  List.mergeSort_perm _ _

theorem pairwise_orderChains (chains : List (List α)) :
    (orderChains key chains).Pairwise fun c d => chainKey key c ≤ chainKey key d :=
  pairwise_sortBy (· ≤ ·) (chainKey key) chains

end Key

end SnapGraph
