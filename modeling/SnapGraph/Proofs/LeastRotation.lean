import Mathlib
import SnapGraph.Proofs.Rotation

/-! The search for the least rotation of a list over a total order. Every comparison moves a start or
the place of the comparison on, so the search ends after at most three comparisons for each item; and
the starts that no other one precedes are the offsets of the lexicographically least rotations, so what
it finds is the smallest of these. -/

namespace SnapGraph

/-! ### The course of the search -/

section Course

variable {α : Type} [Ord α]

/-- The course of the search in `s` for two starts that agree up to a place: after so many
comparisons it answers. -/
inductive Searches (s : Array α) : (i j k comparisons answer : Nat) → Prop
  | stop {i j k : Nat} : ¬(i < s.size ∧ j < s.size ∧ k < s.size) → Searches s i j k 0 (min i j)
  | equal {i j k n r : Nat} {a b : α} : i < s.size ∧ j < s.size ∧ k < s.size →
      s[(i + k) % s.size]? = some a → s[(j + k) % s.size]? = some b → compare a b = .eq →
      Searches s i j (k + 1) n r → Searches s i j k (n + 1) r
  | greater {i j k i' j' n r : Nat} {a b : α} : i < s.size ∧ j < s.size ∧ k < s.size →
      s[(i + k) % s.size]? = some a → s[(j + k) % s.size]? = some b → compare a b = .gt →
      i' = i + k + 1 → j' = (if i' = j then j + 1 else j) →
      Searches s i' j' 0 n r → Searches s i j k (n + 1) r
  | less {i j k j' n r : Nat} {a b : α} : i < s.size ∧ j < s.size ∧ k < s.size →
      s[(i + k) % s.size]? = some a → s[(j + k) % s.size]? = some b → compare a b = .lt →
      j' = (if i = j + k + 1 then j + k + 2 else j + k + 1) →
      Searches s i j' 0 n r → Searches s i j k (n + 1) r

/-- The sum of both starts and the place grows with every comparison, and is bounded where one
is made. -/
theorem exists_searches (s : Array α) (i j k : Nat) :
    ∃ n ≤ 3 * s.size - (i + j + k), Searches s i j k n (leastRotation.search s i j k) := by
  fun_induction leastRotation.search s i j k with
  | case1 i j k hin hpos hi hj heq ih =>
      obtain ⟨n, hn, hsearch⟩ := ih
      refine ⟨n + 1, by omega, ?_⟩
      exact .equal hin (Array.getElem?_eq_getElem hi) (Array.getElem?_eq_getElem hj) heq hsearch
  | case2 i j k hin hpos hi hj hgt i' ih =>
      obtain ⟨n, hn, hsearch⟩ := ih
      have hi' : i' = i + k + 1 := rfl
      have hbound : n + 1 ≤ 3 * s.size - (i + j + k) := by
        split at hn
        · omega
        · omega
      refine ⟨n + 1, hbound, ?_⟩
      exact .greater hin (Array.getElem?_eq_getElem hi) (Array.getElem?_eq_getElem hj) hgt hi' rfl
        hsearch
  | case3 i j k hin hpos hi hj hlt j' ih =>
      obtain ⟨n, hn, hsearch⟩ := ih
      have hj' : j' = j + k + 1 := rfl
      have hbound : n + 1 ≤ 3 * s.size - (i + j + k) := by
        split at hn
        · omega
        · omega
      refine ⟨n + 1, hbound, ?_⟩
      exact .less hin (Array.getElem?_eq_getElem hi) (Array.getElem?_eq_getElem hj) hlt rfl hsearch
  | case4 i j k hend => exact ⟨0, Nat.zero_le _, .stop hend⟩

end Course

/-! ### Rotations in order -/

theorem getElem_rotate_eq_repeating {α : Type} {l : List α} (hl : l ≠ []) {i k : Nat}
    (hk : k < (l.rotate i).length) : (l.rotate i)[k] = repeating l hl (i + k) := by
  rw [List.getElem_rotate]
  simp only [repeating, List.get_eq_getElem, Nat.add_comm i k]

section Order

variable {α : Type} [LinearOrder α]

/-- Rotations compare as the starts of the sequence that repeats the list. -/
theorem rotate_lt_rotate_iff {l : List α} (hl : l ≠ []) {i j : Nat} :
    l.rotate i < l.rotate j ↔ StartsBefore (repeating l hl) i j := by
  have hpos : 0 < l.length := List.length_pos_iff.2 hl
  rw [List.lt_iff_exists]
  constructor
  · rintro (⟨-, hlen⟩ | ⟨k, hi, hj, hagree, hlt⟩)
    · simp only [List.length_rotate, Nat.lt_irrefl] at hlen
    · refine ⟨k, fun m hm => ?_, ?_⟩
      · have hsame := hagree m hm
        rwa [getElem_rotate_eq_repeating hl, getElem_rotate_eq_repeating hl] at hsame
      · rw [getElem_rotate_eq_repeating hl, getElem_rotate_eq_repeating hl] at hlt
        exact compare_lt_iff_lt.2 hlt
  · rintro ⟨k, hagree, hlt⟩
    have hlt := compare_lt_iff_lt.1 hlt
    -- Starts that agree for a whole period never differ.
    have hk : k < l.length := by
      by_contra hk
      have hmod : ∀ m, repeating l hl (m % l.length) = repeating l hl m := fun m => by
        simp only [repeating, Nat.mod_mod]
      have hsame := eq_of_agree hmod hpos (Nat.le_of_not_lt hk) hagree k
      exact lt_irrefl _ (hsame ▸ hlt)
    have hki : k < (l.rotate i).length := by rwa [List.length_rotate]
    have hkj : k < (l.rotate j).length := by rwa [List.length_rotate]
    refine .inr ⟨k, hki, hkj, fun m hm => ?_, ?_⟩
    · rw [getElem_rotate_eq_repeating hl, getElem_rotate_eq_repeating hl]
      exact hagree m hm
    · rw [getElem_rotate_eq_repeating hl, getElem_rotate_eq_repeating hl]
      exact hlt

/-- The starts that no other one precedes are the offsets of the least rotations. -/
theorem isLeastStart_iff {l : List α} (hl : l ≠ []) {r : Nat} :
    IsLeastStart (repeating l hl) r ↔ ∀ s, l.rotate r ≤ l.rotate s := by
  apply forall_congr'
  intro s
  rw [← rotate_lt_rotate_iff hl, not_lt]

/-- The search ends after a number of comparisons that is linear in the length of the list, with the
smallest offset whose rotation is lexicographically least. -/
theorem leastRotation_isLeast (l : List α) :
    (∃ n ≤ 3 * l.length, Searches l.toArray 0 1 0 n (leastRotation l)) ∧
      IsLeast {r | ∀ s, l.rotate r ≤ l.rotate s} (leastRotation l) := by
  constructor
  · obtain ⟨n, hn, hsearch⟩ := exists_searches l.toArray 0 1 0
    exact ⟨n, hn.trans (Nat.sub_le _ _), hsearch⟩
  by_cases hl : l = []
  · subst hl
    have hzero : leastRotation ([] : List α) = 0 := by
      rw [leastRotation, leastRotation.search, dif_neg (by simp)]
      rfl
    rw [hzero]
    exact ⟨fun s => by simp, fun r _ => Nat.zero_le r⟩
  · have hfirst := leastRotation_isFirstLeast hl
    refine ⟨(isLeastStart_iff hl).1 hfirst.least, fun r hr => ?_⟩
    by_contra hlt
    exact hfirst.first r (Nat.lt_of_not_le hlt) ((isLeastStart_iff hl).2 hr)

end Order

end SnapGraph
