import Mathlib
import SnapGraph.Search

/-! Binary search finds where the elements that satisfy a condition end, if they come first. So it
tells whether an ascending array has a given element. -/

namespace SnapGraph

section Search

variable {α : Type} {xs : Array α} {p q : α → Bool}

/-- The elements that satisfy `p` are the first `n`. -/
structure IsPartitionPoint (xs : Array α) (p : α → Bool) (n : Nat) : Prop where
  le : n ≤ xs.size
  iff : ∀ i (hi : i < xs.size), p xs[i] = true ↔ i < n

/-- Of two conditions the weaker one ends later. -/
theorem IsPartitionPoint.le_of_imp {m n : Nat} (hm : IsPartitionPoint xs p m)
    (hn : IsPartitionPoint xs q n) (hpq : ∀ a, p a = true → q a = true) : m ≤ n := by
  have hmle := hm.le
  by_contra hlt
  have hsize : n < xs.size := by omega
  have hpn := (hm.iff n hsize).2 (by omega)
  exact Nat.lt_irrefl n ((hn.iff n hsize).1 (hpq _ hpn))

theorem IsPartitionPoint.unique {m n : Nat} (hm : IsPartitionPoint xs p m)
    (hn : IsPartitionPoint xs p n) : m = n :=
  Nat.le_antisymm (hm.le_of_imp hn fun _ => id) (hn.le_of_imp hm fun _ => id)

/-- Before `lo` all elements satisfy the condition, and from `hi` on none does. -/
theorem search_spec
    (hp : ∀ i j (hi : i < xs.size) (hj : j < xs.size), i ≤ j → p xs[j] = true → p xs[i] = true)
    {lo hi : Nat} (h : hi ≤ xs.size) (hle : lo ≤ hi)
    (hbelow : ∀ i (hi : i < xs.size), i < lo → p xs[i] = true)
    (habove : ∀ i (hi' : i < xs.size), hi ≤ i → ¬p xs[i] = true) :
    IsPartitionPoint xs p (partitionPoint.search xs p lo hi h) := by
  fun_induction partitionPoint.search xs p lo hi h with
  | case1 lo hi h hlt mid hmid hpmid ih =>
      refine ih (by omega) (fun i hi' hlo => ?_) habove
      exact hp i mid hi' hmid (by omega) hpmid
  | case2 lo hi h hlt mid hmid hpmid ih =>
      refine ih (by omega) hbelow fun i hi' hmi hpi => ?_
      exact hpmid (hp mid i hmid hi' hmi hpi)
  | case3 lo hi h hlt =>
      refine ⟨by omega, fun i hi' => ⟨fun hpi => ?_, hbelow i hi'⟩⟩
      by_contra hlo
      exact habove i hi' (by omega) hpi

theorem partitionPoint_spec
    (hp : ∀ i j (hi : i < xs.size) (hj : j < xs.size), i ≤ j → p xs[j] = true → p xs[i] = true) :
    IsPartitionPoint xs p (partitionPoint xs p) :=
  search_spec hp (Nat.le_refl _) (Nat.zero_le _) (fun _ _ h => absurd h (Nat.not_lt_zero _))
    fun _ hi hsize => absurd hi (Nat.not_lt.2 hsize)

end Search

/-- In an ascending array an element is found where the smaller ones end. -/
theorem getElem?_partitionPoint {xs : Array Int} (hxs : xs.toList.Pairwise (· < ·)) (x : Int) :
    xs[partitionPoint xs (· < x)]? = some x ↔ x ∈ xs := by
  have hlt : ∀ i j (hi : i < xs.size) (hj : j < xs.size), i < j → xs[i] < xs[j] :=
    fun i j hi hj hij => List.pairwise_iff_getElem.1 hxs i j hi hj hij
  have hpoint : IsPartitionPoint xs (· < x) (partitionPoint xs (· < x)) := by
    apply partitionPoint_spec
    intro i j hi hj hij hpj
    rcases hij.eq_or_lt with rfl | hij
    · exact hpj
    · have := hlt i j hi hj hij
      simp only [decide_eq_true_eq] at hpj ⊢
      omega
  obtain ⟨-, hpoint⟩ := hpoint
  simp only [decide_eq_true_eq] at hpoint
  constructor
  · exact Array.mem_of_getElem?
  · intro hx
    obtain ⟨i, hi, rfl⟩ := Array.mem_iff_getElem.1 hx
    -- The elements before `i` are smaller than the one there, which is not smaller than itself.
    have hle : partitionPoint xs (· < xs[i]) ≤ i := by
      by_contra hgt
      exact Int.lt_irrefl _ ((hpoint i hi).2 (by omega))
    have hge : i ≤ partitionPoint xs (· < xs[i]) := by
      by_contra hgt
      have hk : partitionPoint xs (· < xs[i]) < xs.size := by omega
      exact Nat.lt_irrefl _ ((hpoint _ hk).1 (hlt _ i hk hi (by omega)))
    rw [Nat.le_antisymm hle hge]
    exact Array.getElem?_eq_getElem hi

end SnapGraph
