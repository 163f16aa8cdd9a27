import Mathlib
import SnapGraph.Rotation

/-! The search for the least rotation finds it. A list is read as the sequence that repeats it, and
its starts are compared by what follows them. During the search every start below the greater of
the two that are compared is known not to be least, but for these two themselves; when it ends, the
lesser of the two is the first least start. -/

namespace SnapGraph

/-! ### Starts of a sequence -/

section Starts

variable {α : Type} [Ord α] {f : Nat → α} {i j : Nat}

/-- The sequence from `i` on is lexicographically less than the one from `j` on. -/
def StartsBefore (f : Nat → α) (i j : Nat) : Prop :=
  ∃ k, (∀ m < k, f (i + m) = f (j + m)) ∧ compare (f (i + k)) (f (j + k)) = .lt

/-- No start is less. -/
def IsLeastStart (f : Nat → α) (i : Nat) : Prop := ∀ j, ¬StartsBefore f j i

theorem StartsBefore.irrefl [Std.TransOrd α] (i : Nat) : ¬StartsBefore f i i := by
  rintro ⟨k, -, hlt⟩
  rw [Std.ReflOrd.compare_self] at hlt
  cases hlt

theorem StartsBefore.trans [Std.TransOrd α] {h : Nat} (hij : StartsBefore f h i)
    (hjk : StartsBefore f i j) : StartsBefore f h j := by
  obtain ⟨k, hagree, hlt⟩ := hij
  obtain ⟨k', hagree', hlt'⟩ := hjk
  rcases Nat.lt_trichotomy k k' with hk | rfl | hk
  · refine ⟨k, fun m hm => (hagree m hm).trans (hagree' m (hm.trans hk)), ?_⟩
    rwa [← hagree' k hk]
  · exact ⟨k, fun m hm => (hagree m hm).trans (hagree' m hm), Std.TransCmp.lt_trans hlt hlt'⟩
  · refine ⟨k', fun m hm => (hagree m (hm.trans hk)).trans (hagree' m hm), ?_⟩
    rwa [hagree k' hk]

theorem IsLeastStart.of_eq (hi : IsLeastStart f i) (heq : ∀ m, f (i + m) = f (j + m)) :
    IsLeastStart f j := by
  rintro h ⟨k, hagree, hlt⟩
  refine hi h ⟨k, fun m hm => (hagree m hm).trans (heq m).symm, ?_⟩
  rwa [heq k]

/-- If one start exceeds another at the `k`-th place, the starts up to `k` places on are not least. -/
theorem not_isLeastStart_of_lt {k d : Nat} (hagree : ∀ m < k, f (i + m) = f (j + m))
    (hlt : compare (f (i + k)) (f (j + k)) = .lt) (hd : d ≤ k) : ¬IsLeastStart f (j + d) := by
  intro hleast
  refine hleast (i + d) ⟨k - d, fun m hm => ?_, ?_⟩
  · rw [Nat.add_assoc, Nat.add_assoc]
    exact hagree (d + m) (by omega)
  · rw [Nat.add_assoc, Nat.add_assoc, Nat.add_sub_cancel' hd]
    exact hlt

/-- A least start that another one precedes with the same sequence is not the first one. -/
theorem IsLeastStart.exists_lt {r : Nat} (hr : IsLeastStart f r) (hij : i < j) (hjr : j ≤ r)
    (heq : ∀ m, f (i + m) = f (j + m)) : ∃ s < r, IsLeastStart f s := by
  refine ⟨r - (j - i), by omega, hr.of_eq fun m => ?_⟩
  have hsame := heq (r - j + m)
  rw [show i + (r - j + m) = r - (j - i) + m by omega, show j + (r - j + m) = r + m by omega]
    at hsame
  exact hsame.symm

end Starts

/-! ### Repeating sequences -/

section Periodic

variable {α : Type} {f : Nat → α} {n : Nat} (hf : ∀ m, f (m % n) = f m)

include hf

theorem mod_add_eq (i m : Nat) : f (i % n + m) = f (i + m) := by
  rw [← hf (i % n + m), ← hf (i + m), Nat.mod_add_mod]

/-- Starts that agree for a whole period are followed by the same sequence. -/
theorem eq_of_agree {i j k : Nat} (hn : 0 < n) (hk : n ≤ k)
    (hagree : ∀ m < k, f (i + m) = f (j + m)) (m : Nat) : f (i + m) = f (j + m) := by
  have hmod : ∀ i, f (i + m % n) = f (i + m) := fun i => by
    rw [Nat.add_comm, mod_add_eq hf, Nat.add_comm]
  rw [← hmod i, ← hmod j]
  exact hagree _ ((Nat.mod_lt m hn).trans_le hk)

theorem exists_isLeastStart [Ord α] [Std.TransOrd α] (hn : 0 < n) : ∃ r < n, IsLeastStart f r := by
  have : IsTrans (Fin n) fun a b => StartsBefore f a b := ⟨fun _ _ _ => StartsBefore.trans⟩
  have : Std.Irrefl fun a b : Fin n => StartsBefore f a b := ⟨fun a => StartsBefore.irrefl a.1⟩
  obtain ⟨r, -, hr⟩ := (Finite.wellFounded_of_trans_of_irrefl
    fun a b : Fin n => StartsBefore f a b).has_min Set.univ ⟨⟨0, hn⟩, trivial⟩
  refine ⟨r, r.isLt, fun j hj => hr ⟨j % n, Nat.mod_lt j hn⟩ trivial ?_⟩
  obtain ⟨k, hagree, hlt⟩ := hj
  exact ⟨k, fun m hm => (mod_add_eq hf j m).trans (hagree m hm), by rwa [mod_add_eq hf]⟩

end Periodic

/-! ### The search -/

/-- The first least start of a sequence that repeats after `n` places. -/
structure IsFirstLeast {α : Type} [Ord α] (f : Nat → α) (n r : Nat) : Prop where
  lt : r < n
  least : IsLeastStart f r
  first : ∀ s < r, ¬IsLeastStart f s

/-- What is known when two starts are compared that agree for `k` places. -/
structure Searching {α : Type} [Ord α] (f : Nat → α) (i j k : Nat) : Prop where
  ne : i ≠ j
  agree : ∀ m < k, f (i + m) = f (j + m)
  excluded : ∀ r < max i j, r ≠ i → r ≠ j → ¬IsLeastStart f r

section Search

variable {α : Type} [Ord α] {f : Nat → α} {i j k : Nat}

theorem searching_zero : Searching f 0 1 0 := by
  refine ⟨Nat.zero_ne_one, fun m hm => absurd hm (Nat.not_lt_zero m), fun r hr hi hj => ?_⟩
  omega

theorem Searching.symm (h : Searching f i j k) : Searching f j i k :=
  ⟨h.ne.symm, fun m hm => (h.agree m hm).symm, fun r hr hi hj =>
    h.excluded r (by rwa [Nat.max_comm]) hj hi⟩

/-- At equal places the comparison goes on. -/
theorem Searching.next (h : Searching f i j k) (heq : f (i + k) = f (j + k)) :
    Searching f i j (k + 1) := by
  refine ⟨h.ne, fun m hm => ?_, h.excluded⟩
  rcases Nat.lt_succ_iff_lt_or_eq.1 hm with hm | rfl
  · exact h.agree m hm
  · exact heq

/-- The start that exceeds the other moves past the places that are compared. -/
theorem Searching.skip (h : Searching f i j k) (hlt : compare (f (i + k)) (f (j + k)) = .lt)
    {i' j' : Nat} (hstarts : j + k + 1 ≠ i ∧ i' = i ∧ j' = j + k + 1 ∨
      j + k + 1 = i ∧ (i' = i ∧ j' = i + 1 ∨ i' = i + 1 ∧ j' = i)) : Searching f i' j' 0 := by
  have hskip : ∀ r, j ≤ r → r ≤ j + k → ¬IsLeastStart f r := by
    intro r hjr hrk
    have := not_isLeastStart_of_lt h.agree hlt (d := r - j) (by omega)
    rwa [Nat.add_sub_cancel' hjr] at this
  have hout : ∀ r < max i (j + k + 1), r ≠ i → ¬IsLeastStart f r := by
    intro r hr hi
    by_cases hj : j ≤ r ∧ r ≤ j + k
    · exact hskip r hj.1 hj.2
    · exact h.excluded r (by omega) hi (by omega)
  refine ⟨by omega, fun m hm => absurd hm (Nat.not_lt_zero m), fun r hr hi hj => ?_⟩
  exact hout r (by omega) (by omega)

/-- When two starts agree for a whole period, or one of them is beyond it, the lesser one is the
first least start. -/
theorem Searching.isFirstLeast [Std.TransOrd α] {n : Nat} (h : Searching f i j k) (hn : 0 < n)
    (hf : ∀ m, f (m % n) = f m) (hend : ¬(i < n ∧ j < n ∧ k < n)) :
    IsFirstLeast f n (min i j) := by
  classical
  have hexists := exists_isLeastStart hf hn
  have hleast : ∃ r, IsLeastStart f r := hexists.imp fun r hr => hr.2
  have hr : IsLeastStart f (Nat.find hleast) := Nat.find_spec hleast
  have hfirst : ∀ s < Nat.find hleast, ¬IsLeastStart f s := fun s hs => Nat.find_min hleast hs
  have hlt : Nat.find hleast < n := by
    obtain ⟨r, hrn, hr⟩ := hexists
    exact (Nat.find_min' hleast hr).trans_lt hrn
  suffices hmin : min i j = Nat.find hleast by
    rw [hmin]
    exact ⟨hlt, hr, hfirst⟩
  generalize Nat.find hleast = r at hr hfirst hlt
  have hstart : r < max i j → r = i ∨ r = j := by
    intro hr'
    by_contra hne
    rw [not_or] at hne
    exact h.excluded r hr' hne.1 hne.2 hr
  by_cases hout : n ≤ max i j
  · have := hstart (hlt.trans_le hout)
    omega
  · have hsame : ∀ m, f (i + m) = f (j + m) := eq_of_agree hf hn (by omega) h.agree
    have hne := h.ne
    have hbelow : r < max i j := by
      by_contra hr'
      obtain ⟨s, hs, hleast⟩ : ∃ s < r, IsLeastStart f s := by
        rcases Nat.lt_or_gt_of_ne hne with hij | hji
        · exact hr.exists_lt hij (by omega) hsame
        · exact hr.exists_lt hji (by omega) fun m => (hsame m).symm
      exact hfirst s hs hleast
    rcases hstart hbelow with rfl | rfl
    · have := fun hj : j < r => hfirst j hj (hr.of_eq hsame)
      omega
    · have := fun hi : i < r => hfirst i hi (hr.of_eq fun m => (hsame m).symm)
      omega

theorem search_isFirstLeast [Std.TransOrd α] [Std.LawfulEqOrd α] {s : Array α} (hn : 0 < s.size)
    (hs : ∀ m (h : m % s.size < s.size), s[m % s.size] = f m) (h : Searching f i j k) :
    IsFirstLeast f s.size (leastRotation.search s i j k) := by
  have hf : ∀ m, f (m % s.size) = f m := by
    intro m
    rw [← hs m (Nat.mod_lt m hn), ← hs (m % s.size) (Nat.mod_lt _ hn)]
    simp only [Nat.mod_mod]
  fun_induction leastRotation.search s i j k with
  | case1 i j k hlt hpos hi hj heq ih =>
      rw [hs _ hi, hs _ hj] at heq
      exact ih (h.next (Std.LawfulEqCmp.compare_eq_iff_eq.1 heq))
  | case2 i j k hlt hpos hi hj hgt i' ih =>
      rw [hs _ hi, hs _ hj] at hgt
      refine ih (h.symm.skip (Std.OrientedCmp.gt_iff_lt.1 hgt) ?_).symm
      have hi' : i' = i + k + 1 := rfl
      split
      · omega
      · omega
  | case3 i j k hlt hpos hi hj hlt' j' ih =>
      rw [hs _ hi, hs _ hj] at hlt'
      refine ih (h.skip hlt' ?_)
      have hj' : j' = j + k + 1 := rfl
      split
      · omega
      · omega
  | case4 i j k hend => exact h.isFirstLeast hn hf hend

end Search

/-! ### The least rotation of a list -/

/-- The sequence that repeats a list. -/
def repeating {α : Type} (l : List α) (hl : l ≠ []) (m : Nat) : α :=
  l.get ⟨m % l.length, Nat.mod_lt m (List.length_pos_iff.2 hl)⟩

theorem repeating_rotate {α : Type} {l : List α} (hl : l ≠ []) {r : Nat} (hr : l.rotate r ≠ [])
    (m : Nat) : repeating (l.rotate r) hr m = repeating l hl (r + m) := by
  simp only [repeating, List.get_eq_getElem, List.getElem_rotate, List.length_rotate,
    Nat.mod_add_mod, Nat.add_comm r m]

variable {α : Type} [Ord α] [Std.TransOrd α] [Std.LawfulEqOrd α]

theorem leastRotation_isFirstLeast {l : List α} (hl : l ≠ []) :
    IsFirstLeast (repeating l hl) l.length (leastRotation l) := by
  refine search_isFirstLeast (by simpa [List.length_pos_iff] using hl) (fun m h => ?_) searching_zero
  rfl

/-- Nothing is left to rotate in the least rotation. -/
theorem leastRotation_rotate (l : List α) : leastRotation (l.rotate (leastRotation l)) = 0 := by
  by_cases hl : l = []
  · subst hl
    rw [List.rotate_nil, leastRotation, leastRotation.search, dif_neg (by simp)]
    rfl
  · have hr : l.rotate (leastRotation l) ≠ [] := by simpa using hl
    have hfirst := leastRotation_isFirstLeast hl
    by_contra hpos
    refine (leastRotation_isFirstLeast hr).first 0 (Nat.pos_of_ne_zero hpos) fun i hi => ?_
    obtain ⟨k, hagree, hlt⟩ := hi
    simp only [repeating_rotate hl hr, Nat.zero_add, ← Nat.add_assoc] at hagree hlt
    exact hfirst.least _ ⟨k, hagree, hlt⟩

end SnapGraph
