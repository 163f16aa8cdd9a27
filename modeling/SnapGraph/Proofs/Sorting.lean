import Mathlib
import SnapGraph.Edge

/-! Sorting by a key. The sort is stable: items whose keys compare both ways keep their order, so
the items picked out by a class of such keys are the same before and after. Two lists with the same
number of items agree as multisets as soon as one has no item more often than the other. -/

namespace SnapGraph

instance : IsTrans Edge (· ≤ ·) := ⟨fun _ _ _ => Edge.le_trans⟩

instance : Std.Total (α := Edge) (· ≤ ·) := ⟨Edge.le_total⟩

instance : Std.Antisymm (α := Edge) (· ≤ ·) := ⟨fun _ _ => Edge.le_antisymm⟩

section Key

variable {α β : Type} (r : β → β → Prop) [DecidableRel r] [IsTrans β r] [Std.Total r] (key : α → β)

omit [Std.Total r] in
theorem keyLe_trans (a b c : α) (hab : decide (r (key a) (key b)) = true)
    (hbc : decide (r (key b) (key c)) = true) : decide (r (key a) (key c)) = true := by
  rw [decide_eq_true_eq] at *
  exact IsTrans.trans _ _ _ hab hbc

omit [IsTrans β r] in
theorem keyLe_total (a b : α) :
    (decide (r (key a) (key b)) || decide (r (key b) (key a))) = true := by
  rw [Bool.or_eq_true, decide_eq_true_eq, decide_eq_true_eq]
  exact Std.Total.total (r := r) _ _

theorem pairwise_sortBy (l : List α) :
    (l.mergeSort fun a b => decide (r (key a) (key b))).Pairwise fun a b => r (key a) (key b) := by
  have h := List.pairwise_mergeSort (keyLe_trans r key) (keyLe_total r key) l
  exact h.imp fun hab => of_decide_eq_true hab

/-- Items that compare both ways keep their order. -/
theorem filter_sortBy (p : α → Bool) (hp : ∀ a b, p a → p b → r (key a) (key b)) (l : List α) :
    (l.mergeSort fun a b => decide (r (key a) (key b))).filter p = l.filter p := by
  have hsorted : (l.filter p).Pairwise fun a b => decide (r (key a) (key b)) = true := by
    refine List.pairwise_filter.2 (List.pairwise_of_forall fun a b ha hb => ?_)
    exact decide_eq_true (hp a b ha hb)
  have hsub := List.sublist_mergeSort (keyLe_trans r key) (keyLe_total r key) hsorted
    List.filter_sublist
  have hsub := hsub.filter p
  rw [List.filter_filter] at hsub
  simp only [Bool.and_self] at hsub
  refine (hsub.eq_of_length ?_).symm
  exact ((List.mergeSort_perm l _).filter p).length_eq.symm

/-- Items with equal keys stand in the order they had. -/
theorem pairwise_sortBy_stable [DecidableEq β] {s : α → α → Prop} {l : List α} (hl : l.Pairwise s) :
    (l.mergeSort fun a b => decide (r (key a) (key b))).Pairwise fun a b =>
      r (key a) (key b) ∧ (key a = key b → s a b) := by
  refine (pairwise_sortBy r key l).and (List.pairwise_of_forall_sublist ?_)
  intro a b hab hkey
  have hrefl : ∀ c, r c c := fun c => (Std.Total.total (r := r) c c).elim id id
  have hsub := hab.filter fun c => key c == key b
  have hboth : [a, b].filter (fun c => key c == key b) = [a, b] := by
    simp [hkey]
  rw [hboth, filter_sortBy r key] at hsub
  · exact (hl.sublist List.filter_sublist).forall_sublist hsub
  · intro c d hc hd
    rw [beq_iff_eq] at hc hd
    rw [hc, hd]
    exact hrefl _

end Key

theorem pairwise_zipIdx {α : Type} (l : List α) (i : Nat) :
    (l.zipIdx i).Pairwise fun x y => x.2 < y.2 := by
  apply List.pairwise_map.1
  rw [List.zipIdx_map_snd]
  exact List.pairwise_lt_range' _

/-- Sorted by keys that are all different, items stand in one order only. -/
theorem eq_of_perm_of_pairwise_lt {α : Type} {key : α → Int} {l l' : List α} (hperm : l.Perm l')
    (hl : l.Pairwise fun a b => key a ≤ key b) (hl' : l'.Pairwise fun a b => key a < key b) :
    l = l' := by
  have hnodup : (l'.map key).Nodup := List.pairwise_map.2 (hl'.imp fun hab => hab.ne)
  refine hperm.eq_of_pairwise (fun a b ha hb hab hba => ?_) hl (hl'.imp fun hab => hab.le)
  exact List.inj_on_of_nodup_map hnodup (hperm.mem_iff.1 ha) hb (le_antisymm hab hba)

/-- Two lists of one length agree as multisets if no item occurs more often in the first. -/
theorem perm_of_count_le {α : Type} [DecidableEq α] {l l' : List α} (hlen : l.length = l'.length)
    (hcount : ∀ a, l.count a ≤ l'.count a) : l.Perm l' := by
  have hle : (l : Multiset α) ≤ l' := Multiset.le_iff_count.2 fun a => by simpa using hcount a
  exact Multiset.coe_eq_coe.1 (Multiset.eq_of_le_of_card_le hle (by simp [hlen]))

end SnapGraph
