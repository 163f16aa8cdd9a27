import SnapGraph.Fault

/-!
Sorting by a comparison that need not be an order. If it orders the items, the result is in order. If
some of its answers contradict each other, the sort may leave the items in any order, and it may also
give up.

What else a sort does is its own affair, so the routing of edges takes one as a parameter and relies
on the laws below alone.
-/

namespace SnapGraph

/-- The comparison orders the items: swapping two of them swaps the answer, and an item that does not
come after a second one does not come after what the second one does not come after. -/
structure OrdersItems {α : Type} (cmp : α → α → Ordering) (l : List α) : Prop where
  swap : ∀ a ∈ l, ∀ b ∈ l, cmp b a = (cmp a b).swap
  trans : ∀ a ∈ l, ∀ b ∈ l, ∀ c ∈ l, cmp a b ≠ .gt → cmp b c ≠ .gt → cmp a c ≠ .gt

theorem OrdersItems.subset {α : Type} {cmp : α → α → Ordering} {l l' : List α}
    (h : OrdersItems cmp l) (hsub : ∀ a ∈ l', a ∈ l) : OrdersItems cmp l' where
  swap a ha b hb := h.swap a (hsub a ha) b (hsub b hb)
  trans a ha b hb c hc := h.trans a (hsub a ha) b (hsub b hb) c (hsub c hc)

/-- Of two items that are ordered, one does not come after the other. -/
theorem OrdersItems.total {α : Type} {cmp : α → α → Ordering} {l : List α} (h : OrdersItems cmp l)
    {a b : α} (ha : a ∈ l) (hb : b ∈ l) : cmp a b ≠ .gt ∨ cmp b a ≠ .gt := by
  rw [h.swap a ha b hb]
  cases cmp a b with
  | lt => exact .inl nofun
  | eq => exact .inl nofun
  | gt => exact .inr nofun

/-- Three items that each come after the one before, all around. -/
structure IsCircle {α : Type} (cmp : α → α → Ordering) (a b c : α) : Prop where
  distinct : [a, b, c].Nodup
  second : cmp b a = .gt
  third : cmp c b = .gt
  first : cmp a c = .gt

/-- A sort by an order of the members of the list alone. -/
theorem pairwise_mergeSort_of_mem {α : Type} {le : α → α → Bool} {l : List α}
    (htrans : ∀ a ∈ l, ∀ b ∈ l, ∀ c ∈ l, le a b = true → le b c = true → le a c = true)
    (htotal : ∀ a ∈ l, ∀ b ∈ l, le a b = true ∨ le b a = true) :
    (l.mergeSort le).Pairwise fun a b => le a b = true := by
  let leMem : { a // a ∈ l } → { a // a ∈ l } → Bool := fun a b => le a.1 b.1
  have hsorted : (l.attach.mergeSort leMem).Pairwise fun a b => leMem a b = true := by
    refine List.pairwise_mergeSort (fun a b c => ?_) (fun a b => ?_) _
    · exact htrans a.1 a.2 b.1 b.2 c.1 c.2
    · exact Bool.or_eq_true_iff.2 (htotal a.1 a.2 b.1 b.2)
  have hmap : (l.attach.mergeSort leMem).map Subtype.val = l.mergeSort le := by
    rw [List.map_mergeSort (s := le) fun _ _ _ _ => rfl, List.attach_map_subtype_val]
  rw [← hmap]
  exact List.pairwise_map.2 hsorted

/-- A sort that looks at its items only by comparing them. -/
structure ComparisonSort (α : Type) where
  sort : (α → α → Ordering) → List α → Except Fault (List α)
  /-- It only moves the items. -/
  perm : ∀ {cmp l l'}, sort cmp l = .ok l' → l'.Perm l
  /-- Items that the comparison orders are put in order. -/
  ordered : ∀ {cmp l}, OrdersItems cmp l →
    ∃ l', sort cmp l = .ok l' ∧ l'.Pairwise fun a b => cmp a b ≠ .gt
  /-- It fails only over contradictory answers. -/
  fault : ∀ {cmp l f}, sort cmp l = .error f → f = .inconsistentOrder
  /-- Items that compare alike are moved alike. -/
  map : ∀ {cmp cmp' l} {f : α → α}, (∀ a ∈ l, ∀ b ∈ l, cmp' (f a) (f b) = cmp a b) →
    sort cmp' (l.map f) = (sort cmp l).map (List.map f)

namespace ComparisonSort

variable {α : Type} {cmp cmp' : α → α → Ordering}

/-! ### Insertion -/

/-- Puts an item after all that it does not come before. The items stand in reverse, and the search
begins with the latest one. -/
def insertFromEnd (cmp : α → α → Ordering) (x : α) : List α → List α
  | [] => [x]
  | a :: sorted => if cmp x a = .lt then a :: insertFromEnd cmp x sorted else x :: a :: sorted

/-- The items in reverse order, inserted after those that are there. -/
def insertAll (cmp : α → α → Ordering) : List α → List α → List α
  | sorted, [] => sorted
  | sorted, x :: l => insertAll cmp (insertFromEnd cmp x sorted) l

theorem insertFromEnd_perm (x : α) (sorted : List α) :
    (insertFromEnd cmp x sorted).Perm (x :: sorted) := by
  fun_induction insertFromEnd cmp x sorted with
  | case1 => exact .refl _
  | case2 a sorted _ ih => exact (ih.cons a).trans (.swap x a sorted)
  | case3 => exact .refl _

theorem insertAll_perm (sorted l : List α) : (insertAll cmp sorted l).Perm (sorted ++ l) := by
  fun_induction insertAll cmp sorted l with
  | case1 sorted => rw [List.append_nil]
  | case2 sorted x l ih =>
      exact ih.trans (((insertFromEnd_perm x sorted).append_right l).trans List.perm_middle.symm)

theorem pairwise_insertFromEnd {x : α} {sorted : List α} (h : OrdersItems cmp (x :: sorted))
    (hsorted : sorted.Pairwise fun a b => cmp b a ≠ .gt) :
    (insertFromEnd cmp x sorted).Pairwise fun a b => cmp b a ≠ .gt := by
  fun_induction insertFromEnd cmp x sorted with
  | case1 => exact List.pairwise_singleton _ _
  | case2 a sorted hlt ih =>
      obtain ⟨ha, hsorted⟩ := List.pairwise_cons.1 hsorted
      refine List.pairwise_cons.2 ⟨fun b hb => ?_, ih (h.subset ?_) hsorted⟩
      · rcases List.mem_cons.1 ((insertFromEnd_perm x sorted).mem_iff.1 hb) with rfl | hb
        · rw [hlt]
          nofun
        · exact ha b hb
      · exact fun b hb => (List.Perm.swap a x sorted).mem_iff.2 (List.mem_cons_of_mem a hb)
  | case3 a sorted hge =>
      have hax : cmp a x ≠ .gt := by
        rw [h.swap x List.mem_cons_self a (List.mem_cons_of_mem x List.mem_cons_self)]
        cases hxa : cmp x a with
        | lt => exact absurd hxa hge
        | eq => nofun
        | gt => nofun
      refine List.pairwise_cons.2 ⟨fun b hb => ?_, hsorted⟩
      rcases List.mem_cons.1 hb with rfl | hb'
      · exact hax
      · exact h.trans b (List.mem_cons_of_mem x hb) a (List.mem_cons_of_mem x List.mem_cons_self)
          x List.mem_cons_self ((List.pairwise_cons.1 hsorted).1 b hb') hax

theorem pairwise_insertAll {sorted l : List α} (h : OrdersItems cmp (sorted ++ l))
    (hsorted : sorted.Pairwise fun a b => cmp b a ≠ .gt) :
    (insertAll cmp sorted l).Pairwise fun a b => cmp b a ≠ .gt := by
  fun_induction insertAll cmp sorted l with
  | case1 => exact hsorted
  | case2 sorted x l ih =>
      have hmem : ∀ a ∈ x :: sorted, a ∈ sorted ++ x :: l := by
        intro a ha
        rcases List.mem_cons.1 ha with rfl | ha
        · exact List.mem_append_right _ List.mem_cons_self
        · exact List.mem_append_left _ ha
      refine ih (h.subset fun a ha => ?_) (pairwise_insertFromEnd (h.subset hmem) hsorted)
      rcases List.mem_append.1 ha with ha | ha
      · exact hmem a ((insertFromEnd_perm x sorted).mem_iff.1 ha)
      · exact List.mem_append_right _ (List.mem_cons_of_mem x ha)

theorem map_insertFromEnd {f : α → α} {x : α} {sorted : List α}
    (h : ∀ a ∈ sorted, cmp' (f x) (f a) = cmp x a) :
    insertFromEnd cmp' (f x) (sorted.map f) = (insertFromEnd cmp x sorted).map f := by
  induction sorted with
  | nil => rfl
  | cons a sorted ih =>
      have ih := ih fun b hb => h b (List.mem_cons_of_mem a hb)
      rw [List.map_cons, insertFromEnd, insertFromEnd, h a List.mem_cons_self, ih]
      split
      · rfl
      · rfl

theorem map_insertAll {f : α → α} {sorted l : List α}
    (h : ∀ a ∈ sorted ++ l, ∀ b ∈ sorted ++ l, cmp' (f a) (f b) = cmp a b) :
    insertAll cmp' (sorted.map f) (l.map f) = (insertAll cmp sorted l).map f := by
  induction l generalizing sorted with
  | nil => rfl
  | cons x l ih =>
      have hmem : ∀ a ∈ insertFromEnd cmp x sorted ++ l, a ∈ sorted ++ x :: l := fun a ha =>
        (((insertFromEnd_perm x sorted).append_right l).trans List.perm_middle.symm).mem_iff.1 ha
      rw [List.map_cons, insertAll, insertAll, map_insertFromEnd fun a ha => ?_]
      · exact ih fun a ha b hb => h a (hmem a ha) b (hmem b hb)
      · exact h x (List.mem_append_right _ List.mem_cons_self) a (List.mem_append_left _ ha)

/-! ### Merging -/

/-- The items, if they are in order. -/
def checkOrder (cmp : α → α → Ordering) (l : List α) : Except Fault (List α) :=
  if l.Pairwise fun a b => cmp a b ≠ .gt then .ok l else .error .inconsistentOrder

/-- Merges sorted runs, and gives up if the result is not in order. -/
def mergeRuns (cmp : α → α → Ordering) (l : List α) : Except Fault (List α) :=
  checkOrder cmp (l.mergeSort fun a b => cmp a b != .gt)

theorem pairwise_mergeSort {l : List α} (h : OrdersItems cmp l) :
    (l.mergeSort fun a b => cmp a b != .gt).Pairwise fun a b => cmp a b ≠ .gt := by
  have hsorted : (l.mergeSort fun a b => cmp a b != .gt).Pairwise fun a b =>
      (cmp a b != .gt) = true := by
    refine pairwise_mergeSort_of_mem (fun a ha b hb c hc hab hbc => ?_) fun a ha b hb => ?_
    · rw [bne_iff_ne] at hab hbc ⊢
      exact h.trans a ha b hb c hc hab hbc
    · rw [bne_iff_ne, bne_iff_ne]
      exact h.total ha hb
  exact hsorted.imp fun hab => bne_iff_ne.1 hab

theorem map_mergeRuns {f : α → α} {l : List α}
    (h : ∀ a ∈ l, ∀ b ∈ l, cmp' (f a) (f b) = cmp a b) :
    mergeRuns cmp' (l.map f) = (mergeRuns cmp l).map (List.map f) := by
  have hmap : (l.map f).mergeSort (fun a b => cmp' a b != .gt) =
      (l.mergeSort fun a b => cmp a b != .gt).map f := by
    refine (List.map_mergeSort fun a ha b hb => ?_).symm
    rw [h a ha b hb]
  have hiff : ((l.mergeSort fun a b => cmp a b != .gt).map f).Pairwise (cmp' · · ≠ .gt) ↔
      (l.mergeSort fun a b => cmp a b != .gt).Pairwise (cmp · · ≠ .gt) := by
    rw [List.pairwise_map]
    refine List.Pairwise.iff_of_mem fun {a b} ha hb => ?_
    rw [h a (List.mem_mergeSort.1 ha) b (List.mem_mergeSort.1 hb)]
  simp only [mergeRuns, checkOrder, hmap, hiff]
  split
  · rfl
  · rfl

/-! ### The standard sort -/

/-- Short lists are sorted by insertion, which never gives up. -/
def standardSort (cmp : α → α → Ordering) (l : List α) : Except Fault (List α) :=
  if l.length ≤ 20 then .ok (insertAll cmp [] l).reverse else mergeRuns cmp l

/-- The sort that runs. Given contradictory answers on a long list, it gives up unless what the merges
leave happens to be in order. -/
def standard : ComparisonSort α where
  sort := standardSort
  perm {cmp l l'} h := by
    unfold standardSort at h
    split at h
    · cases h
      exact (List.reverse_perm _).trans (insertAll_perm [] l)
    · unfold mergeRuns checkOrder at h
      split at h
      · cases h
        exact List.mergeSort_perm _ _
      · cases h
  ordered {cmp l} h := by
    unfold standardSort
    split
    · exact ⟨_, rfl, List.pairwise_reverse.2 (pairwise_insertAll h .nil)⟩
    · exact ⟨_, if_pos (pairwise_mergeSort h), pairwise_mergeSort h⟩
  fault {cmp l f} h := by
    unfold standardSort at h
    split at h
    · cases h
    · unfold mergeRuns checkOrder at h
      split at h
      · cases h
      · cases h
        rfl
  map {cmp cmp' l f} h := by
    unfold standardSort
    rw [List.length_map]
    split
    · have hmap : insertAll cmp' ([].map f) (l.map f) = (insertAll cmp [] l).map f :=
        map_insertAll h
      rw [List.map_nil] at hmap
      rw [hmap, ← List.map_reverse]
      rfl
    · exact map_mergeRuns h

/-! ### Circles -/

variable {l : List α} {a b c : α}

/-- Items in a circle are in order in no list. -/
theorem checkOrder_of_isCircle (h : IsCircle cmp a b c) (ha : a ∈ l) (hb : b ∈ l) (hc : c ∈ l) :
    checkOrder cmp l = .error .inconsistentOrder := by
  refine if_neg fun hordered => ?_
  have hbefore : ∀ (i j : Nat) (x y : α), l[i]? = some x → l[j]? = some y → x ≠ y →
      cmp y x = .gt → i < j := by
    intro i j x y hi hj hne hafter
    obtain ⟨hi', rfl⟩ := List.getElem?_eq_some_iff.1 hi
    obtain ⟨hj', rfl⟩ := List.getElem?_eq_some_iff.1 hj
    refine Nat.lt_of_not_le fun hle => ?_
    rcases Nat.lt_or_eq_of_le hle with hlt | rfl
    · exact List.pairwise_iff_getElem.1 hordered j i hj' hi' hlt hafter
    · exact hne rfl
  have hdistinct := h.distinct
  simp only [List.nodup_cons, List.mem_cons, List.not_mem_nil, or_false, not_or] at hdistinct
  obtain ⟨⟨hab, hac⟩, hbc, -⟩ := hdistinct
  obtain ⟨i, hi⟩ := List.mem_iff_getElem?.1 ha
  obtain ⟨j, hj⟩ := List.mem_iff_getElem?.1 hb
  obtain ⟨k, hk⟩ := List.mem_iff_getElem?.1 hc
  have hij := hbefore i j a b hi hj hab h.second
  have hjk := hbefore j k b c hj hk hbc h.third
  have hki := hbefore k i c a hk hi (Ne.symm hac) h.first
  omega

/-- The standard sort gives up on items in a circle, in a list too long for insertion. -/
theorem standard_of_isCircle (h : IsCircle cmp a b c) (ha : a ∈ l) (hb : b ∈ l) (hc : c ∈ l)
    (hlong : 20 < l.length) : standard.sort cmp l = .error .inconsistentOrder := by
  show standardSort cmp l = _
  rw [standardSort, if_neg (by omega)]
  exact checkOrder_of_isCircle h (List.mem_mergeSort.2 ha) (List.mem_mergeSort.2 hb)
    (List.mem_mergeSort.2 hc)

end ComparisonSort

end SnapGraph
