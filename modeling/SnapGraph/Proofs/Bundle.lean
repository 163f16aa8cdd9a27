import Mathlib
import SnapGraph.Bundle
import SnapGraph.Proofs.Sorting

/-! Merging loses nothing and repeats nothing. Whatever class of edges one looks at, the copies in
the bundles of the class are the copies in the list, in their order. If the lists are sorted, the
bundles ascend strictly, so each edge has one bundle, which holds all its copies, and each vertex one
star, which holds all bundles that leave it. -/

namespace SnapGraph

namespace Bundle

variable {α : Type}

/-! ### Runs -/

theorem takeWhile_append_afterRun (e : Edge) (l : List (Tagged α)) :
    (l.takeWhile fun t => t.edge == e) ++ afterRun e l = l :=
  List.takeWhile_append_dropWhile

theorem edge_of_mem_takeWhile {e : Edge} {l : List (Tagged α)} {t : Tagged α}
    (ht : t ∈ l.takeWhile fun t => t.edge == e) : t.edge = e := by
  simpa using List.mem_takeWhile_imp ht

/-- The items of a class of edges: those of the run come first, if the class holds its edge. -/
theorem items_eq_run_append (p : Edge → Bool) (e : Edge) (l : List (Tagged α)) :
    (l.filter fun t => p t.edge).map Tagged.item =
      (if p e then run e l else []) ++
        ((afterRun e l).filter fun t => p t.edge).map Tagged.item := by
  have hrun : ((l.takeWhile fun t => t.edge == e).filter fun t => p t.edge).map Tagged.item =
      if p e then run e l else [] := by
    split
    · rename_i hp
      rw [List.filter_eq_self.2 fun t ht => by rw [edge_of_mem_takeWhile ht, hp]]
      rfl
    · rename_i hp
      rw [List.filter_eq_nil_iff.2 fun t ht => by rw [edge_of_mem_takeWhile ht]; exact hp]
      rfl
  rw [← hrun, ← List.map_append, ← List.filter_append, takeWhile_append_afterRun]

/-- In a sorted list, what stands after the run of an edge that no item precedes is greater. -/
theorem lt_of_mem_afterRun {e : Edge} {l : List (Tagged α)} (hl : l.Pairwise (·.edge ≤ ·.edge))
    (he : ∀ t ∈ l, e ≤ t.edge) : ∀ t ∈ afterRun e l, e < t.edge := by
  induction l with
  | nil => simp [afterRun]
  | cons a l ih =>
      intro t ht
      by_cases ha : a.edge = e
      · rw [afterRun, List.dropWhile_cons_of_pos (by simp [ha])] at ht
        exact ih hl.tail (fun t ht => he t (List.mem_cons_of_mem _ ht)) t ht
      · rw [afterRun, List.dropWhile_cons_of_neg (by simp [ha])] at ht
        have hea : e < a.edge := Edge.lt_iff_le_and_ne.2 ⟨he a List.mem_cons_self, Ne.symm ha⟩
        rcases List.mem_cons.1 ht with rfl | ht
        · exact hea
        · have hat : a.edge ≤ t.edge := List.rel_of_pairwise_cons hl ht
          rw [Edge.lt_def, Edge.le_def] at *
          omega

/-! ### The next edge -/

theorem nextEdge?_eq_none_iff {outs ins : List (Tagged α)} :
    nextEdge? outs ins = none ↔ outs = [] ∧ ins = [] := by
  cases outs <;> cases ins <;> simp [nextEdge?]

theorem exists_of_nextEdge? {outs ins : List (Tagged α)} {e : Edge}
    (h : nextEdge? outs ins = some e) : (∃ t ∈ outs, t.edge = e) ∨ ∃ t ∈ ins, t.edge = e := by
  match outs, ins, h with
  | o :: outs, [], h => exact .inl ⟨o, List.mem_cons_self, Option.some.inj h⟩
  | [], i :: ins, h => exact .inr ⟨i, List.mem_cons_self, Option.some.inj h⟩
  | o :: outs, i :: ins, h =>
      have h := Option.some.inj h
      split at h
      · exact .inl ⟨o, List.mem_cons_self, h⟩
      · exact .inr ⟨i, List.mem_cons_self, h⟩

theorem head_le {t : Tagged α} {l : List (Tagged α)} (hl : (t :: l).Pairwise (·.edge ≤ ·.edge))
    {e : Edge} (he : e ≤ t.edge) : ∀ u ∈ t :: l, e ≤ u.edge := by
  intro u hu
  rcases List.mem_cons.1 hu with rfl | hu
  · exact he
  · exact Edge.le_trans he (List.rel_of_pairwise_cons hl hu)

theorem nextEdge?_le {outs ins : List (Tagged α)} {e : Edge}
    (houts : outs.Pairwise (·.edge ≤ ·.edge)) (hins : ins.Pairwise (·.edge ≤ ·.edge))
    (h : nextEdge? outs ins = some e) :
    (∀ t ∈ outs, e ≤ t.edge) ∧ ∀ t ∈ ins, e ≤ t.edge := by
  match outs, ins, h with
  | o :: outs, [], h =>
      cases Option.some.inj h
      exact ⟨head_le houts (Edge.le_refl _), by simp⟩
  | [], i :: ins, h =>
      cases Option.some.inj h
      exact ⟨by simp, head_le hins (Edge.le_refl _)⟩
  | o :: outs, i :: ins, h =>
      have h := Option.some.inj h
      split at h
      · rename_i hle
        subst h
        exact ⟨head_le houts (Edge.le_refl _), head_le hins hle⟩
      · rename_i hle
        subst h
        have hle : i.edge ≤ o.edge := (Edge.le_total _ _).resolve_left hle
        exact ⟨head_le houts hle, head_le hins (Edge.le_refl _)⟩

/-! ### Merging -/

theorem flatMap_forward_merge (p : Edge → Bool) (outs ins : List (Tagged α)) :
    ((merge outs ins).filter fun b => p b.edge).flatMap forward =
      (outs.filter fun t => p t.edge).map Tagged.item := by
  fun_induction merge outs ins with
  | case1 outs ins h => simp [(nextEdge?_eq_none_iff.1 h).1]
  | case2 outs ins e h ih =>
      rw [items_eq_run_append p e outs, ← ih, List.filter_cons]
      split <;> simp

theorem flatMap_backward_merge (p : Edge → Bool) (outs ins : List (Tagged α)) :
    ((merge outs ins).filter fun b => p b.edge).flatMap backward =
      (ins.filter fun t => p t.edge).map Tagged.item := by
  fun_induction merge outs ins with
  | case1 outs ins h => simp [(nextEdge?_eq_none_iff.1 h).2]
  | case2 outs ins e h ih =>
      rw [items_eq_run_append p e ins, ← ih, List.filter_cons]
      split <;> simp

theorem exists_tagged_iff_afterRun {e f : Edge} {l : List (Tagged α)} (hfe : f ≠ e) :
    (∃ t ∈ afterRun e l, t.edge = f) ↔ ∃ t ∈ l, t.edge = f := by
  constructor
  · rintro ⟨t, ht, rfl⟩
    exact ⟨t, (List.dropWhile_sublist _).subset ht, rfl⟩
  · rintro ⟨t, ht, rfl⟩
    rw [← takeWhile_append_afterRun e l] at ht
    rcases List.mem_append.1 ht with ht | ht
    · exact absurd (edge_of_mem_takeWhile ht) hfe
    · exact ⟨t, ht, rfl⟩

/-- An edge has a bundle exactly if it occurs in either list. -/
theorem exists_mem_merge_iff {outs ins : List (Tagged α)} {f : Edge} :
    (∃ b ∈ merge outs ins, b.edge = f) ↔
      (∃ t ∈ outs, t.edge = f) ∨ ∃ t ∈ ins, t.edge = f := by
  fun_induction merge outs ins with
  | case1 outs ins h => simp [nextEdge?_eq_none_iff.1 h]
  | case2 outs ins e h ih =>
      by_cases hfe : f = e
      · subst hfe
        exact iff_of_true ⟨_, List.mem_cons_self, rfl⟩ (exists_of_nextEdge? h)
      · rw [exists_tagged_iff_afterRun hfe, exists_tagged_iff_afterRun hfe] at ih
        simp only [List.mem_cons, exists_eq_or_imp, Ne.symm hfe, false_or]
        exact ih

/-- The bundles of sorted lists ascend strictly. -/
theorem pairwise_merge {outs ins : List (Tagged α)} (houts : outs.Pairwise (·.edge ≤ ·.edge))
    (hins : ins.Pairwise (·.edge ≤ ·.edge)) : (merge outs ins).Pairwise (·.edge < ·.edge) := by
  fun_induction merge outs ins with
  | case1 => exact List.Pairwise.nil
  | case2 outs ins e h ih =>
      obtain ⟨heouts, heins⟩ := nextEdge?_le houts hins h
      refine List.pairwise_cons.2 ⟨fun b hb => ?_, ih (houts.sublist (List.dropWhile_sublist _))
        (hins.sublist (List.dropWhile_sublist _))⟩
      rcases exists_mem_merge_iff.1 ⟨b, hb, rfl⟩ with ⟨t, ht, htb⟩ | ⟨t, ht, htb⟩
      · exact htb ▸ lt_of_mem_afterRun houts heouts t ht
      · exact htb ▸ lt_of_mem_afterRun hins heins t ht

theorem filter_edge_eq_singleton {l : List (Bundle α)} (hl : l.Pairwise (·.edge < ·.edge))
    {b : Bundle α} (hb : b ∈ l) : (l.filter fun c => c.edge == b.edge) = [b] := by
  induction l with
  | nil => simp at hb
  | cons a l ih =>
      have hlt : ∀ c ∈ l, a.edge < c.edge := (List.pairwise_cons.1 hl).1
      rcases List.mem_cons.1 hb with rfl | hb
      · rw [List.filter_cons_of_pos (by simp), List.filter_eq_nil_iff.2]
        intro c hc
        simpa using (Edge.lt_iff_le_and_ne.1 (hlt c hc)).2.symm
      · rw [List.filter_cons_of_neg (by simpa using (Edge.lt_iff_le_and_ne.1 (hlt b hb)).2)]
        exact ih hl.tail hb

/-- A bundle of sorted lists holds every copy of its edge, in order. -/
theorem forward_of_mem_merge {outs ins : List (Tagged α)} (houts : outs.Pairwise (·.edge ≤ ·.edge))
    (hins : ins.Pairwise (·.edge ≤ ·.edge)) {b : Bundle α} (hb : b ∈ merge outs ins) :
    b.forward = (outs.filter fun t => t.edge == b.edge).map Tagged.item := by
  have h := flatMap_forward_merge (· == b.edge) outs ins
  rw [filter_edge_eq_singleton (pairwise_merge houts hins) hb] at h
  simpa using h

theorem backward_of_mem_merge {outs ins : List (Tagged α)} (houts : outs.Pairwise (·.edge ≤ ·.edge))
    (hins : ins.Pairwise (·.edge ≤ ·.edge)) {b : Bundle α} (hb : b ∈ merge outs ins) :
    b.backward = (ins.filter fun t => t.edge == b.edge).map Tagged.item := by
  have h := flatMap_backward_merge (· == b.edge) outs ins
  rw [filter_edge_eq_singleton (pairwise_merge houts hins) hb] at h
  simpa using h

/-! ### The bundles of a multiset -/

theorem pairwise_sortByEdge (l : List (Tagged α)) : (sortByEdge l).Pairwise (·.edge ≤ ·.edge) :=
  pairwise_sortBy (· ≤ ·) Tagged.edge l

theorem filter_sortByEdge (e : Edge) (l : List (Tagged α)) :
    ((sortByEdge l).filter fun t => t.edge == e) = l.filter fun t => t.edge == e := by
  refine filter_sortBy (· ≤ ·) Tagged.edge _ (fun a b ha hb => ?_) l
  rw [beq_iff_eq] at ha hb
  rw [ha, hb]
  exact Edge.le_refl e

theorem mem_sortByEdge {t : Tagged α} {l : List (Tagged α)} : t ∈ sortByEdge l ↔ t ∈ l :=
  List.mem_mergeSort

theorem pairwise_ofTagged (l : List (Tagged α)) : (ofTagged l).Pairwise (·.edge < ·.edge) :=
  pairwise_merge (pairwise_sortByEdge _) (pairwise_sortByEdge _)

theorem forward_of_mem_ofTagged {l : List (Tagged α)} {b : Bundle α} (hb : b ∈ ofTagged l) :
    b.forward = (l.filter fun t => t.edge == b.edge).map Tagged.item := by
  rw [forward_of_mem_merge (pairwise_sortByEdge _) (pairwise_sortByEdge _) hb, filter_sortByEdge]

theorem backward_of_mem_ofTagged {l : List (Tagged α)} {b : Bundle α} (hb : b ∈ ofTagged l) :
    b.backward = (l.filter fun t => t.edge == b.edge.reverse).map Tagged.item := by
  rw [backward_of_mem_merge (pairwise_sortByEdge _) (pairwise_sortByEdge _) hb, filter_sortByEdge,
    reversed, List.filter_map, List.map_map]
  refine congrArg (List.map _) (List.filter_congr fun t _ => ?_)
  rw [Bool.eq_iff_iff]
  simp only [Function.comp_apply, beq_iff_eq]
  rw [← Edge.reverse_inj, Edge.reverse_reverse]

theorem exists_mem_ofTagged_iff {l : List (Tagged α)} {f : Edge} :
    (∃ b ∈ ofTagged l, b.edge = f) ↔ ∃ t ∈ l, t.edge = f ∨ t.edge.reverse = f := by
  rw [ofTagged, exists_mem_merge_iff]
  simp only [mem_sortByEdge, reversed, List.mem_map, exists_exists_and_eq_and]
  constructor
  · rintro (⟨t, ht, h⟩ | ⟨t, ht, h⟩)
    · exact ⟨t, ht, .inl h⟩
    · exact ⟨t, ht, .inr h⟩
  · rintro ⟨t, ht, h | h⟩
    · exact .inl ⟨t, ht, h⟩
    · exact .inr ⟨t, ht, h⟩

/-! ### Rows -/

/-- The copies of a bundle as rows of a table. -/
def rows {α : Type} (b : Bundle α) : List (Tagged α) := b.forward.map (Tagged.mk b.edge)

theorem flatMap_rows_merge {α : Type} (outs ins : List (Tagged α)) :
    (merge outs ins).flatMap rows = outs := by
  fun_induction merge outs ins with
  | case1 outs ins h => simp [(nextEdge?_eq_none_iff.1 h).1]
  | case2 outs ins e h ih =>
      have hrun : (run e outs).map (Tagged.mk e) = outs.takeWhile fun t => t.edge == e := by
        rw [run, List.map_map]
        refine List.map_congr_left (fun t ht => ?_) |>.trans (List.map_id _)
        rw [Function.comp_apply, ← edge_of_mem_takeWhile ht]
        rfl
      rw [List.flatMap_cons, ih, rows, hrun, takeWhile_append_afterRun]

/-- The bundles of a sorted table hold its rows in their order. -/
theorem flatMap_rows_ofTagged {α : Type} {l : List (Tagged α)} (hl : l.Pairwise (·.edge ≤ ·.edge)) :
    (ofTagged l).flatMap rows = l := by
  rw [ofTagged, flatMap_rows_merge, sortByEdge]
  apply List.mergeSort_of_pairwise
  exact hl.imp fun h => decide_eq_true h

end Bundle

/-! ### Stars -/

namespace Star

variable {α : Type}

theorem flatMap_bundles_ofBundles (bs : List (Bundle α)) :
    (ofBundles bs).flatMap bundles = bs := by
  induction bs with
  | nil => rfl
  | cons b bs ih =>
      rw [ofBundles]
      split
      · rename_i h
        rw [h] at ih
        simp [← ih]
      · rename_i s ss h
        rw [h] at ih
        split
        · simpa using ih
        · simpa using ih

/-- A star is not empty, and its bundles leave its center. -/
theorem bundles_of_mem_ofBundles {bs : List (Bundle α)} {s : Star α} (hs : s ∈ ofBundles bs) :
    s.bundles ≠ [] ∧ ∀ b ∈ s.bundles, b.edge.origin = s.center := by
  induction bs generalizing s with
  | nil => simp [ofBundles] at hs
  | cons b bs ih =>
      rw [ofBundles] at hs
      split at hs
      · rw [List.mem_singleton] at hs
        subst hs
        simp
      · rename_i s' ss h
        rw [h] at ih
        have hs' := ih List.mem_cons_self
        split at hs
        · rename_i hc
          rcases List.mem_cons.1 hs with rfl | hs
          · refine ⟨List.cons_ne_nil _ _, fun c hcb => ?_⟩
            rcases List.mem_cons.1 hcb with rfl | hcb
            · exact hc.symm
            · exact hs'.2 c hcb
          · exact ih (List.mem_cons_of_mem _ hs)
        · rcases List.mem_cons.1 hs with rfl | hs
          · simp
          · exact ih hs

theorem center_eq_origin {bs : List (Bundle α)} {s : Star α} (hs : s ∈ ofBundles bs) :
    ∃ b ∈ bs, b.edge.origin = s.center := by
  obtain ⟨hne, horigin⟩ := bundles_of_mem_ofBundles hs
  obtain ⟨b, hb⟩ := List.exists_mem_of_ne_nil _ hne
  refine ⟨b, ?_, horigin b hb⟩
  rw [← flatMap_bundles_ofBundles bs]
  exact List.mem_flatMap.2 ⟨s, hs, hb⟩

/-- A vertex has a star exactly if a bundle leaves it. -/
theorem exists_center_iff {bs : List (Bundle α)} {v : Int} :
    (∃ s ∈ ofBundles bs, s.center = v) ↔ ∃ b ∈ bs, b.edge.origin = v := by
  constructor
  · rintro ⟨s, hs, rfl⟩
    exact center_eq_origin hs
  · rintro ⟨b, hb, rfl⟩
    rw [← flatMap_bundles_ofBundles bs] at hb
    obtain ⟨s, hs, hbs⟩ := List.mem_flatMap.1 hb
    exact ⟨s, hs, ((bundles_of_mem_ofBundles hs).2 b hbs).symm⟩

/-- If the origins of the bundles ascend, so do the centers of the stars, strictly. -/
theorem pairwise_ofBundles {bs : List (Bundle α)}
    (hbs : bs.Pairwise (·.edge.origin ≤ ·.edge.origin)) :
    (ofBundles bs).Pairwise (·.center < ·.center) := by
  induction bs with
  | nil => exact List.Pairwise.nil
  | cons b bs ih =>
      have ih := ih hbs.tail
      have hle : ∀ s ∈ ofBundles bs, b.edge.origin ≤ s.center := by
        intro s hs
        obtain ⟨c, hc, hcs⟩ := center_eq_origin hs
        exact hcs ▸ List.rel_of_pairwise_cons hbs hc
      rw [ofBundles]
      split
      · exact List.pairwise_singleton _ _
      · rename_i s ss h
        rw [h] at ih hle
        split
        · exact List.pairwise_cons.2 ⟨fun t ht => List.rel_of_pairwise_cons ih ht, ih.tail⟩
        · rename_i hc
          refine List.pairwise_cons.2 ⟨fun t ht => ?_, ih⟩
          have hbs : b.edge.origin < s.center :=
            lt_of_le_of_ne (hle s List.mem_cons_self) (Ne.symm hc)
          rcases List.mem_cons.1 ht with rfl | ht
          · exact hbs
          · exact hbs.trans (List.rel_of_pairwise_cons ih ht)

/-- The star of a vertex holds every bundle that leaves it. -/
theorem bundles_eq_filter {bs : List (Bundle α)}
    (hbs : bs.Pairwise (·.edge.origin ≤ ·.edge.origin)) {s : Star α} (hs : s ∈ ofBundles bs) :
    s.bundles = bs.filter fun b => b.edge.origin == s.center := by
  have hstars := pairwise_ofBundles hbs
  have horigin := fun t (ht : t ∈ ofBundles bs) => (bundles_of_mem_ofBundles ht).2
  conv_rhs => rw [← flatMap_bundles_ofBundles bs]
  generalize ofBundles bs = stars at hs hstars horigin
  induction stars with
  | nil => simp at hs
  | cons t stars ih =>
      have hlt := (List.pairwise_cons.1 hstars).1
      rw [List.flatMap_cons, List.filter_append]
      rcases List.mem_cons.1 hs with rfl | hs
      · rw [List.filter_eq_self.2, List.filter_eq_nil_iff.2, List.append_nil]
        · intro b hb
          obtain ⟨u, hu, hbu⟩ := List.mem_flatMap.1 hb
          have := horigin u (List.mem_cons_of_mem _ hu) b hbu
          have := hlt u hu
          simp only [beq_iff_eq]
          omega
        · intro b hb
          simpa using horigin s List.mem_cons_self b hb
      · rw [List.filter_eq_nil_iff.2, List.nil_append]
        · exact ih hs hstars.tail fun u hu => horigin u (List.mem_cons_of_mem _ hu)
        · intro b hb
          have := horigin t List.mem_cons_self b hb
          have := hlt s hs
          simp only [beq_iff_eq]
          omega

end Star

end SnapGraph
