import Mathlib
import SnapGraph.Proofs.Star

/-! The directions around a vertex. Where the compass puts the neighbours of a vertex in a strict total
order, comparing spokes by direction and rank orders them, so the sort of a star gives up only if the
directions around its center are in no order. -/

namespace SnapGraph

/-! ### Directions -/

/-- Directions to some vertices are in a strict total order. -/
structure OrdersTips (direction : Int → Int → Ordering) (tips : Int → Prop) : Prop where
  irrefl : ∀ a, tips a → direction a a ≠ .lt
  trans : ∀ a b c, tips a → tips b → tips c →
    direction a b = .lt → direction b c = .lt → direction a c = .lt
  total : ∀ a b, tips a → tips b → a ≠ b → direction a b = .lt ∨ direction b a = .lt

theorem ordersTips_iff {direction : Int → Int → Ordering} {tips : Int → Prop} {ids : List Int}
    (hids : ∀ a, tips a → a ∈ ids) : OrdersTips direction tips ↔
      (∀ a ∈ ids, tips a → direction a a ≠ .lt) ∧
      (∀ a ∈ ids, ∀ b ∈ ids, ∀ c ∈ ids, tips a → tips b → tips c →
        direction a b = .lt → direction b c = .lt → direction a c = .lt) ∧
      ∀ a ∈ ids, ∀ b ∈ ids, tips a → tips b → a ≠ b →
        direction a b = .lt ∨ direction b a = .lt := by
  constructor
  · intro h
    exact ⟨fun a _ => h.irrefl a, fun a _ b _ c _ => h.trans a b c, fun a _ b _ => h.total a b⟩
  · rintro ⟨hirrefl, htrans, htotal⟩
    exact ⟨fun a ha => hirrefl a (hids a ha) ha,
      fun a b c ha hb hc => htrans a (hids a ha) b (hids b hb) c (hids c hc) ha hb hc,
      fun a b ha hb => htotal a (hids a ha) b (hids b hb) ha hb⟩

/-- Ids themselves are an order of directions. -/
theorem ordersTips_compare (tips : Int → Prop) : OrdersTips compare tips where
  irrefl a _ h := Int.lt_irrefl a (Int.compare_eq_lt.1 h)
  trans a b c _ _ _ hab hbc :=
    Int.compare_eq_lt.2 (Int.lt_trans (Int.compare_eq_lt.1 hab) (Int.compare_eq_lt.1 hbc))
  total a b _ _ hab := by
    rw [Int.compare_eq_lt, Int.compare_eq_lt]
    exact Int.lt_or_gt_of_ne hab

/-! ### Spokes in order -/

namespace Spoke

variable {direction : Int → Int → Ordering} {tips : Int → Prop} {a b c : Spoke}

/-- One spoke does not stand after another: at the same tip by rank, otherwise by direction. -/
def Precedes (direction : Int → Int → Ordering) (a b : Spoke) : Prop :=
  a.tip = b.tip ∧ a.rank ≤ b.rank ∨ direction a.tip b.tip = .lt

theorem Precedes.tip_le (h : Precedes compare a b) : a.tip ≤ b.tip := by
  rcases h with ⟨htip, -⟩ | hlt
  · exact htip.le
  · exact (Int.compare_eq_lt.1 hlt).le

section Order

variable (h : OrdersTips direction tips) (ha : tips a.tip) (hb : tips b.tip)

include h ha hb

theorem Precedes.trans (hc : tips c.tip) (hab : Precedes direction a b)
    (hbc : Precedes direction b c) : Precedes direction a c := by
  rcases hab with ⟨htip, hrank⟩ | hab
  · rcases hbc with ⟨htip', hrank'⟩ | hbc
    · exact .inl ⟨htip.trans htip', hrank.trans hrank'⟩
    · exact .inr (htip ▸ hbc)
  · rcases hbc with ⟨htip', -⟩ | hbc
    · exact .inr (htip' ▸ hab)
    · exact .inr (h.trans _ _ _ ha hb hc hab hbc)

theorem Precedes.antisymm (hab : Precedes direction a b) (hba : Precedes direction b a) :
    a.tip = b.tip ∧ a.rank = b.rank := by
  have hnot : ∀ {x y : Spoke}, tips x.tip → tips y.tip → direction x.tip y.tip = .lt →
      ¬Precedes direction y x := by
    rintro x y hx hy hxy (⟨htip, -⟩ | hyx)
    · exact h.irrefl _ hx (htip ▸ hxy)
    · exact h.irrefl _ hx (h.trans _ _ _ hx hy hx hxy hyx)
  rcases hab with ⟨htip, hrank⟩ | hab
  · rcases hba with ⟨-, hrank'⟩ | hba
    · exact ⟨htip, hrank.antisymm hrank'⟩
    · exact absurd (.inl ⟨htip, hrank⟩) (hnot hb ha hba)
  · exact absurd hba (hnot ha hb hab)

end Order

/-- What the comparison of spokes says, where it tells any two tips apart. -/
theorem compareBy_iff (h : OrdersTips direction tips) (hne : ∀ x y, x ≠ y → direction x y ≠ .eq)
    (ha : tips a.tip) : (compareBy direction a b != .gt) = true ↔ Precedes direction a b := by
  rw [bne_iff_ne, compareBy, Precedes]
  split
  · rename_i htip
    rw [Nat.compare_ne_gt, ← htip]
    simp [h.irrefl _ ha]
  · rename_i htip
    cases hdirection : direction a.tip b.tip with
    | lt => simp
    | eq => exact absurd hdirection (hne _ _ htip)
    | gt => simp [htip]

/-- Where directions are in order, comparing orders the spokes. -/
theorem ordersItems (h : OrdersTips direction tips) (hne : ∀ x y, x ≠ y → direction x y ≠ .eq)
    {l : List Spoke} (htips : ∀ a ∈ l, tips a.tip) : OrdersItems (compareBy direction) l where
  swap a ha b hb := by
    have hrank := Std.OrientedOrd.eq_swap (a := b.rank) (b := a.rank)
    unfold compareBy
    split
    · rename_i htip
      rw [if_pos htip.symm, hrank]
    · rename_i htip
      rw [if_neg (Ne.symm htip)]
      cases hab : direction a.tip b.tip with
      | lt =>
          cases hba : direction b.tip a.tip with
          | lt =>
              have haa := h.trans _ _ _ (htips a ha) (htips b hb) (htips a ha) hab hba
              exact absurd haa (h.irrefl _ (htips a ha))
          | eq => exact absurd hba (hne _ _ htip)
          | gt => rfl
      | eq => exact absurd hab (hne _ _ (Ne.symm htip))
      | gt =>
          have hba := (h.total _ _ (htips a ha) (htips b hb) (Ne.symm htip)).resolve_left (by simp [hab])
          rw [hba]
          rfl
  trans a ha b hb c hc hab hbc := by
    have hle := fun (a : Spoke) (ha : a ∈ l) (b : Spoke) => compareBy_iff (b := b) h hne (htips a ha)
    rw [← bne_iff_ne, hle a ha] at hab ⊢
    rw [← bne_iff_ne, hle b hb] at hbc
    exact .trans h (htips a ha) (htips b hb) (htips c hc) hab hbc

/-- Spokes to tips in a circle are in a circle. -/
theorem isCircle (h : IsCircle direction a.tip b.tip c.tip) : IsCircle (compareBy direction) a b c := by
  have hdistinct := h.distinct
  rw [← List.map_singleton, ← List.map_cons, ← List.map_cons] at hdistinct
  have hnodup : [a, b, c].Nodup := hdistinct.of_map _
  simp only [List.map_cons, List.map_nil, List.nodup_cons, List.mem_cons, List.not_mem_nil, or_false,
    not_or] at hdistinct
  obtain ⟨⟨hab, hac⟩, hbc, -⟩ := hdistinct
  exact ⟨hnodup, (if_neg (Ne.symm hab)).trans h.second, (if_neg (Ne.symm hbc)).trans h.third,
    (if_neg hac).trans h.first⟩

/-! ### Spokes between two vertices -/

theorem of_mem_alternate {tip : Int} {rank : Nat} {outs ins : List Nat}
    (ha : a ∈ alternate tip rank outs ins) : a.tip = tip ∧ rank ≤ a.rank := by
  fun_induction alternate tip rank outs ins with
  | case1 => cases ha
  | case2 rank i ins ih =>
      rcases List.mem_cons.1 ha with rfl | ha
      · exact ⟨rfl, Nat.le_refl _⟩
      · exact (ih ha).imp_right Nat.le_of_succ_le
  | case3 rank o outs ih =>
      rcases List.mem_cons.1 ha with rfl | ha
      · exact ⟨rfl, Nat.le_refl _⟩
      · exact (ih ha).imp_right Nat.le_of_succ_le
  | case4 rank o outs i ins ih =>
      rcases List.mem_cons.1 ha with rfl | ha
      · exact ⟨rfl, Nat.le_refl _⟩
      · rcases List.mem_cons.1 ha with rfl | ha
        · exact ⟨rfl, Nat.le_succ _⟩
        · exact (ih ha).imp_right fun hrank => by omega

theorem pairwise_alternate (tip : Int) (rank : Nat) (outs ins : List Nat) :
    (alternate tip rank outs ins).Pairwise fun a b => a.rank < b.rank := by
  fun_induction alternate tip rank outs ins with
  | case1 => exact .nil
  | case2 rank i ins ih => exact ih.cons fun a ha => (of_mem_alternate ha).2
  | case3 rank o outs ih => exact ih.cons fun a ha => (of_mem_alternate ha).2
  | case4 rank o outs i ins ih =>
      have hrank : ∀ a ∈ alternate tip (rank + 2) outs ins, rank + 1 < a.rank :=
        fun a ha => (of_mem_alternate ha).2
      refine (ih.cons hrank).cons (List.forall_mem_cons.2 ⟨Nat.lt_succ_self _, fun a ha => ?_⟩)
      exact (Nat.lt_succ_self _).trans (hrank a ha)

end Spoke

/-! ### Spokes in bundles -/

namespace Bundle

theorem tip_of_mem_spokes {b : Bundle Nat} {a : Spoke} (ha : a ∈ b.spokes) :
    a.tip = b.edge.dest := by
  unfold Bundle.spokes at ha
  split at ha
  · cases ha
  · exact (Spoke.of_mem_alternate ha).1

/-- Degenerate edges have no spokes. -/
theorem flatMap_spokes_filter (bundles : List (Bundle Nat)) :
    (bundles.filter fun b => !b.edge.isDegenerate).flatMap Bundle.spokes =
      bundles.flatMap Bundle.spokes := by
  induction bundles with
  | nil => rfl
  | cons b bundles ih =>
      by_cases hdegenerate : b.edge.isDegenerate
      · have hnone : b.spokes = [] := by rw [Bundle.spokes, if_pos hdegenerate]
        rw [List.filter_cons_of_neg (by simpa using hdegenerate), List.flatMap_cons, hnone, ih,
          List.nil_append]
      · rw [List.filter_cons_of_pos (by simpa using hdegenerate), List.flatMap_cons,
          List.flatMap_cons, ih]

variable {direction : Int → Int → Ordering} {tips : Int → Prop} {bundles : List (Bundle Nat)}

/-- The spokes of bundles in order are in order. -/
theorem pairwise_spokes (h : OrdersTips direction tips)
    (htips : ∀ b ∈ bundles, tips b.edge.dest) {sorted : List (Bundle Nat)} (hperm : sorted.Perm bundles)
    (hsorted : sorted.Pairwise fun b c => direction b.edge.dest c.edge.dest = .lt) :
    (sorted.flatMap spokes).Pairwise fun a b =>
      Spoke.Precedes direction a b ∧ ¬(a.tip = b.tip ∧ a.rank = b.rank) := by
  refine List.pairwise_flatMap.2 ⟨fun b _ => ?_, hsorted.imp_of_mem fun hb hc hbc x hx y hy => ?_⟩
  · have hspokes : b.spokes.Pairwise fun x y => x.rank < y.rank := by
      unfold spokes
      split
      · exact .nil
      · exact Spoke.pairwise_alternate _ _ _ _
    refine hspokes.imp_of_mem fun hx hy hxy => ⟨.inl ⟨?_, hxy.le⟩, fun hsame => hxy.ne hsame.2⟩
    rw [tip_of_mem_spokes hx, tip_of_mem_spokes hy]
  · rw [← tip_of_mem_spokes hx, ← tip_of_mem_spokes hy] at hbc
    refine ⟨.inr hbc, fun hsame => h.irrefl _ ?_ (hsame.1 ▸ hbc)⟩
    rw [tip_of_mem_spokes hy]
    exact htips _ (hperm.mem_iff.1 hc)

end Bundle

namespace Graph

variable (g : Graph)

/-! ### Around a vertex -/

/-- An edge joins two vertices, in either direction. -/
def Adjacent (v w : Int) : Prop :=
  v ≠ w ∧ ∃ e < g.numEdges, g.edge e = ⟨v, w⟩ ∨ g.edge e = ⟨w, v⟩

instance (v w : Int) : Decidable (g.Adjacent v w) :=
  inferInstanceAs (Decidable (_ ∧ ∃ e < g.numEdges, _))

variable {g} in
theorem Adjacent.symm {v w : Int} (h : g.Adjacent v w) : g.Adjacent w v := by
  obtain ⟨hne, e, he, hedge⟩ := h
  exact ⟨hne.symm, e, he, hedge.symm⟩

variable {g} in
theorem Adjacent.mem_vertexIds {v w : Int} (h : g.Adjacent v w) : w ∈ g.vertexIds := by
  obtain ⟨-, e, he, hedge⟩ := h
  refine mem_vertexIds_of_touches he ?_
  rcases hedge with hedge | hedge
  · simp [Edge.touches, hedge]
  · simp [Edge.touches, hedge]

/-- Around every vertex the compass, begun at the least neighbour, puts all neighbours in a strict
total order. -/
def OrdersClockwise : Prop := ∀ v anchor, g.Adjacent v anchor →
  (∀ w, g.Adjacent v w → anchor ≤ w) → OrdersTips (g.compass v anchor) (g.Adjacent v)

instance (v anchor : Int) : Decidable (OrdersTips (g.compass v anchor) (g.Adjacent v)) :=
  decidable_of_iff _ (ordersTips_iff fun _ => Adjacent.mem_vertexIds).symm

theorem ordersClockwise_iff : g.OrdersClockwise ↔
    ∀ v ∈ g.vertexIds, ∀ anchor ∈ g.vertexIds, g.Adjacent v anchor →
      (∀ w ∈ g.vertexIds, g.Adjacent v w → anchor ≤ w) →
        OrdersTips (g.compass v anchor) (g.Adjacent v) := by
  constructor
  · intro h v _ anchor _ hanchor hleast
    exact h v anchor hanchor fun w hw => hleast w hw.mem_vertexIds hw
  · intro h v anchor hanchor hleast
    exact h v hanchor.symm.mem_vertexIds anchor hanchor.mem_vertexIds hanchor fun w _ => hleast w

instance : Decidable g.OrdersClockwise := decidable_of_iff _ g.ordersClockwise_iff.symm

theorem compass_ne_eq (v anchor : Int) {a b : Int} (hab : a ≠ b) :
    g.compass v anchor a b ≠ .eq := by
  have hcompare : compare a b ≠ .eq := fun h => hab (Std.LawfulEqCmp.compare_eq_iff_eq.1 h)
  unfold compass
  dsimp only
  split
  · exact hcompare
  · decide
  · decide
  · split
    · exact hcompare
    · split
      · decide
      · decide

/-- Around a vertex the compass, begun at the least neighbour, puts three others in a circle. -/
structure HasCircle (v anchor a b c : Int) : Prop where
  begins : g.Adjacent v anchor
  least : ∀ w, g.Adjacent v w → anchor ≤ w
  neighbours : ∀ w ∈ [a, b, c], anchor ≠ w ∧ g.Adjacent v w
  circle : IsCircle (g.compass v anchor) a b c

/-! ### The spokes of a star -/

section Star

variable {g} {inIds : List Nat} (hin : g.InOrder inIds) {s : Star Nat}
  (hs : s ∈ routingStars g.edges inIds)

include hin hs

theorem mem_bundles {b : Bundle Nat} (hb : b ∈ s.bundles) :
    b ∈ Bundle.merge g.leaving (g.entering inIds) ∧ b.edge.origin = s.center := by
  rw [hin.bundles_eq hs, List.mem_filter] at hb
  exact ⟨hb.1, beq_iff_eq.1 hb.2⟩

theorem pairwise_bundles : s.bundles.Pairwise fun b c => b.edge.dest < c.edge.dest := by
  have hedges : s.bundles.Pairwise fun b c => b.edge < c.edge := by
    rw [hin.bundles_eq hs]
    exact (Bundle.pairwise_merge g.pairwise_leaving hin.pairwise_entering).filter _
  refine hedges.imp_of_mem fun hb hc hlt => ?_
  have := (mem_bundles hin hs hb).2
  have := (mem_bundles hin hs hc).2
  rw [Edge.lt_def] at hlt
  omega

theorem exists_edge_of_bundle {b : Bundle Nat} (hb : b ∈ s.bundles) :
    ∃ e < g.numEdges, g.edge e = b.edge ∨ g.edge e = b.edge.reverse := by
  rcases Bundle.exists_mem_merge_iff.1 ⟨b, (mem_bundles hin hs hb).1, rfl⟩ with hout | hback
  · obtain ⟨e, he, hedge⟩ := g.exists_leaving_iff.1 hout
    exact ⟨e, he, .inl hedge⟩
  · obtain ⟨e, he, hedge⟩ := hin.exists_entering_iff.1 hback
    exact ⟨e, he, .inr (Edge.reverse_inj.1 hedge)⟩

/-- The bundles of a star lead to the neighbours of its center, but for one of degenerate edges. -/
theorem adjacent_iff {w : Int} : g.Adjacent s.center w ↔
    ∃ b ∈ s.bundles.filter (fun b => !b.edge.isDegenerate), b.edge.dest = w := by
  constructor
  · rintro ⟨hne, e, he, hedge⟩
    have hmerge : ∃ b ∈ Bundle.merge g.leaving (g.entering inIds), b.edge = ⟨s.center, w⟩ := by
      rcases hedge with hedge | hedge
      · exact Bundle.exists_mem_merge_iff.2 (.inl (g.exists_leaving_iff.2 ⟨e, he, hedge⟩))
      · exact Bundle.exists_mem_merge_iff.2
          (.inr (hin.exists_entering_iff.2 ⟨e, he, congrArg Edge.reverse hedge⟩))
    obtain ⟨b, hb, hedge⟩ := hmerge
    refine ⟨b, ?_, congrArg Edge.dest hedge⟩
    rw [hin.bundles_eq hs, List.filter_filter, List.mem_filter, hedge]
    exact ⟨hb, by simpa [Edge.isDegenerate] using hne⟩
  · rintro ⟨b, hb, rfl⟩
    obtain ⟨hb, hdegenerate⟩ := List.mem_filter.1 hb
    obtain ⟨-, horigin⟩ := mem_bundles hin hs hb
    obtain ⟨e, he, hedge⟩ := exists_edge_of_bundle hin hs hb
    have hb : b.edge = ⟨s.center, b.edge.dest⟩ := Edge.ext_iff'.2 ⟨horigin, rfl⟩
    refine ⟨fun heq => ?_, e, he, hedge.imp (·.trans hb) fun h => h.trans ?_⟩
    · rw [Edge.isDegenerate_iff.2 (horigin.trans heq)] at hdegenerate
      cases hdegenerate
    · exact congrArg Edge.reverse hb

/-- The outgoing edges of a bundle are the copies of its edge. -/
theorem forward_eq_filter {b : Bundle Nat} (hb : b ∈ s.bundles) :
    b.forward = g.edgeIds.filter fun e => g.edge e == b.edge := by
  rw [Bundle.forward_of_mem_merge g.pairwise_leaving hin.pairwise_entering (mem_bundles hin hs hb).1,
    g.items_leaving (· == b.edge)]

/-- The incoming edges of a bundle are the copies of the reverse of its edge. -/
theorem backward_eq_filter {b : Bundle Nat} (hb : b ∈ s.bundles) :
    b.backward = inIds.filter fun e => (g.edge e).reverse == b.edge := by
  rw [Bundle.backward_of_mem_merge g.pairwise_leaving hin.pairwise_entering (mem_bundles hin hs hb).1,
    g.items_entering (· == b.edge)]

/-- Every neighbour of the center is the tip of a spoke. -/
theorem exists_spoke_of_adjacent {w : Int} (hw : g.Adjacent s.center w) :
    ∃ a ∈ s.bundles.flatMap Bundle.spokes, a.tip = w := by
  obtain ⟨b, hb, rfl⟩ := (adjacent_iff hin hs).1 hw
  obtain ⟨hmem, hproper⟩ := List.mem_filter.1 hb
  have hspokes : b.spokes = Spoke.alternate b.edge.dest 0 b.forward b.backward := by
    rw [Bundle.spokes, if_neg (by simpa using hproper)]
  have hexists : ∃ a, a ∈ b.spokes := by
    obtain ⟨e, he, hedge | hedge⟩ := exists_edge_of_bundle hin hs hmem
    · have hforward : e ∈ Spoke.outgoingIds b.spokes := by
        rw [hspokes, Spoke.outgoingIds_alternate, forward_eq_filter hin hs hmem, List.mem_filter]
        exact ⟨g.mem_edgeIds.2 he, beq_iff_eq.2 hedge⟩
      obtain ⟨a, ha, -⟩ := List.mem_map.1 hforward
      exact ⟨a, List.mem_of_mem_filter ha⟩
    · have hbackward : e ∈ Spoke.incomingIds b.spokes := by
        rw [hspokes, Spoke.incomingIds_alternate, backward_eq_filter hin hs hmem, List.mem_filter]
        exact ⟨hin.mem_iff.2 he, beq_iff_eq.2 (congrArg Edge.reverse hedge)⟩
      obtain ⟨a, ha, -⟩ := List.mem_map.1 hbackward
      exact ⟨a, List.mem_of_mem_filter ha⟩
  obtain ⟨a, ha⟩ := hexists
  exact ⟨a, List.mem_flatMap.2 ⟨b, hmem, ha⟩, Bundle.tip_of_mem_spokes ha⟩

theorem adjacent_of_mem_spokes {a : Spoke} (ha : a ∈ s.bundles.flatMap Bundle.spokes) :
    g.Adjacent s.center a.tip := by
  rw [← Bundle.flatMap_spokes_filter] at ha
  obtain ⟨b, hb, ha⟩ := List.mem_flatMap.1 ha
  exact (adjacent_iff hin hs).2 ⟨b, hb, (Bundle.tip_of_mem_spokes ha).symm⟩

variable {first : Spoke} {rest : List Spoke}
  (hspokes : s.bundles.flatMap Bundle.spokes = first :: rest)

include hspokes

/-- Before they are sorted, the spokes of a star stand in the order of the ids of their tips. -/
theorem pairwise_spokes_by_id : (first :: rest).Pairwise (Spoke.Precedes compare) := by
  rw [← hspokes]
  refine (Bundle.pairwise_spokes (ordersTips_compare fun _ => True) (fun _ _ => trivial)
    (.refl _) ?_).imp And.left
  exact (pairwise_bundles hin hs).imp Int.compare_eq_lt.2

/-- The first spoke of a star leads to the least neighbour of its center. -/
theorem adjacent_first : g.Adjacent s.center first.tip ∧
    ∀ w, g.Adjacent s.center w → first.tip ≤ w := by
  refine ⟨adjacent_of_mem_spokes hin hs (hspokes ▸ List.mem_cons_self), fun w hw => ?_⟩
  obtain ⟨a, ha, rfl⟩ := exists_spoke_of_adjacent hin hs hw
  rw [hspokes] at ha
  rcases List.mem_cons.1 ha with rfl | ha
  · exact le_refl _
  · exact ((List.pairwise_cons.1 (pairwise_spokes_by_id hin hs hspokes)).1 a ha).tip_le

theorem ordersTips_first (hclockwise : g.OrdersClockwise) :
    OrdersTips (g.compass s.center first.tip) (g.Adjacent s.center) := by
  obtain ⟨hanchor, hleast⟩ := adjacent_first hin hs hspokes
  exact hclockwise s.center first.tip hanchor hleast

/-- Where the compass orders neighbours, comparing orders the spokes of a star. -/
theorem ordersItems_rest (hclockwise : g.OrdersClockwise) :
    OrdersItems (Spoke.compareBy (g.compass s.center first.tip)) rest := by
  refine Spoke.ordersItems (ordersTips_first hin hs hspokes hclockwise)
    (fun x y => g.compass_ne_eq s.center first.tip) fun a ha => ?_
  exact adjacent_of_mem_spokes hin hs (hspokes ▸ List.mem_cons_of_mem first ha)

omit hspokes in
/-- Where the compass orders neighbours, the sort gives up around no vertex. -/
theorem exists_spokes (sort : ComparisonSort Spoke) (hclockwise : g.OrdersClockwise) :
    ∃ spokes, s.spokes sort g.compass = .ok spokes := by
  unfold Star.spokes
  split
  · exact ⟨[], rfl⟩
  · rename_i first rest hspokes
    obtain ⟨sorted, hsorted, -⟩ := sort.ordered (ordersItems_rest hin hs hspokes hclockwise)
    exact ⟨first :: sorted, by rw [hsorted]; rfl⟩

omit hspokes in
/-- The standard sort gives up around a vertex with directions in a circle, if it has many spokes. -/
theorem spokes_standard_of_hasCircle {anchor a b c : Int} (h : g.HasCircle s.center anchor a b c)
    (hmany : 21 < (s.bundles.flatMap Bundle.spokes).length) :
    s.spokes .standard g.compass = .error .inconsistentOrder := by
  unfold Star.spokes
  split
  · rename_i hnil
    rw [hnil] at hmany
    cases hmany
  · rename_i first rest hspokes
    obtain ⟨hfirst, hleast⟩ := adjacent_first hin hs hspokes
    obtain rfl : first.tip = anchor := (hleast _ h.begins).antisymm (h.least _ hfirst)
    have hrest : ∀ w ∈ [a, b, c], ∃ x ∈ rest, x.tip = w := by
      intro w hw
      obtain ⟨hne, hadjacent⟩ := h.neighbours w hw
      obtain ⟨x, hx, rfl⟩ := exists_spoke_of_adjacent hin hs hadjacent
      rw [hspokes] at hx
      rcases List.mem_cons.1 hx with rfl | hx
      · exact absurd rfl hne
      · exact ⟨x, hx, rfl⟩
    obtain ⟨x, hx, rfl⟩ := hrest a (by simp)
    obtain ⟨y, hy, rfl⟩ := hrest b (by simp)
    obtain ⟨z, hz, rfl⟩ := hrest c (by simp)
    rw [hspokes, List.length_cons] at hmany
    rw [ComparisonSort.standard_of_isCircle (Spoke.isCircle h.circle) hx hy hz (by omega)]
    rfl

end Star

end Graph

end SnapGraph
