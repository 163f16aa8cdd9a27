import Mathlib
import SnapGraph.Proofs.LeftTurn

/-! Left turns in clockwise order. Where the compass orders the neighbours of every vertex, the spokes
of a star are its bundles in that order, and between siblings outgoing and incoming edges alternate: an
edge is followed by its sibling, and the sibling turns to the next edge around the vertex. -/

namespace SnapGraph

/-! ### Directions -/

theorem float_beq_self {x : Float} (h : x.isNaN = false) : (x == x) = true := by
  show x.toModel.unpack.beq x.toModel.unpack = true
  have h : x.toModel.unpack.isNaN = false := h
  cases hu : x.toModel.unpack with
  | finite sign mantissa exponent hpos =>
      cases sign
      all_goals simp [Float.Model.UnpackedFloat.beq, Float.Model.UnpackedFloat.compare]
  | infinity sign =>
      cases sign
      all_goals rfl
  | zero sign => rfl
  | notANumber =>
      rw [hu] at h
      cases h

/-- No coordinate of the point is a NaN. -/
def Point.IsNumeric (p : Point) : Prop :=
  p.x.isNaN = false ∧ p.y.isNaN = false ∧ p.z.isNaN = false

instance (p : Point) : Decidable p.IsNumeric := inferInstanceAs (Decidable (_ ∧ _ ∧ _))

theorem Point.IsNumeric.sameAs_self {p : Point} (h : p.IsNumeric) : p.sameAs p = true := by
  obtain ⟨hx, hy, hz⟩ := h
  unfold sameAs
  rw [float_beq_self hx, float_beq_self hy, float_beq_self hz]
  rfl

/-! ### Spokes in order -/

namespace Spoke

/-- Spokes of which no two have the same tip and rank can be put in order in one way. -/
theorem eq_of_precedes {direction : Int → Int → Ordering} {tips : Int → Prop} {l l' : List Spoke}
    (h : OrdersTips direction tips)
    (htips : ∀ a ∈ l', tips a.tip) (hperm : l.Perm l') (hl : l.Pairwise (Precedes direction))
    (hl' : l'.Pairwise fun a b =>
      Precedes direction a b ∧ ¬(a.tip = b.tip ∧ a.rank = b.rank)) : l = l' := by
  refine List.Perm.eq_of_pairwise (fun a b ha hb hab hba => ?_) hl (hl'.imp And.left) hperm
  have ha := hperm.mem_iff.1 ha
  have hsame := Precedes.antisymm h (htips a ha) (htips b hb) hab hba
  have hsymm : Std.Symm fun a b : Spoke => ¬(a.tip = b.tip ∧ a.rank = b.rank) :=
    ⟨fun a b hab hba => hab ⟨hba.1.symm, hba.2.symm⟩⟩
  by_contra hne
  exact (hl'.imp And.right).forall ha hb hne hsame

/-- Between siblings an outgoing edge is followed by its sibling. -/
theorem alternate_map (tip : Int) (rank : Nat) (outs : List Nat) (sibling : Nat → Nat) :
    (alternate tip rank outs (outs.map sibling)).map (fun a => (a.incoming, a.edge)) =
      outs.flatMap fun o => [(false, o), (true, sibling o)] := by
  induction outs generalizing rank with
  | nil =>
      rw [List.map_nil, alternate]
      rfl
  | cons o outs ih =>
      rw [List.map_cons, alternate, List.map_cons, List.map_cons, ih, List.flatMap_cons]
      rfl

end Spoke

/-! ### Bundles in order -/

namespace Bundle

variable {direction : Int → Int → Ordering} {tips : Int → Prop} {bundles : List (Bundle Nat)}

section Order

variable (h : OrdersTips direction tips) (htips : ∀ b ∈ bundles, tips b.edge.dest)

include h htips

/-- Bundles to different tips can be put in order. -/
theorem exists_sorted (hdest : bundles.Pairwise fun b c => b.edge.dest ≠ c.edge.dest) :
    ∃ sorted : List (Bundle Nat), sorted.Perm bundles ∧
      sorted.Pairwise fun b c => direction b.edge.dest c.edge.dest = .lt := by
  let le : Bundle Nat → Bundle Nat → Bool := fun b c =>
    b.edge.dest == c.edge.dest || direction b.edge.dest c.edge.dest == .lt
  have hle : ∀ b c, le b c = true ↔
      b.edge.dest = c.edge.dest ∨ direction b.edge.dest c.edge.dest = .lt := by
    intro b c
    simp [le]
  have hperm := List.mergeSort_perm bundles le
  have hsorted : (bundles.mergeSort le).Pairwise fun b c => le b c = true := by
    refine pairwise_mergeSort_of_mem (fun a ha b hb c hc hab hbc => ?_) fun a ha b hb => ?_
    · rw [hle] at *
      rcases hab with hab | hab
      · rwa [hab]
      · rcases hbc with hbc | hbc
        · exact .inr (hbc ▸ hab)
        · exact .inr (h.trans _ _ _ (htips a ha) (htips b hb) (htips c hc) hab hbc)
    · rw [hle, hle]
      by_cases hab : a.edge.dest = b.edge.dest
      · exact .inl (.inl hab)
      · exact (h.total _ _ (htips a ha) (htips b hb) hab).imp .inr .inr
  have hsymm : Std.Symm fun b c : Bundle Nat => b.edge.dest ≠ c.edge.dest := ⟨fun _ _ => Ne.symm⟩
  have hdest := hdest.perm hperm.symm (fun h => h.symm)
  refine ⟨_, hperm, (hsorted.and hdest).imp fun hbc => ?_⟩
  exact ((hle _ _).1 hbc.1).resolve_left hbc.2

/-- Sorted spokes are the spokes of sorted bundles, if the first one is the least. -/
theorem sort_spokes_eq (hne : ∀ x y, x ≠ y → direction x y ≠ .eq) {first : Spoke}
    {rest rest' : List Spoke} (hspokes : bundles.flatMap spokes = first :: rest)
    (hfirst : ∀ a ∈ rest, Spoke.Precedes direction first a) (hrest : rest'.Perm rest)
    (hrest' : rest'.Pairwise fun a b => Spoke.compareBy direction a b ≠ .gt)
    {sorted : List (Bundle Nat)} (hperm : sorted.Perm bundles)
    (hsorted : sorted.Pairwise fun b c => direction b.edge.dest c.edge.dest = .lt) :
    first :: rest' = sorted.flatMap spokes := by
  have htip : ∀ a ∈ first :: rest, tips a.tip := by
    intro a ha
    rw [← hspokes] at ha
    obtain ⟨b, hb, ha⟩ := List.mem_flatMap.1 ha
    exact tip_of_mem_spokes ha ▸ htips b hb
  have hflat : (first :: rest).Perm (sorted.flatMap spokes) :=
    hspokes ▸ hperm.symm.flatMap_right _
  have hprecedes : rest'.Pairwise (Spoke.Precedes direction) := by
    refine hrest'.imp_of_mem fun {a b} ha _ hab => ?_
    have ha := htip a (List.mem_cons_of_mem _ (hrest.mem_iff.1 ha))
    exact (Spoke.compareBy_iff h hne ha).1 (bne_iff_ne.2 hab)
  refine Spoke.eq_of_precedes h (fun a ha => htip a (hflat.mem_iff.2 ha))
    ((hrest.cons first).trans hflat) (hprecedes.cons fun a ha => ?_)
    (pairwise_spokes h htips hperm hsorted)
  exact hfirst a (hrest.mem_iff.1 ha)

end Order

end Bundle

/-! ### Matching siblings -/

namespace Matching

variable {sibling : Nat → Nat}

/-- After an incoming edge, siblings are matched in turn; the last one waits. -/
theorem exists_scan_siblings {outs : List Nat} {spokes : List Spoke}
    (h : spokes.map (fun a => (a.incoming, a.edge)) =
      outs.flatMap fun o => [(false, o), (true, sibling o)]) (e x : Nat) :
    ∃ turns last, scan [e] spokes = (turns, [last], []) ∧
      turns ++ [(last, x)] = (e :: outs.map sibling).zip (outs ++ [x]) := by
  induction outs generalizing e spokes with
  | nil =>
      cases List.map_eq_nil_iff.1 h
      exact ⟨[], e, rfl, rfl⟩
  | cons o outs ih =>
      obtain ⟨a, spokes, rfl, ha, h⟩ := List.map_eq_cons_iff.1 h
      obtain ⟨b, rest, rfl, hb, h⟩ := List.map_eq_cons_iff.1 h
      obtain ⟨hain, haedge⟩ := Prod.mk.inj ha
      obtain ⟨hbin, hbedge⟩ := Prod.mk.inj hb
      obtain ⟨turns, last, hscan, hturns⟩ := ih h (sibling o)
      refine ⟨(e, o) :: turns, last, ?_, ?_⟩
      · rw [scan, if_neg (Bool.eq_false_iff.1 hain), scan, if_pos hbin, hbedge, hscan, haedge]
      · rw [List.cons_append, hturns]
        rfl

/-- Around a vertex the sibling of an edge turns to the next edge. -/
theorem turns_ofSpokes_siblings {outs : List Nat} {spokes : List Spoke}
    (h : spokes.map (fun a => (a.incoming, a.edge)) =
      outs.flatMap fun o => [(false, o), (true, sibling o)]) :
    (ofSpokes spokes).turns = (outs.map sibling).zip (outs.rotate 1) := by
  cases outs with
  | nil =>
      cases List.map_eq_nil_iff.1 h
      rfl
  | cons o outs =>
      obtain ⟨a, spokes, rfl, ha, h⟩ := List.map_eq_cons_iff.1 h
      obtain ⟨b, rest, rfl, hb, h⟩ := List.map_eq_cons_iff.1 h
      obtain ⟨hain, haedge⟩ := Prod.mk.inj ha
      obtain ⟨hbin, hbedge⟩ := Prod.mk.inj hb
      obtain ⟨turns, last, hscan, hturns⟩ := exists_scan_siblings h (sibling o) o
      have hwhole : scan [] (a :: b :: rest) = (turns, [last], [o]) := by
        rw [scan, if_neg (Bool.eq_false_iff.1 hain), scan, if_pos hbin, hbedge, hscan, haedge]
      rw [ofSpokes, hwhole, List.rotate_cons_succ, List.rotate_zero]
      exact hturns

end Matching

namespace Graph

variable (g : Graph)

/-- No coordinate of a vertex is a NaN. -/
def HasNumericVertices : Prop := ∀ p ∈ g.vertices, p.IsNumeric

instance : Decidable g.HasNumericVertices := inferInstanceAs (Decidable (∀ p ∈ g.vertices, _))

variable {g}

theorem isNumeric_position (h : g.HasNumericVertices) {v w : Int} (hvw : g.Adjacent v w) :
    (g.position w).IsNumeric := by
  obtain ⟨i, hi, rfl⟩ := List.mem_map.1 hvw.mem_vertexIds
  have hlt : (Int.ofNat i).toNat < g.vertices.size := List.mem_range.1 hi
  unfold position
  rw [Array.getD_eq_getD_getElem?, Array.getElem?_eq_getElem hlt, Option.getD_some]
  exact h _ (Array.getElem_mem hlt)

/-- The anchor comes before all vertices with greater ids. -/
theorem compass_anchor (h : g.HasNumericVertices) {v anchor w : Int} (hanchor : g.Adjacent v anchor)
    (hlt : anchor < w) : g.compass v anchor anchor w = .lt := by
  have hsame := (isNumeric_position h hanchor).sameAs_self
  unfold compass
  dsimp only
  rw [hsame]
  cases (g.position w).sameAs (g.position anchor) with
  | true => exact Int.compare_eq_lt.2 hlt
  | false => rfl

/-! ### The stars of sibling pairs -/

/-- The edges that leave a vertex in clockwise order, begun with those to the least neighbour. Copies
of an edge stand side by side in the order of their ids. -/
structure IsClockwise (g : Graph) (v : Int) (outs : List Nat) : Prop where
  perm : outs.Perm (g.departures v)
  sorted : ∀ anchor, g.Adjacent v anchor → (∀ w, g.Adjacent v w → anchor ≤ w) →
    outs.Pairwise fun e f => (g.edge e).dest = (g.edge f).dest ∧ e < f ∨
      g.compass v anchor (g.edge e).dest (g.edge f).dest = .lt

section Star

variable (hpaired : ∀ e : Edge, g.edges.toList.count e = g.edges.toList.count e.reverse)
  {inIds : List Nat} (hin : g.InOrder inIds) {s : Star Nat} (hs : s ∈ routingStars g.edges inIds)

include hin hs

include hpaired

/-- The incoming edges of a bundle are the siblings of its outgoing edges. -/
theorem backward_eq_map {b : Bundle Nat} (hb : b ∈ s.bundles) :
    b.backward = b.forward.map fun e => inIds.getD e 0 := by
  rw [forward_eq_filter hin hs hb, Bundle.backward_of_mem_merge g.pairwise_leaving
    hin.pairwise_entering (mem_bundles hin hs hb).1, g.items_entering (· == b.edge)]
  conv_lhs => rw [← hin.map_getD, List.filter_map]
  refine congrArg (List.map _) (List.filter_congr fun e he => ?_)
  rw [Function.comp_apply, hin.edge_getD hpaired (g.mem_edgeIds.1 he), Edge.reverse_reverse]

theorem spokes_of_mem_bundles {b : Bundle Nat}
    (hb : b ∈ s.bundles.filter fun b => !b.edge.isDegenerate) :
    b.spokes = Spoke.alternate b.edge.dest 0 b.forward
      (b.forward.map fun e => inIds.getD e 0) := by
  obtain ⟨hb, hproper⟩ := List.mem_filter.1 hb
  rw [Bundle.spokes, if_neg (by simpa using hproper), backward_eq_map hpaired hin hs hb]

omit hpaired in
/-- Where the compass orders neighbours, the spokes of a star are its bundles in that order. -/
theorem exists_spokes_eq (sort : ComparisonSort Spoke) (hclockwise : g.OrdersClockwise)
    (hnumeric : g.HasNumericVertices) : ∃ sorted : List (Bundle Nat),
      sorted.Perm (s.bundles.filter fun b => !b.edge.isDegenerate) ∧
      s.spokes sort g.compass = .ok (sorted.flatMap Bundle.spokes) ∧
      ∀ anchor, g.Adjacent s.center anchor → (∀ w, g.Adjacent s.center w → anchor ≤ w) →
        sorted.Pairwise fun b c => g.compass s.center anchor b.edge.dest c.edge.dest = .lt := by
  have hadjacent : ∀ b ∈ s.bundles.filter (fun b => !b.edge.isDegenerate),
      g.Adjacent s.center b.edge.dest := fun b hb => (adjacent_iff hin hs).2 ⟨b, hb, rfl⟩
  have hdest := ((pairwise_bundles hin hs).filter fun b => !b.edge.isDegenerate).imp ne_of_lt
  have hproper := Bundle.flatMap_spokes_filter s.bundles
  unfold Star.spokes
  split
  · rename_i hnil
    have hnone : s.bundles.filter (fun b => !b.edge.isDegenerate) = [] := by
      refine List.eq_nil_iff_forall_not_mem.2 fun b hb => ?_
      obtain ⟨a, ha, -⟩ := exists_spoke_of_adjacent hin hs (hadjacent b hb)
      rw [hnil] at ha
      cases ha
    exact ⟨[], hnone ▸ .refl _, rfl, fun _ _ _ => .nil⟩
  · rename_i first rest hspokes
    obtain ⟨hanchor, hneighbours⟩ := adjacent_first hin hs hspokes
    have horder := ordersTips_first hin hs hspokes hclockwise
    have hne := fun x y => g.compass_ne_eq (a := x) (b := y) s.center first.tip
    have hfirst : ∀ a ∈ rest, Spoke.Precedes (g.compass s.center first.tip) first a := by
      intro a ha
      rcases (List.pairwise_cons.1 (pairwise_spokes_by_id hin hs hspokes)).1 a ha with hrank | hlt
      · exact .inl hrank
      · exact .inr (compass_anchor hnumeric hanchor (Int.compare_eq_lt.1 hlt))
    obtain ⟨sorted, hperm, hsorted⟩ := Bundle.exists_sorted horder hadjacent hdest
    obtain ⟨rest', hsort, hrest'⟩ := sort.ordered (ordersItems_rest hin hs hspokes hclockwise)
    refine ⟨sorted, hperm, ?_, fun anchor hadj hall => ?_⟩
    · rw [← Bundle.sort_spokes_eq horder hadjacent hne (hproper.trans hspokes) hfirst
        (sort.perm hsort) hrest' hperm hsorted, hsort]
      rfl
    · rwa [le_antisymm (hall _ hanchor) (hneighbours _ hadj)]

end Star

section Around

variable (hpaired : ∀ e : Edge, g.edges.toList.count e = g.edges.toList.count e.reverse)
  (hclockwise : g.OrdersClockwise) (hnumeric : g.HasNumericVertices)

include hpaired hclockwise hnumeric

/-- Around every vertex, the sibling of each edge that leaves it turns to the next such edge. -/
theorem InOrder.exists_isClockwise {inIds : List Nat} (hin : g.InOrder inIds)
    {sort : ComparisonSort Spoke} {arrange : Star Nat → List Spoke}
    (harrange : g.Arranges inIds arrange)
    (hspokes : ∀ s ∈ routingStars g.edges inIds, s.spokes sort g.compass = .ok (arrange s))
    (v : Int) : ∃ outs, g.IsClockwise v outs ∧
      ∀ p ∈ (outs.map fun e => inIds.getD e 0).zip (outs.rotate 1),
        (g.routeBy arrange inIds).value.next? p.1 = some p.2 := by
  by_cases hstar : ∃ s ∈ routingStars g.edges inIds, s.center = v
  · obtain ⟨s, hs, rfl⟩ := hstar
    obtain ⟨sorted, hperm, heq, hsorted⟩ := exists_spokes_eq hin hs sort hclockwise hnumeric
    rw [hspokes s hs, Except.ok.injEq] at heq
    have hbundle : ∀ b ∈ sorted, b ∈ s.bundles.filter fun b => !b.edge.isDegenerate :=
      fun b hb => hperm.mem_iff.1 hb
    have hforward : ∀ b ∈ sorted, b.forward = g.edgeIds.filter fun e => g.edge e == b.edge :=
      fun b hb => forward_eq_filter hin hs (List.mem_of_mem_filter (hbundle b hb))
    have hedge : ∀ b ∈ sorted, ∀ e ∈ b.forward, g.edge e = b.edge := by
      intro b hb e he
      rw [hforward b hb] at he
      exact beq_iff_eq.1 (List.mem_filter.1 he).2
    have hpattern : (arrange s).map (fun a => (a.incoming, a.edge)) =
        (sorted.flatMap Bundle.forward).flatMap fun o =>
          [(false, o), (true, inIds.getD o 0)] := by
      rw [heq, List.map_flatMap, List.flatMap_assoc]
      refine List.flatMap_congr fun b hb => ?_
      rw [spokes_of_mem_bundles hpaired hin hs (hbundle b hb)]
      exact Spoke.alternate_map _ _ _ _
    refine ⟨sorted.flatMap Bundle.forward, ⟨?_, fun anchor hadj hall => ?_⟩, fun p hp => ?_⟩
    · have hids := hin.outgoingIds_perm hs (harrange s hs)
      have hall : sorted.filter (fun b => !b.edge.isDegenerate) = sorted :=
        List.filter_eq_self.2 fun b hb => (List.mem_filter.1 (hbundle b hb)).2
      rwa [heq, Bundle.outgoingIds_spokes, hall] at hids
    · refine List.pairwise_flatMap.2 ⟨fun b hb => ?_, (hsorted anchor hadj hall).imp_of_mem ?_⟩
      · have hlt : b.forward.Pairwise (· < ·) := by
          rw [hforward b hb]
          exact List.pairwise_lt_range.filter _
        refine hlt.imp_of_mem fun he hf hef => .inl ⟨?_, hef⟩
        rw [hedge b hb _ he, hedge b hb _ hf]
      · intro b c hb hc hbc e he f hf
        rw [hedge b hb e he, hedge c hc f hf]
        exact .inr hbc
    · rw [← Matching.turns_ofSpokes_siblings hpattern] at hp
      exact (hin.next?_routeBy harrange).2 ⟨s, hs, hp⟩
  · have hnone : g.departures v = [] := by
      refine List.eq_nil_iff_forall_not_mem.2 fun e he => ?_
      obtain ⟨he, horigin, -⟩ := mem_departures.1 he
      exact hstar (hin.exists_star_iff.2 ⟨e, he, .inl horigin⟩)
    exact ⟨[], ⟨hnone ▸ .refl _, fun _ _ _ => .nil⟩, by simp⟩

theorem exists_turns_around {sort : ComparisonSort Spoke} {r : Outcome Turns}
    (hroute : g.leftTurns sort = .ok r) (v : Int) :
    ∃ outs : List Nat, outs.Perm (g.departures v) ∧
      ∀ p ∈ (outs.map fun e => g.inEdgeIds.getD e 0).zip (outs.rotate 1),
        r.value.next? p.1 = some p.2 := by
  obtain ⟨arrange, harrange, hspokes, rfl⟩ := g.exists_routeBy g.inEdgeIds sort g.compass hroute
  obtain ⟨outs, houts, hturns⟩ :=
    g.inOrder_inEdgeIds.exists_isClockwise hpaired hclockwise hnumeric harrange hspokes v
  exact ⟨outs, houts.perm, hturns⟩

end Around

end Graph

end SnapGraph
