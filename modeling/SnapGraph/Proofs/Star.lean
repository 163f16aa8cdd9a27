import Mathlib
import SnapGraph.Proofs.Graph
import SnapGraph.Proofs.Matching

/-! The stars of a graph. Every vertex that an edge touches has one star, and the spokes of a star
are the proper edges at its center: those that leave and those that enter. -/

namespace SnapGraph

/-- The first degenerate edge of a star is its error, or else the earliest edge left over. -/
theorem Star.error?_eq (s : Star Nat) (m : Matching) : s.error? m =
    match ((s.bundles.filter fun b => b.edge.isDegenerate).flatMap Bundle.forward).head? with
    | some e => some (.degenerateEdge e)
    | none => m.unmatched.getLast?.map fun e : Nat => .unmatchedEdge e s.center := by
  have hfirst : ∀ bs : List (Bundle Nat),
      (bs.findSome? fun b => if b.edge.isDegenerate then b.forward.head?.map Int.ofNat else none) =
        ((bs.filter fun b => b.edge.isDegenerate).flatMap Bundle.forward).head?.map Int.ofNat := by
    intro bs
    induction bs with
    | nil => rfl
    | cons b bs ih =>
        rw [List.findSome?_cons, List.filter_cons, ih]
        by_cases hb : b.edge.isDegenerate
        · cases hforward : b.forward with
          | nil => simp [hb, hforward]
          | cons e forward => simp [hb, hforward]
        · simp [hb]
  have hlift : ∀ x : Option Nat, (do let a ← x; pure (a : Int)) = x.map Int.ofNat := by
    intro x
    cases x <;> rfl
  unfold Star.error?
  simp only [hlift, hfirst, Option.map_map]
  cases ((s.bundles.filter fun b => b.edge.isDegenerate).flatMap Bundle.forward).head? with
  | none => rfl
  | some e => rfl

namespace Graph

variable (g : Graph)

/-- The proper edges that leave a vertex. -/
def departures (v : Int) : List Nat :=
  g.edgeIds.filter fun e => (g.edge e).origin == v && !(g.edge e).isDegenerate

/-- The proper edges that enter a vertex. -/
def arrivals (v : Int) : List Nat :=
  g.edgeIds.filter fun e => (g.edge e).dest == v && !(g.edge e).isDegenerate

variable {g} in
theorem mem_departures {v : Int} {e : Nat} : e ∈ g.departures v ↔
    e < g.numEdges ∧ (g.edge e).origin = v ∧ (g.edge e).isDegenerate = false := by
  simp [departures, mem_edgeIds]

variable {g} in
theorem mem_arrivals {v : Int} {e : Nat} : e ∈ g.arrivals v ↔
    e < g.numEdges ∧ (g.edge e).dest = v ∧ (g.edge e).isDegenerate = false := by
  simp [arrivals, mem_edgeIds]

/-! ### The stars of a graph -/

def leaving : List (Tagged Nat) := g.edgeIds.map fun e => ⟨g.edge e, e⟩

def entering (inIds : List Nat) : List (Tagged Nat) := inIds.map fun e => ⟨(g.edge e).reverse, e⟩

theorem items_leaving (p : Edge → Bool) :
    (g.leaving.filter fun t => p t.edge).map Tagged.item =
      g.edgeIds.filter fun e => p (g.edge e) := by
  rw [leaving, List.filter_map, List.map_map]
  exact List.map_id _

theorem items_entering (p : Edge → Bool) (inIds : List Nat) :
    ((g.entering inIds).filter fun t => p t.edge).map Tagged.item =
      inIds.filter fun e => p (g.edge e).reverse := by
  rw [entering, List.filter_map, List.map_map]
  exact List.map_id _

theorem exists_leaving_iff {f : Edge} :
    (∃ t ∈ g.leaving, t.edge = f) ↔ ∃ e < g.numEdges, g.edge e = f := by
  simp [leaving, mem_edgeIds]

theorem pairwise_leaving : g.leaving.Pairwise (·.edge ≤ ·.edge) := by
  have h := g.pairwise_edges
  rw [← map_edge_edgeIds, List.pairwise_map] at h
  exact List.pairwise_map.2 h

theorem zipIdx_edges :
    (g.edges.toList.zipIdx.map fun (e, i) => (⟨e, i⟩ : Tagged Nat)) = g.leaving := by
  apply List.ext_getElem (by simp [leaving, edgeIds, numEdges])
  intro i h _
  have hi : i < g.numEdges := by simpa [numEdges] using h
  simp only [leaving, edgeIds, List.getElem_map, List.getElem_zipIdx, List.getElem_range,
    Nat.zero_add, g.edge_eq_getElem hi]
  rfl

theorem routingStars_eq (inIds : List Nat) :
    routingStars g.edges inIds = Star.ofBundles (Bundle.merge g.leaving (g.entering inIds)) := by
  unfold routingStars
  rw [zipIdx_edges]
  rfl

section InOrder

variable {g} {inIds : List Nat} (h : g.InOrder inIds)

include h

theorem InOrder.exists_entering_iff {f : Edge} :
    (∃ t ∈ g.entering inIds, t.edge = f) ↔ ∃ e < g.numEdges, (g.edge e).reverse = f := by
  simp [entering, h.mem_iff]

theorem InOrder.pairwise_entering : (g.entering inIds).Pairwise (·.edge ≤ ·.edge) :=
  List.pairwise_map.2 h.sorted

theorem InOrder.pairwise_merge :
    (Bundle.merge g.leaving (g.entering inIds)).Pairwise (·.edge.origin ≤ ·.edge.origin) := by
  refine (Bundle.pairwise_merge g.pairwise_leaving h.pairwise_entering).imp fun hab => ?_
  rw [Edge.lt_def] at hab
  omega

/-- The vertices of the stars ascend. -/
theorem InOrder.pairwise_stars : (routingStars g.edges inIds).Pairwise (·.center < ·.center) := by
  rw [routingStars_eq]
  exact Star.pairwise_ofBundles h.pairwise_merge

theorem InOrder.star_eq {s t : Star Nat} (hs : s ∈ routingStars g.edges inIds)
    (ht : t ∈ routingStars g.edges inIds) (hcenter : s.center = t.center) : s = t := by
  have hnodup : ((routingStars g.edges inIds).map Star.center).Nodup :=
    (List.pairwise_map.2 h.pairwise_stars).imp ne_of_lt
  exact List.inj_on_of_nodup_map hnodup hs ht hcenter

/-- Every vertex that an edge touches has a star. -/
theorem InOrder.exists_star_iff {v : Int} : (∃ s ∈ routingStars g.edges inIds, s.center = v) ↔
    ∃ e < g.numEdges, (g.edge e).origin = v ∨ (g.edge e).dest = v := by
  rw [routingStars_eq, Star.exists_center_iff]
  constructor
  · rintro ⟨b, hb, rfl⟩
    rcases Bundle.exists_mem_merge_iff.1 ⟨b, hb, rfl⟩ with hout | hin
    · obtain ⟨e, he, hedge⟩ := g.exists_leaving_iff.1 hout
      exact ⟨e, he, .inl (congrArg Edge.origin hedge)⟩
    · obtain ⟨e, he, hedge⟩ := h.exists_entering_iff.1 hin
      exact ⟨e, he, .inr (congrArg Edge.origin hedge)⟩
  · rintro ⟨e, he, rfl | rfl⟩
    · obtain ⟨b, hb, hedge⟩ := Bundle.exists_mem_merge_iff.2
        (.inl (g.exists_leaving_iff.2 ⟨e, he, rfl⟩))
      exact ⟨b, hb, congrArg Edge.origin hedge⟩
    · obtain ⟨b, hb, hedge⟩ := Bundle.exists_mem_merge_iff.2
        (.inr (h.exists_entering_iff.2 ⟨e, he, rfl⟩))
      exact ⟨b, hb, congrArg Edge.origin hedge⟩

theorem InOrder.bundles_eq {s : Star Nat} (hs : s ∈ routingStars g.edges inIds) :
    s.bundles = (Bundle.merge g.leaving (g.entering inIds)).filter fun b =>
      b.edge.origin == s.center := by
  rw [routingStars_eq] at hs
  exact Star.bundles_eq_filter h.pairwise_merge hs

theorem InOrder.flatMap_forward {s : Star Nat} (hs : s ∈ routingStars g.edges inIds)
    (p : Edge → Bool) : (s.bundles.filter fun b => p b.edge).flatMap Bundle.forward =
      g.edgeIds.filter fun e => (g.edge e).origin == s.center && p (g.edge e) := by
  rw [h.bundles_eq hs, List.filter_filter]
  simp only [Bool.and_comm (p _)]
  refine (Bundle.flatMap_forward_merge (fun e => e.origin == s.center && p e) _ _).trans ?_
  exact g.items_leaving fun e => e.origin == s.center && p e

theorem InOrder.flatMap_backward {s : Star Nat} (hs : s ∈ routingStars g.edges inIds)
    (p : Edge → Bool) : (s.bundles.filter fun b => p b.edge).flatMap Bundle.backward =
      inIds.filter fun e => (g.edge e).dest == s.center && p (g.edge e).reverse := by
  rw [h.bundles_eq hs, List.filter_filter]
  simp only [Bool.and_comm (p _)]
  refine (Bundle.flatMap_backward_merge (fun e => e.origin == s.center && p e) _ _).trans ?_
  exact g.items_entering (fun e => e.origin == s.center && p e) inIds

theorem InOrder.head?_degenerate {s : Star Nat} (hs : s ∈ routingStars g.edges inIds) :
    ((s.bundles.filter fun b => b.edge.isDegenerate).flatMap Bundle.forward).head? =
      g.edgeIds.find? fun e => g.edge e == ⟨s.center, s.center⟩ := by
  rw [h.flatMap_forward hs fun e => e.isDegenerate, List.head?_filter]
  refine congrArg (List.find? · _) (funext fun e => ?_)
  rw [Bool.eq_iff_iff, Bool.and_eq_true, beq_iff_eq, beq_iff_eq, Edge.isDegenerate_iff,
    Edge.ext_iff']
  constructor
  · rintro ⟨horigin, hdest⟩
    exact ⟨horigin, hdest.symm.trans horigin⟩
  · rintro ⟨horigin, hdest⟩
    exact ⟨horigin, horigin.trans hdest.symm⟩

/-- The spokes of a star, in whatever order, are the proper edges at its center. -/
theorem InOrder.outgoingIds_perm {s : Star Nat} (hs : s ∈ routingStars g.edges inIds)
    {spokes : List Spoke} (hspokes : spokes.Perm (s.bundles.flatMap Bundle.spokes)) :
    (Spoke.outgoingIds spokes).Perm (g.departures s.center) := by
  refine (Spoke.outgoingIds_perm hspokes).trans ?_
  rw [Bundle.outgoingIds_spokes, h.flatMap_forward hs fun e => !e.isDegenerate]
  exact .refl _

theorem InOrder.incomingIds_perm {s : Star Nat} (hs : s ∈ routingStars g.edges inIds)
    {spokes : List Spoke} (hspokes : spokes.Perm (s.bundles.flatMap Bundle.spokes)) :
    (Spoke.incomingIds spokes).Perm (g.arrivals s.center) := by
  refine (Spoke.incomingIds_perm hspokes).trans ?_
  rw [Bundle.incomingIds_spokes, h.flatMap_backward hs fun e => !e.isDegenerate]
  refine (h.perm.filter _).trans (.of_eq ?_)
  apply List.filter_congr
  intro e _
  rw [Edge.isDegenerate_reverse]

end InOrder

end Graph

end SnapGraph
