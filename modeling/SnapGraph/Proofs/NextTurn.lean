import Mathlib
import SnapGraph.Proofs.Clockwise

/-! The turn of an edge. Where edges between two vertices have siblings, an edge that enters a vertex
turns to the edge after its sibling, in the clockwise order of the edges that leave the vertex. This
holds beside degenerate edges too, which have no place in that order, and for either list of edge ids
that routing may be given. -/

namespace SnapGraph

namespace Graph

variable {g : Graph}

/-! ### One clockwise order -/

theorem adjacent_of_mem_departures {v : Int} {e : Nat} (he : e ∈ g.departures v) :
    g.Adjacent v (g.edge e).dest := by
  obtain ⟨hlt, rfl, hproper⟩ := mem_departures.1 he
  refine ⟨fun heq => ?_, e, hlt, .inl rfl⟩
  rw [Edge.isDegenerate_iff.2 heq] at hproper
  cases hproper

theorem Adjacent.exists_least {v w : Int} (h : g.Adjacent v w) :
    ∃ anchor, g.Adjacent v anchor ∧ ∀ w, g.Adjacent v w → anchor ≤ w :=
  Int.exists_least_of_bdd ⟨0, fun _ hw => (g.mem_vertexIds.1 hw.mem_vertexIds).1⟩ ⟨w, h⟩

/-- Where the compass orders neighbours, the edges that leave a vertex have one clockwise order. -/
theorem IsClockwise.unique (hclockwise : g.OrdersClockwise) {v : Int} {outs outs' : List Nat}
    (h : g.IsClockwise v outs) (h' : g.IsClockwise v outs') : outs' = outs := by
  cases hnone : g.departures v with
  | nil =>
      have hperm := h.perm
      have hperm' := h'.perm
      rw [hnone] at hperm hperm'
      rw [hperm.eq_nil, hperm'.eq_nil]
  | cons e rest =>
      have he : e ∈ g.departures v := hnone ▸ List.mem_cons_self
      obtain ⟨anchor, hanchor, hleast⟩ := (adjacent_of_mem_departures he).exists_least
      have horders := hclockwise v anchor hanchor hleast
      have hadjacent : ∀ e ∈ outs', g.Adjacent v (g.edge e).dest := fun e he =>
        adjacent_of_mem_departures (h'.perm.mem_iff.1 he)
      have hperm := h'.perm.trans h.perm.symm
      refine hperm.eq_of_pairwise (fun a b ha hb hab hba => ?_) (h'.sorted anchor hanchor hleast)
        (h.sorted anchor hanchor hleast)
      have ha := hadjacent a ha
      have hb := hadjacent b (hperm.mem_iff.2 hb)
      rcases hab with ⟨hdest, hab⟩ | hab
      · rcases hba with ⟨-, hba⟩ | hba
        · omega
        · exact absurd (hdest ▸ hba) (horders.irrefl _ hb)
      · rcases hba with ⟨hdest, -⟩ | hba
        · exact absurd (hdest ▸ hab) (horders.irrefl _ hb)
        · exact absurd (horders.trans _ _ _ ha hb ha hab hba) (horders.irrefl _ ha)

/-! ### The edge after the sibling -/

/-- Around a vertex, the sibling of an edge turns to the next edge. -/
theorem next?_sibling_getElem {turns : Turns} {sibling : Nat → Nat} {outs : List Nat}
    (hturns : ∀ p ∈ (outs.map sibling).zip (outs.rotate 1), turns.next? p.1 = some p.2) {i : Nat}
    (hi : i < outs.length) : turns.next? (sibling outs[i]) = outs[(i + 1) % outs.length]? := by
  have hzip : i < ((outs.map sibling).zip (outs.rotate 1)).length := by
    simpa using hi
  have hnext := hturns _ (List.getElem_mem hzip)
  rw [List.getElem_zip, List.getElem_map, List.getElem_rotate] at hnext
  rw [hnext, List.getElem?_eq_getElem]

section Paired

variable (hpaired : ∀ e : Edge, g.edges.toList.count e = g.edges.toList.count e.reverse)

include hpaired

theorem getD_inEdgeIds_mem_departures {v : Int} {e : Nat} (he : e ∈ g.arrivals v) :
    g.inEdgeIds.getD e 0 ∈ g.departures v := by
  obtain ⟨hlt, hdest, hproper⟩ := mem_arrivals.1 he
  rw [mem_departures, g.inOrder_inEdgeIds.edge_getD hpaired hlt, Edge.isDegenerate_reverse]
  exact ⟨g.inOrder_inEdgeIds.getD_lt hlt, hdest, hproper⟩

/-- An edge that enters a vertex turns to the edge after its sibling. -/
theorem next?_eq_getElem? {inIds outs : List Nat} {turns : Turns} {v : Int}
    (hsame : ∀ e < g.numEdges, (g.edge e).isDegenerate = false →
      inIds.getD e 0 = g.inEdgeIds.getD e 0)
    (houts : outs.Perm (g.departures v))
    (hturns : ∀ p ∈ (outs.map fun e => inIds.getD e 0).zip (outs.rotate 1),
      turns.next? p.1 = some p.2) {e : Nat} (he : e ∈ g.arrivals v) :
    ∃ i, outs[i]? = some (g.inEdgeIds.getD e 0) ∧
      turns.next? e = outs[(i + 1) % outs.length]? := by
  have hmem := getD_inEdgeIds_mem_departures hpaired he
  obtain ⟨i, hi, hget⟩ := List.mem_iff_getElem.1 (houts.mem_iff.2 hmem)
  obtain ⟨hlt, -, hproper⟩ := mem_departures.1 hmem
  have hback : inIds.getD outs[i] 0 = e := by
    rw [hget, hsame _ hlt hproper]
    exact getD_getD_inEdgeIds hpaired (mem_arrivals.1 he).1
  refine ⟨i, hget ▸ List.getElem?_eq_getElem hi, ?_⟩
  rw [← next?_sibling_getElem hturns hi, hback]

end Paired

/-- The next place around is the same place only if there is no other. -/
theorem getElem?_succ_mod_eq_iff {outs : List Nat} (hnodup : outs.Nodup) {i s : Nat}
    (hs : outs[i]? = some s) : outs[(i + 1) % outs.length]? = some s ↔ outs.length = 1 := by
  obtain ⟨hi, rfl⟩ := List.getElem?_eq_some_iff.1 hs
  have hmod : (i + 1) % outs.length < outs.length := Nat.mod_lt _ (by omega)
  rw [List.getElem?_eq_getElem hmod, Option.some.injEq, hnodup.getElem_inj_iff]
  constructor
  · intro heq
    by_contra hne
    by_cases hlast : i + 1 = outs.length
    · rw [hlast, Nat.mod_self] at heq
      omega
    · rw [Nat.mod_eq_of_lt (by omega)] at heq
      omega
  · intro hone
    rw [hone, Nat.mod_one]
    omega

/-- Where edges have siblings and the compass orders neighbours, routing sends each edge that enters a
vertex to the edge after its sibling, in the clockwise order of the edges that leave the vertex. So it
turns onto its own sibling only if no other edge leaves. -/
theorem routeLeft_turnsAround (sort : ComparisonSort Spoke) (g : Graph) (w : Workspace)
    {ids : List Int}
    (hguarantees : g.options.guaranteesSiblings)
    (hpaired : ∀ e : Edge, g.edges.toList.count e = g.edges.toList.count e.reverse)
    (heven : g.options.isUndirected → ∀ v, g.edges.toList.count ⟨v, v⟩ % 2 = 0)
    (hclockwise : g.OrdersClockwise) (hnumeric : g.HasNumericVertices)
    (hids : ids = g.inEdgeIds.map Int.ofNat ∨ g.siblingMap = .ok ids) :
    ∃ turns error? sibling, w.routeLeft g (some ids) sort = .ok ({ w with turns }, error?) ∧
      g.siblingOf = .ok sibling ∧
      ∀ v, ∃ outs, g.IsClockwise v outs ∧ (∀ outs', g.IsClockwise v outs' → outs' = outs) ∧
        ∀ e ∈ g.arrivals v,
          (∃ i, outs[i]? = some (sibling e) ∧
            turns.next? e = outs[(i + 1) % outs.length]?) ∧
          (turns.next? e = some (sibling e) ↔ (g.departures v).length = 1) := by
  obtain ⟨siblings, hmap, hin, hsame, -, -⟩ :=
    g.exists_siblingMap_of_even hguarantees hpaired heven
  obtain ⟨inIds, rfl, hin, hsame'⟩ : ∃ inIds : List Nat, ids = inIds.map Int.ofNat ∧
      g.InOrder inIds ∧ ∀ e < g.numEdges, (g.edge e).isDegenerate = false →
        inIds.getD e 0 = g.inEdgeIds.getD e 0 := by
    rcases hids with rfl | hids
    · exact ⟨g.inEdgeIds, rfl, g.inOrder_inEdgeIds, fun _ _ _ => rfl⟩
    · cases hmap.symm.trans hids
      exact ⟨siblings, rfl, hin, hsame⟩
  obtain ⟨arrange, harrange, hspokes, hstep⟩ :=
    (hin.routeLeft_cases sort w).resolve_left fun hgives => hgives.2 hclockwise
  refine ⟨(g.routeBy arrange inIds).value, (g.routeBy arrange inIds).error?, _, hstep,
    siblingOf_of_siblingMap hmap, fun v => ?_⟩
  obtain ⟨outs, houts, hturns⟩ :=
    hin.exists_isClockwise hpaired hclockwise hnumeric harrange hspokes v
  refine ⟨outs, houts, fun _ => IsClockwise.unique hclockwise houts, fun e he => ?_⟩
  obtain ⟨hlt, -, hproper⟩ := mem_arrivals.1 he
  obtain ⟨i, hsibling, hnext⟩ := next?_eq_getElem? hpaired hsame' houts.perm hturns he
  rw [← hsame e hlt hproper] at hsibling
  refine ⟨⟨i, hsibling, hnext⟩, ?_⟩
  have hnodup : outs.Nodup := houts.perm.nodup_iff.2 (g.nodup_edgeIds.filter _)
  rw [hnext, getElem?_succ_mod_eq_iff hnodup hsibling, houts.perm.length_eq]

/-- Three edges that leave one vertex, each with its sibling, beside a pair of degenerate edges. -/
def tripodAndLoops : Graph where
  options := { edgeType := .undirected }
  vertices := #[⟨0, 0, 1⟩, ⟨1, 0, 0⟩, ⟨0, 1, 0⟩, ⟨-1, -1, 0⟩]
  edges := #[⟨0, 0⟩, ⟨0, 0⟩, ⟨0, 1⟩, ⟨0, 2⟩, ⟨0, 3⟩, ⟨1, 0⟩, ⟨2, 0⟩, ⟨3, 0⟩]
  inputHandles := #[3, 4, 0, 1, 2, 0, 1, 2]
  inputSets := .empty
  labelHandles := #[]
  labelSets := .empty
  valid := rfl

theorem routeLeft_turnsAround_tripodAndLoops : ∃ turns error? sibling,
    Workspace.routeLeft {} tripodAndLoops (some [1, 0, 5, 6, 7, 2, 3, 4]) =
        .ok ({ turns }, error?) ∧
      tripodAndLoops.siblingOf = .ok sibling ∧
      ∀ v, ∃ outs, tripodAndLoops.IsClockwise v outs ∧
        (∀ outs', tripodAndLoops.IsClockwise v outs' → outs' = outs) ∧
        ∀ e ∈ tripodAndLoops.arrivals v,
          (∃ i, outs[i]? = some (sibling e) ∧
            turns.next? e = outs[(i + 1) % outs.length]?) ∧
          (turns.next? e = some (sibling e) ↔ (tripodAndLoops.departures v).length = 1) := by
  have hclockwise : tripodAndLoops.OrdersClockwise := by decide +kernel
  have heven : ∀ v : Int, tripodAndLoops.edges.toList.count ⟨v, v⟩ % 2 = 0 := by
    intro v
    by_cases hv : v = 0
    · subst hv
      rfl
    · rw [List.count_eq_zero.2]
      simp [tripodAndLoops, hv]
  exact routeLeft_turnsAround .standard tripodAndLoops {} rfl
    (tripodAndLoops.map_reverse_perm_iff.1 (by decide)) (fun _ => heven) hclockwise (by decide)
    (.inr (by cbv))

end Graph

end SnapGraph
