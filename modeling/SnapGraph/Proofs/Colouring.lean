import Mathlib
import SnapGraph.Proofs.Clockwise
import SnapGraph.Proofs.Complement

/-! When undirected edges form loops. Components can be split exactly if there are two colours that
follow the left turns and tell siblings apart. Where the compass orders neighbours, the colours of the
edges that leave a vertex alternate, so a vertex with an odd number of edges has no such colours. -/

namespace SnapGraph

namespace Turns

variable {turns : Turns} {sibling : Nat → Nat} {n : Nat} {c : Nat → Bool} {outs : List Nat}

/-- Where the sibling of each edge turns to the next one, the colours alternate. -/
theorem IsColouring.map_rotate (hc : turns.IsColouring sibling n c) (hlt : ∀ e ∈ outs, e < n)
    (hturns : ∀ p ∈ (outs.map sibling).zip (outs.rotate 1), turns.next? p.1 = some p.2) :
    (outs.rotate 1).map c = (outs.map c).map not := by
  refine List.ext_getElem (by simp) fun i hi hi' => ?_
  simp only [List.length_map, List.length_rotate] at hi
  simp only [List.getElem_map]
  have hzip : i < ((outs.map sibling).zip (outs.rotate 1)).length := by
    simpa using hi
  have hnext := hturns _ (List.getElem_mem hzip)
  rw [List.getElem_zip] at hnext
  have hcolour := hc.turns _ _ hnext
  rw [List.getElem_map] at hcolour
  rw [← hcolour]
  exact Bool.eq_not_of_ne (hc.siblings _ (hlt _ (List.getElem_mem hi)))

theorem IsColouring.even_length (hc : turns.IsColouring sibling n c) (hlt : ∀ e ∈ outs, e < n)
    (hturns : ∀ p ∈ (outs.map sibling).zip (outs.rotate 1), turns.next? p.1 = some p.2) :
    Even outs.length := by
  have hcount : (outs.map c).count true = (outs.map c).count false :=
    calc (outs.map c).count true = ((outs.rotate 1).map c).count true :=
        ((List.rotate_perm outs 1).map c).count_eq true |>.symm
      _ = ((outs.map c).map not).count (!false) := by
        rw [hc.map_rotate hlt hturns]
        rfl
      _ = (outs.map c).count false :=
        List.count_map_of_injective _ not Bool.not_injective false
  have hlength : (outs.map c).count true + (outs.map c).count false = outs.length := by
    rw [List.count_true_add_count_false, List.length_map]
  exact ⟨_, (hcount ▸ hlength).symm⟩

end Turns

namespace Graph

variable {g : Graph}

/-- Where the compass orders neighbours, an even number of edges leaves every vertex if there are two
colours that follow the left turns and tell siblings apart. -/
theorem even_outDegree_of_isColouring {sort : ComparisonSort Spoke} {r : Outcome Turns}
    (hroute : g.leftTurns sort = .ok r) (hproper : ∀ e < g.numEdges, (g.edge e).isDegenerate = false)
    (hpaired : ∀ e : Edge, g.edges.toList.count e = g.edges.toList.count e.reverse)
    (hclockwise : g.OrdersClockwise) (hnumeric : g.HasNumericVertices) {c : Nat → Bool}
    (hc : r.value.IsColouring (fun e => g.inEdgeIds.getD e 0) g.numEdges c) (v : Int) :
    Even (g.outDegree v) := by
  obtain ⟨outs, hperm, hturns⟩ := exists_turns_around hpaired hclockwise hnumeric hroute v
  have hlength : outs.length = g.outDegree v := by
    rw [hperm.length_eq, g.length_departures hproper, List.count, List.countP_map]
    rfl
  rw [← hlength]
  exact hc.even_length (fun e he => (mem_departures.1 (hperm.mem_iff.1 he)).1) hturns

/-- The search for components ends without an error exactly if there is a colouring. -/
theorem search_error?_eq_none_iff {sibling : Nat → Nat} {r : Outcome Turns} (hpairs : g.Pairs sibling)
    (hrouting : g.IsRouting r) (hnone : r.error? = none) :
    (g.search r.value sibling).error? = none ↔ ∃ c, r.value.IsColouring sibling g.numEdges c := by
  obtain ⟨left, hsearched⟩ := exists_searched hpairs hrouting hnone
  have hlt := hrouting.exists_next_iff hnone
  constructor
  · intro hok
    refine ⟨_, hsearched.isColouring (fun e f hf => ?_) (fun e he => (hlt e).2 he) hok⟩
    exact g.mem_edgeIds.2 ((hlt e).1 ⟨f, hf⟩)
  · rintro ⟨c, hc⟩
    exact hsearched.colours c hc

/-- Adding the components of an undirected graph, unless routing gives up: it succeeds exactly if the
edges have two colours that follow the left turns and tell siblings apart, and otherwise names an edge. -/
theorem addUndirected_iff_isColouring (sort : ComparisonSort Spoke) (g : Graph) (w : Workspace)
    (kind : LoopKind) (hundirected : g.options.isUndirected)
    (hdegenerates : g.options.degenerates ≠ .keep) (hknown : g.KnowsInputs)
    (hproper : ∀ e < g.numEdges, (g.edge e).isDegenerate = false)
    (hpaired : ∀ e : Edge, g.edges.toList.count e = g.edges.toList.count e.reverse) :
    g.GivesUp (w.addUndirected g kind sort) ∨ ∃ r components sibling error?,
      g.leftTurns sort = .ok r ∧ g.siblingOf = .ok sibling ∧
        w.addUndirected g kind sort =
          .ok ({ w with undirected := w.undirected ++ components }, error?) ∧
        (error? = none ↔ ∃ c, r.value.IsColouring sibling g.numEdges c) ∧
        (∀ err, error? = some err → ∃ e < g.numEdges, err = .siblingInSameComplement e) ∧
        (g.OrdersClockwise → g.HasNumericVertices → (∃ v, ¬Even (g.outDegree v)) →
          ∃ e < g.numEdges, error? = some (.siblingInSameComplement e)) := by
  rcases g.leftTurns_cases sort with ⟨hroute, hclockwise⟩ | ⟨r, hroute, -⟩
  · exact .inl ⟨addUndirected_of_error kind hundirected hdegenerates w hroute, hclockwise⟩
  obtain ⟨components, sibling, ids, hsibling, hpairs, -, hcomponents, -⟩ :=
    exists_undirectedComponents kind hundirected hdegenerates hroute hknown hproper hpaired
  obtain ⟨hrouting, hnone⟩ := isRouting_leftTurns_of_paired hroute hpaired hproper
  obtain ⟨left, hsearched⟩ := exists_searched hpairs hrouting hnone
  have hcolouring := search_error?_eq_none_iff hpairs hrouting hnone
  refine .inr ⟨r, components, sibling, _, hroute, hsibling, ?_, hcolouring, hsearched.names, ?_⟩
  · rw [Workspace.addUndirected, hcomponents]
    rfl
  · rintro hclockwise hnumeric ⟨v, hodd⟩
    have hguarantees := Options.guaranteesSiblings_of_isUndirected hundirected
    cases hsibling.symm.trans (siblingOf_of_proper hguarantees hproper)
    cases herror : (g.search r.value fun e => g.inEdgeIds.getD e 0).error? with
    | none =>
        obtain ⟨c, hc⟩ := hcolouring.1 herror
        exact absurd (even_outDegree_of_isColouring hroute hproper hpaired hclockwise hnumeric hc v) hodd
    | some err =>
        obtain ⟨e, he, rfl⟩ := hsearched.names err herror
        exact ⟨e, he, rfl⟩

/-- Three edges that leave one vertex, each with its sibling. -/
def tripod : Graph where
  options := { edgeType := .undirected, degenerates := .discard }
  vertices := #[⟨0, 0, 1⟩, ⟨1, 0, 0⟩, ⟨0, 1, 0⟩, ⟨-1, -1, 0⟩]
  edges := #[⟨0, 1⟩, ⟨0, 2⟩, ⟨0, 3⟩, ⟨1, 0⟩, ⟨2, 0⟩, ⟨3, 0⟩]
  inputHandles := #[0, 1, 2, 0, 1, 2]
  inputSets := .empty
  labelHandles := #[]
  labelSets := .empty
  valid := rfl

/-- The vertex with three edges is refused. -/
theorem addUndirected_iff_isColouring_tripod : ∃ r components sibling e,
    tripod.leftTurns .standard = .ok r ∧ tripod.siblingOf = .ok sibling ∧ e < tripod.numEdges ∧
      Workspace.addUndirected {} tripod .circuit =
        .ok ({ undirected := components }, some (.siblingInSameComplement e)) ∧
      ¬∃ c, r.value.IsColouring sibling tripod.numEdges c := by
  have hclockwise : tripod.OrdersClockwise := by decide +kernel
  have hnumeric : tripod.HasNumericVertices := by decide
  obtain hgives | ⟨r, components, sibling, error?, hroute, hsibling, hadd, hcolouring, -, hodd⟩ :=
    addUndirected_iff_isColouring .standard tripod {} .circuit rfl (by decide)
      (knowsInputs_of_singles (by decide)) (by decide) (tripod.map_reverse_perm_iff.1 (by decide))
  · exact absurd hclockwise hgives.2
  · obtain ⟨e, he, rfl⟩ := hodd hclockwise hnumeric ⟨0, by decide⟩
    exact ⟨r, components, sibling, e, hroute, hsibling, he, hadd,
      fun hc => Option.some_ne_none _ (hcolouring.2 hc)⟩

/-- Every edge of the star has its sibling, and yet no edge of it is coloured. -/
theorem not_iff_isColouring_collinearStar :
    ∃ g : Graph, g.options.isUndirected ∧ g.options.degenerates ≠ .keep ∧ g.KnowsInputs ∧
      (∀ e < g.numEdges, (g.edge e).isDegenerate = false) ∧
      (∀ e : Edge, g.edges.toList.count e = g.edges.toList.count e.reverse) ∧
      Workspace.addUndirected {} g .circuit = .error .inconsistentOrder :=
  ⟨collinearStar { edgeType := .undirected, degenerates := .discard }, rfl, by decide,
    knowsInputs_collinearStar _, proper_collinearStar _, paired_collinearStar _,
    addUndirected_of_error .circuit rfl (by decide) _ (leftTurns_collinearStar _)⟩

end Graph

end SnapGraph
