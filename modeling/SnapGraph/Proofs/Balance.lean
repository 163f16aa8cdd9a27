import Mathlib
import SnapGraph.Proofs.Build
import SnapGraph.Proofs.Loop

/-! When directed input edges form loops. Cancelling an edge against its sibling takes away one edge that
leaves and one that arrives at either end, so the edges that are left balance at a vertex exactly if the
input edges do, and then, and only then, every edge has a left turn. -/

namespace SnapGraph

/-- At every vertex as many edges between two vertices arrive as leave. -/
def EdgesBalance (edges : List Edge) : Prop := ∀ v : Int,
  (edges.countP fun e => e.dest == v && !e.isDegenerate) =
    edges.countP fun e => e.origin == v && !e.isDegenerate

/-! ### Cancelling -/

/-- The edges between two vertices. -/
def properEdges (edges : List Edge) : List Edge := edges.filter fun e => !e.isDegenerate

theorem count_properEdges (edges : List Edge) (e : Edge) :
    (properEdges edges).count e = if e.isDegenerate then 0 else edges.count e := by
  cases hdegenerate : e.isDegenerate with
  | true =>
      rw [if_pos rfl, List.count_eq_zero, properEdges, List.mem_filter, hdegenerate]
      exact fun hmem => nomatch hmem.2
  | false =>
      rw [if_neg Bool.false_ne_true, properEdges, List.count_filter]
      rw [hdegenerate]
      rfl

theorem edgesBalance_iff {edges : List Edge} : EdgesBalance edges ↔ ∀ v : Int,
    ((properEdges edges).countP fun e => e.dest == v) =
      (properEdges edges).countP fun e => e.origin == v := by
  simp only [EdgesBalance, properEdges, List.countP_filter]

/-- Edges balance like others if every edge between two vertices exceeds its reverse by as much as
there. -/
theorem edgesBalance_congr {edges inputs : List Edge}
    (h : ∀ e : Edge, e.isDegenerate = false →
      edges.count e + inputs.count e.reverse = edges.count e.reverse + inputs.count e) :
    EdgesBalance edges ↔ EdgesBalance inputs := by
  have hperm : (properEdges edges ++ (properEdges inputs).map Edge.reverse).Perm
      ((properEdges edges).map Edge.reverse ++ properEdges inputs) := by
    refine List.perm_iff_count.2 fun e => ?_
    rw [List.count_append, List.count_append, Edge.count_map_reverse, Edge.count_map_reverse]
    simp only [count_properEdges, Edge.isDegenerate_reverse]
    cases hdegenerate : e.isDegenerate with
    | true => rfl
    | false => exact h e hdegenerate
  have hcount : ∀ v : Int,
      ((properEdges edges).countP fun e => e.origin == v) +
          ((properEdges inputs).countP fun e => e.dest == v) =
        ((properEdges edges).countP fun e => e.dest == v) +
          (properEdges inputs).countP fun e => e.origin == v := by
    intro v
    have hleave := hperm.countP_eq fun e => e.origin == v
    rw [List.countP_append, List.countP_append, List.countP_map, List.countP_map] at hleave
    exact hleave
  rw [edgesBalance_iff, edgesBalance_iff]
  refine forall_congr' fun v => ?_
  have := hcount v
  omega

/-! ### Loops of balanced edges -/

namespace Graph

variable (g : Graph)

/-- Counting edges by their ids. -/
theorem countP_edges (p : Edge → Bool) :
    g.edges.toList.countP p = (g.edgeIds.filter fun e => p (g.edge e)).length := by
  rw [← g.map_edge_edgeIds, List.countP_map, List.countP_eq_length_filter]
  rfl

theorem edgesBalance_iff_length : EdgesBalance g.edges.toList ↔
    ∀ v, (g.arrivals v).length = (g.departures v).length := by
  simp only [EdgesBalance, countP_edges]
  rfl

/-- Where the edges between two vertices are all there are, routing succeeds exactly if they balance. -/
theorem IsRouting.error?_eq_none_iff_edgesBalance {g : Graph} {r : Outcome Turns} (h : g.IsRouting r)
    (hproper : ∀ e < g.numEdges, (g.edge e).isDegenerate = false) :
    r.error? = none ↔ EdgesBalance g.edges.toList := by
  refine h.error?_eq_none_iff.trans ?_
  rw [and_iff_right hproper]
  exact g.edgesBalance_iff_length.symm

/-- Loops are added if routing succeeds, and an error is passed on if it does not. -/
theorem addLoops_iff_error?_eq_none (sort : ComparisonSort Spoke) (w : Workspace) (kind : LoopKind)
    (hdirected : g.options.isDirected) (hdegenerates : g.options.degenerates ≠ .keep)
    (hknown : g.KnowsInputs) : g.GivesUp (w.addLoops g kind sort) ∨ ∃ r, g.IsRouting r ∧
      ((∃ loops, w.addLoops g kind sort = .ok ({ w with loops := w.loops ++ loops }, none)) ↔
        r.error? = none) ∧
      ((∃ err, w.addLoops g kind sort = .ok (w, some err)) ↔ ¬r.error? = none) := by
  refine (addLoops_cases sort g w kind hdirected hdegenerates hknown).imp_right ?_
  rintro ⟨r, -, hrouting, herror, hloops⟩
  refine ⟨r, hrouting, ?_⟩
  cases herr : r.error? with
  | none =>
      obtain ⟨loops, -, -, hadd, -⟩ := hloops herr
      refine ⟨iff_of_true ⟨loops, hadd⟩ rfl, iff_of_false ?_ (not_not.2 rfl)⟩
      rintro ⟨err, hfail⟩
      rw [hadd] at hfail
      cases congrArg Prod.snd (Except.ok.inj hfail)
  | some err =>
      have hfail := herror err herr
      refine ⟨iff_of_false ?_ (Option.some_ne_none err),
        iff_of_true ⟨err, hfail⟩ (Option.some_ne_none err)⟩
      rintro ⟨loops, hadd⟩
      rw [hfail] at hadd
      cases congrArg Prod.snd (Except.ok.inj hadd)

end Graph

section Built

variable {o : Options} {vertices : Array Point} {inputs : List Edge} {labels : List (List Int)}
  {c : Cleaned} {l : Layer} (hdirected : o.edgeType = .directed)
  (hdegenerates : o.degenerates = .discard) (hduplicates : o.duplicates = .keep)
  (hsiblings : o.siblings = .keep ∨ o.siblings = .discard)

include hdirected hduplicates hsiblings

omit hduplicates hsiblings in
theorem Layer.IsBuilt.count_of_proper (h : Layer.IsBuilt o vertices inputs labels c l) {e : Edge}
    (hproper : e.isDegenerate = false) : l.edges.toList.count e =
      o.properCopies (inputs.count e) (inputs.count e.reverse) := by
  have hundirected : o.isUndirected = false := by
    rw [Options.isUndirected, hdirected]
    rfl
  rw [h.count, Options.copiesLeft, hproper, if_neg Bool.false_ne_true,
    count_startRows_of_proper hproper,
    count_startRows_of_proper (e.isDegenerate_reverse.trans hproper), hundirected]
  rfl

/-- Keeping or cancelling siblings, cleaning leaves the excess of an edge over its reverse as it was. -/
theorem Layer.IsBuilt.edgesBalance_iff (h : Layer.IsBuilt o vertices inputs labels c l) :
    EdgesBalance l.edges.toList ↔ EdgesBalance inputs := by
  have hundirected : o.isUndirected = false := by
    rw [Options.isUndirected, hdirected]
    rfl
  have hmerges : o.duplicates ≠ .merge := by
    rw [hduplicates]
    decide
  refine edgesBalance_congr fun e hproper => ?_
  rw [h.count_of_proper hdirected hproper,
    h.count_of_proper hdirected (e.isDegenerate_reverse.trans hproper), Edge.reverse_reverse]
  unfold Options.properCopies Options.capped
  rcases hsiblings with hs | hs
  · simp only [hs, if_neg hmerges]
    omega
  · simp only [hs, hundirected, Bool.false_eq_true, if_false, if_neg hmerges]
    omega

include hdegenerates

omit hsiblings in
/-- Edges between two vertices that are all kept and in order stay as they are. -/
theorem Layer.IsBuilt.edges_eq_inputs (h : Layer.IsBuilt o vertices inputs labels c l)
    (hkeep : o.siblings = .keep) (hproper : ∀ e ∈ inputs, e.isDegenerate = false)
    (hsorted : inputs.Pairwise (· ≤ ·)) :
    l.edges.toList = inputs := by
  have hdiscard : l.options.degenerates = .discard := by
    rw [h.options_eq, Options.degenerates_afterCleaning, hdegenerates]
  have hperm : l.edges.toList.Perm inputs := by
    refine List.perm_iff_count.2 fun e => ?_
    cases hdegenerate : e.isDegenerate with
    | true =>
        have hleft : e ∉ l.edges.toList := fun he => by
          rw [h.isClean.proper hdiscard e he] at hdegenerate
          cases hdegenerate
        have hinputs : e ∉ inputs := fun he => by
          rw [hproper e he] at hdegenerate
          cases hdegenerate
        rw [List.count_eq_zero.2 hleft, List.count_eq_zero.2 hinputs]
    | false =>
        rw [h.count_of_proper hdirected hdegenerate]
        simp [Options.properCopies, Options.capped, hkeep, hduplicates]
  refine hperm.eq_of_pairwise (fun a b _ _ => Edge.le_antisymm) ?_ hsorted
  exact (⟨l, h.check⟩ : Graph).pairwise_edges

/-- Directed input forms loops, whether siblings are kept or cancel, exactly if at every vertex as many
edges arrive as leave, unless routing gives up. -/
theorem Layer.addLoops_iff_edgesBalance (sort : ComparisonSort Spoke) (vertices : Array Point)
    (hrange : ∀ e ∈ inputs, e.inRange vertices.size) :
    ∃ l g, build o vertices inputs [] = .ok l ∧ l.graph = .ok g ∧
      ∀ (w : Workspace) (kind : LoopKind), g.GivesUp (w.addLoops g kind sort) ∨
        ((∃ loops, w.addLoops g kind sort = .ok ({ w with loops := w.loops ++ loops }, none)) ↔
          EdgesBalance inputs) ∧
        ((∃ err, w.addLoops g kind sort = .ok (w, some err)) ↔ ¬EdgesBalance inputs) := by
  have hpresent : ¬o.MissesSiblings inputs := by
    rintro ⟨hrequire, -⟩
    rw [hrequire] at hsiblings
    rcases hsiblings with hs | hs
    · cases hs
    · cases hs
  have hlabels : ∀ set ∈ ([] : List (List Int)), ∀ label ∈ set, 0 ≤ label := List.forall_mem_nil _
  obtain ⟨l, c, hbuild, hbuilt⟩ := exists_isBuilt hrange hpresent hlabels
  let g : Graph := ⟨l, hbuilt.check⟩
  have hafter : g.options = o := by
    refine hbuilt.options_eq.trans ?_
    unfold Options.afterCleaning
    rcases hsiblings with hs | hs
    · simp [hs, SiblingPolicy.pairsUp]
    · simp [hs, SiblingPolicy.pairsUp]
  have hgdirected : g.options.isDirected := by
    rw [hafter, Options.isDirected, hdirected]
    rfl
  have hgdegenerates : g.options.degenerates = .discard := hafter ▸ hdegenerates
  have hproper : ∀ e < g.numEdges, (g.edge e).isDegenerate = false := fun e he =>
    hbuilt.isClean.proper hgdegenerates _ (g.edge_mem he)
  have hinputs := hbuilt.edgesBalance_iff hdirected hduplicates hsiblings
  refine ⟨l, g, hbuild, graph_eq hbuilt.check, fun w kind => ?_⟩
  have hgkeep : g.options.degenerates ≠ .keep := by
    rw [hgdegenerates]
    decide
  refine (g.addLoops_iff_error?_eq_none sort w kind hgdirected hgkeep hbuilt.knowsInputs).imp_right ?_
  rintro ⟨r, hrouting, hadds, hreports⟩
  have hnone := (hrouting.error?_eq_none_iff_edgesBalance hproper).trans hinputs
  exact ⟨hadds.trans hnone, hreports.trans (not_congr hnone)⟩

end Built

/-- A triangle, one of whose edges is snapped again in both directions, and a loop. -/
theorem Layer.addLoops_iff_edgesBalance_triangle : ∃ l g,
    build { degenerates := .discard, siblings := .discard } #[default, default, default]
        [⟨0, 1⟩, ⟨1, 2⟩, ⟨2, 0⟩, ⟨1, 0⟩, ⟨0, 1⟩, ⟨2, 2⟩] [] = .ok l ∧ l.graph = .ok g ∧
      ∀ (w : Workspace) (kind : LoopKind),
        ∃ loops, w.addLoops g kind = .ok ({ w with loops := w.loops ++ loops }, none) := by
  have hbalance : EdgesBalance [⟨0, 1⟩, ⟨1, 2⟩, ⟨2, 0⟩, ⟨1, 0⟩, ⟨0, 1⟩, ⟨2, 2⟩] := by
    have hends : ([⟨0, 1⟩, ⟨1, 2⟩, ⟨2, 0⟩, ⟨1, 0⟩, ⟨0, 1⟩].map Edge.dest).Perm
        ([⟨0, 1⟩, ⟨1, 2⟩, ⟨2, 0⟩, ⟨1, 0⟩, ⟨0, 1⟩].map Edge.origin) := by decide
    refine edgesBalance_iff.2 fun v => ?_
    have hcount := hends.countP_eq fun w => w == v
    rw [List.countP_map, List.countP_map] at hcount
    exact hcount
  have hrange : ∀ e ∈ ([⟨0, 1⟩, ⟨1, 2⟩, ⟨2, 0⟩, ⟨1, 0⟩, ⟨0, 1⟩, ⟨2, 2⟩] : List Edge),
      e.inRange (#[default, default, default] : Array Point).size := by decide
  obtain ⟨l, g, hbuild, hgraph, hloops⟩ := addLoops_iff_edgesBalance
    (o := { degenerates := .discard, siblings := .discard }) rfl rfl rfl (.inr rfl) .standard
    #[default, default, default] hrange
  have hclockwise : (do
      let l ← build { degenerates := .discard, siblings := .discard } #[default, default, default]
        [⟨0, 1⟩, ⟨1, 2⟩, ⟨2, 0⟩, ⟨1, 0⟩, ⟨0, 1⟩, ⟨2, 2⟩] []
      let g ← liftFault l.graph
      return decide g.OrdersClockwise) = .ok true := by cbv
  rw [hbuild, ok_bind, hgraph, liftFault_ok, ok_bind] at hclockwise
  have hclockwise := of_decide_eq_true (Except.ok.inj hclockwise)
  refine ⟨l, g, hbuild, hgraph, fun w kind => ?_⟩
  exact ((hloops w kind).resolve_left fun hgives => hgives.2 hclockwise).1.2 hbalance

/-- The input edges of the star balance, and yet they form no loops. -/
theorem Layer.not_iff_edgesBalance_collinearStar :
    EdgesBalance Graph.starEdges.toList ∧ ∃ l g,
      build { degenerates := .discard } Graph.collinearPoints Graph.starEdges.toList [] = .ok l ∧
        l.graph = .ok g ∧ Workspace.addLoops {} g .simple = .error .inconsistentOrder := by
  have hbalance : EdgesBalance Graph.starEdges.toList :=
    (Graph.collinearStar {}).edgesBalance_iff_length.2
      (Graph.length_arrivals_eq_length_departures (Graph.paired_collinearStar {}))
  have hrange : ∀ e ∈ Graph.starEdges.toList, e.inRange Graph.collinearPoints.size := by decide
  have hpresent : ¬Options.MissesSiblings { degenerates := .discard } Graph.starEdges.toList := by
    rintro ⟨hrequire, -⟩
    cases hrequire
  have hlabels : ∀ set ∈ ([] : List (List Int)), ∀ label ∈ set, 0 ≤ label := List.forall_mem_nil _
  obtain ⟨l, c, hbuild, hbuilt⟩ := exists_isBuilt hrange hpresent hlabels
  let g : Graph := ⟨l, hbuilt.check⟩
  have hedges : g.edges = Graph.starEdges :=
    Array.toList_inj.1 (hbuilt.edges_eq_inputs rfl rfl rfl rfl (by decide) (by decide))
  have hroute : g.leftTurns .standard = .error .inconsistentOrder :=
    (Graph.leftTurns_congr (g := Graph.collinearStar {}) hbuilt.vertices hedges .standard).trans
      (Graph.leftTurns_collinearStar {})
  have hoptions : g.options = { degenerates := .discard } := hbuilt.options_eq
  have hdirected : g.options.isDirected := by
    rw [hoptions]
    rfl
  have hdegenerates : g.options.degenerates ≠ .keep := by
    rw [hoptions]
    decide
  exact ⟨hbalance, l, g, hbuild, graph_eq hbuilt.check,
    Graph.addLoops_of_error hdirected hdegenerates {} hroute⟩

end SnapGraph
