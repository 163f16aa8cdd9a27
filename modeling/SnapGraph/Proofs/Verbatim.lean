import Mathlib
import SnapGraph.Proofs.Build
import SnapGraph.Proofs.Retrace

/-! Input edges that are kept as they are. Where only degenerate edges are discarded, and none are merged
or paired up, a graph has the other input edges, each with its own input id, so that its input order is
the order they came in. So walks are reproduced when their edges are snapped again, and the steps of a
single polyline are threaded into that polyline. -/

namespace SnapGraph

/-- Directed edges are kept as they come, but for degenerate ones. -/
def Options.verbatim (allowVertexFiltering : Bool) : Options where
  edgeType := .directed
  degenerates := .discard
  duplicates := .keep
  siblings := .keep
  allowVertexFiltering := allowVertexFiltering

/-- Under these options input edges are kept as they come, but for degenerate ones: copies are not merged,
or there are none. -/
structure Options.KeepsInputs (o : Options) (inputs : List Edge) : Prop where
  degenerates : o.degenerates = .discard
  siblings : o.siblings = .keep
  copies : o.duplicates = .keep ∨ o.isUndirected = false ∧ inputs.Nodup

theorem Options.keepsInputs_verbatim (b : Bool) (inputs : List Edge) :
    (Options.verbatim b).KeepsInputs inputs := ⟨rfl, rfl, .inl rfl⟩

/-! ### Cleaning -/

/-- The rows of edges between two vertices. -/
def properRows (rows : List Row) : List Row := rows.filter fun t => !t.edge.isDegenerate

theorem map_edge_properRows (rows : List Row) : (properRows rows).map Tagged.edge =
    (rows.map Tagged.edge).filter fun e => !e.isDegenerate := by
  rw [properRows, List.filter_map]
  rfl

theorem count_eq_count_handlesOf (rows : List Row) (t : Row) :
    rows.count t = (handlesOf rows t.edge).count t.item := by
  rw [handlesOf, List.count, List.count, List.countP_map, List.countP_filter]
  refine List.countP_congr fun s _ => ?_
  rw [beq_iff_eq, Bool.and_eq_true, Function.comp_apply, beq_iff_eq, beq_iff_eq]
  constructor
  · rintro rfl
    exact ⟨rfl, rfl⟩
  · rintro ⟨hitem, hedge⟩
    cases s
    cases t
    cases hitem
    cases hedge
    rfl

theorem length_handlesOf (rows : List Row) (e : Edge) :
    (handlesOf rows e).length = (rows.map Tagged.edge).count e := by
  rw [handlesOf, List.length_map, List.count, List.countP_map, List.countP_eq_length_filter]
  rfl

/-- Tables whose edges have the same handles have the same rows. -/
theorem perm_of_handlesOf_eq {rows rows' : List Row}
    (h : ∀ e, handlesOf rows e = handlesOf rows' e) : rows.Perm rows' := by
  refine List.perm_iff_count.2 fun t => ?_
  rw [count_eq_count_handlesOf, h, ← count_eq_count_handlesOf]

theorem handlesOf_properRows (rows : List Row) (e : Edge) :
    handlesOf (properRows rows) e = if e.isDegenerate then [] else handlesOf rows e := by
  rw [handlesOf, properRows, List.filter_filter]
  split
  · rename_i hdegenerate
    rw [List.map_eq_nil_iff, List.filter_eq_nil_iff]
    intro t _ ht
    rw [Bool.and_eq_true, beq_iff_eq] at ht
    rw [ht.1, hdegenerate] at ht
    exact absurd ht.2 (by decide)
  · rename_i hproper
    refine congrArg (List.map Tagged.item) (List.filter_congr fun t _ => ?_)
    by_cases hte : t.edge = e
    · simp [hte, hproper]
    · simp [hte]

section Verbatim

variable {o : Options}

theorem IsCleaned.handlesOf_kept {rows : List Row} {sets : IdSets} {c : Cleaned}
    (h : IsCleaned o sets rows c) (hr : reservedEdge ∉ rows.map Tagged.edge)
    (hdegenerates : o.degenerates = .discard) (hsiblings : o.siblings = .keep)
    (hcopies : o.duplicates = .keep ∨ ∀ e, (rows.map Tagged.edge).count e ≤ 1) (e : Edge) :
    handlesOf c.rows e = handlesOf (properRows rows) e := by
  rw [handlesOf_properRows]
  split
  · rename_i hdegenerate
    apply handlesOf_eq_nil
    rw [← List.count_eq_zero, h.count, Options.copiesLeft, if_pos hdegenerate, if_neg]
    simp [Options.keepsDegenerates, hdegenerates]
  · rename_i hproper
    rcases h.exists_bundle_or hr e with ⟨⟨alone, bundle⟩, hx, rfl⟩ | ⟨hbefore, hafter⟩
    · obtain ⟨plan, before, mid, hplan, -, -, -, hrealize⟩ := h.realized.rows _ hx
      have hforward : bundle.forward = handlesOf rows bundle.edge :=
        Bundle.forward_of_mem_ofTagged (mem_ofTagged_of_mem_cleaningBundles hr hx)
      have hcopy : plan = .copy 0 := by
        rw [Bundle.plan, if_neg hproper] at hplan
        cases hplan
        simp only [Options.planProper, hsiblings]
        rcases hcopies with hkeep | hone
        · simp [hkeep]
        · rw [hforward, length_handlesOf, if_neg]
          simpa using fun _ => hone bundle.edge
      subst hcopy
      have hkept := congrArg (List.map Tagged.item) (congrArg Prod.fst (Except.ok.inj hrealize))
      rw [List.replicate_zero, List.append_nil, List.map_map] at hkept
      rw [handlesOf, ← hkept, ← hforward]
      exact List.map_id _
    · rw [hbefore, hafter]

theorem properRows_startRows (o : Options) (inputs : List Edge) :
    properRows (Layer.startRows o inputs) = properRows (Layer.inputRows o.isUndirected 0 inputs) := by
  unfold properRows Layer.startRows
  rw [List.filter_filter]
  refine List.filter_congr fun t _ => ?_
  by_cases hreserved : t.edge = reservedEdge
  · rw [hreserved]
    rfl
  · simp [hreserved]

/-! ### Building -/

theorem Layer.inputRows_directed (i : Nat) (inputs : List Edge) :
    inputRows false i inputs = (inputs.zipIdx i).map fun x => ⟨x.1, (x.2 : Int)⟩ := by
  rw [inputRows_eq_flatMap, List.map_eq_flatMap]
  rfl

/-- Where the edges with their least input ids are the rows of a table with ascending ids, input order is
the order of the table. -/
theorem Thread.inputOrder_map {t : Thread} (ht : t.Sound) {rows : List Row}
    (hperm : (t.graph.edgeIds.map fun e => ⟨t.graph.edge e, t.key e⟩).Perm rows)
    (hrows : rows.Pairwise fun s s' => s.item < s'.item) :
    (t.inputOrder.map fun e => ⟨t.graph.edge e, t.key e⟩) = rows := by
  refine eq_of_perm_of_pairwise_lt (((inputOrder_perm ht).map _).trans hperm) ?_ hrows
  exact List.pairwise_map.2 (t.pairwise_inputOrder.imp And.left)

theorem Layer.pairwise_inputRows (inputs : List Edge) :
    (inputRows false 0 inputs).Pairwise fun s s' => s.item < s'.item := by
  rw [inputRows_directed]
  exact List.pairwise_map.2 ((pairwise_zipIdx inputs 0).imp Int.ofNat_lt.2)

theorem Layer.map_edge_inputRows (inputs : List Edge) :
    (inputRows false 0 inputs).map Tagged.edge = inputs := by
  rw [inputRows_directed, List.map_map]
  exact List.zipIdx_map_fst 0 inputs

/-- A layer that keeps its input edges as they are: a table of the edges between two vertices. -/
theorem exists_build {vertices : Array Point} {inputs : List Edge} (ho : o.KeepsInputs inputs)
    (hrange : ∀ e ∈ inputs, e.inRange vertices.size) :
    ∃ (layer : Layer) (kept : List Row), Layer.build o vertices inputs [] = .ok layer ∧
      layer.check = .ok () ∧ layer.options = o ∧ layer.vertices = vertices ∧
      layer.edges = (kept.map Tagged.edge).toArray ∧
      layer.inputHandles = (kept.map Tagged.item).toArray ∧
      kept.Perm (properRows (Layer.inputRows o.isUndirected 0 inputs)) := by
  have hpresent : ¬o.MissesSiblings inputs := by
    rintro ⟨hrequire, -⟩
    rw [ho.siblings] at hrequire
    cases hrequire
  obtain ⟨layer, c, hbuild, hbuilt⟩ :=
    Layer.exists_isBuilt hrange hpresent (List.forall_mem_nil _)
  have hcopies : o.duplicates = .keep ∨
      ∀ e, ((Layer.startRows o inputs).map Tagged.edge).count e ≤ 1 := by
    refine ho.copies.imp_right fun ⟨hundirected, hnodup⟩ e => ?_
    rw [count_startRows, hundirected]
    split
    · exact Nat.zero_le 1
    · exact List.nodup_iff_count_le_one.1 hnodup e
  have hperm := perm_of_handlesOf_eq (hbuilt.cleaned.handlesOf_kept reservedEdge_not_mem_startRows
    ho.degenerates ho.siblings hcopies)
  rw [properRows_startRows] at hperm
  have hafter : o.afterCleaning = o := by
    rw [Options.afterCleaning, if_neg]
    simp [ho.siblings, SiblingPolicy.pairsUp]
  exact ⟨layer, c.rows, hbuild, hbuilt.check, hbuilt.options_eq.trans hafter, hbuilt.vertices,
    hbuilt.edges, hbuilt.inputHandles, hperm⟩

/-- The graph of a layer that keeps its input edges as they are: its edges in input order, each with an
id of its own, are the input edges between two vertices. -/
structure Graph.IsVerbatim (g : Graph) (t : Thread) (inputs : List Edge) : Prop where
  sound : t.Sound
  graph : t.graph = g
  thread : g.thread = .ok t
  directed : g.options.isDirected
  degenerates : g.options.degenerates = .discard
  siblings : g.options.siblings = .keep
  order : t.inputOrder.map g.edge = inputs.filter fun e => !e.isDegenerate
  ascends : t.inputOrder.Pairwise fun e f => t.key e < t.key f

/-- The edges of a table, with their handles. -/
theorem Graph.map_edgeIds (g : Graph) {kept : List Row}
    (hedges : g.edges = (kept.map Tagged.edge).toArray)
    (hhandles : g.inputHandles = (kept.map Tagged.item).toArray) :
    (g.edgeIds.map fun e => ⟨g.edge e, g.inputHandles.getD e noInput⟩) = kept := by
  have hsize : g.numEdges = kept.length := by simp [numEdges, hedges]
  apply List.ext_getElem (by simp [edgeIds, hsize])
  intro i _ hi
  simp [edgeIds, edge, hedges, hhandles, hi]

theorem exists_isVerbatim_of_keepsInputs {vertices : Array Point} {inputs : List Edge}
    (ho : o.KeepsInputs inputs) (hdirected : o.isDirected)
    (hrange : ∀ e ∈ inputs, e.inRange vertices.size) :
    ∃ layer g t, Layer.build o vertices inputs [] = .ok layer ∧ layer.graph = .ok g ∧
      g.vertices = vertices ∧ g.IsVerbatim t inputs := by
  obtain ⟨layer, kept, hbuild, hcheck, hoptions, hvertices, hedges, hhandles, hperm⟩ :=
    exists_build ho hrange
  let g : Graph := ⟨layer, hcheck⟩
  have hundirected : o.isUndirected = false := by
    rw [← Bool.not_eq_true, Options.isUndirected_iff, hdirected]
    decide
  rw [hundirected] at hperm
  have hproper : ∀ s ∈ kept, s.edge.isDegenerate = false := fun s hs => by
    simpa using (List.mem_filter.1 (hperm.mem_iff.1 hs)).2
  have hnonneg : ∀ handle ∈ g.inputHandles.toList, 0 ≤ handle := by
    intro handle hhandle
    rw [show g.inputHandles.toList = kept.map Tagged.item from congrArg Array.toList hhandles] at hhandle
    obtain ⟨s, hs, rfl⟩ := List.mem_map.1 hhandle
    rcases Layer.mem_inputRows_iff.1 (List.mem_of_mem_filter (hperm.mem_iff.1 hs)) with
      ⟨i, -, hitem⟩ | ⟨hundirected, -⟩
    · rw [hitem]
      exact Int.natCast_nonneg i
    · cases hundirected
  have hoptions : g.options = o := hoptions
  have hedge : ∀ e < g.numEdges, (g.edge e).isDegenerate = false := by
    intro e he
    have hmem := g.edge_mem he
    rw [show g.edges.toList = kept.map Tagged.edge from congrArg Array.toList hedges] at hmem
    obtain ⟨s, hs, hse⟩ := List.mem_map.1 hmem
    exact hse ▸ hproper s hs
  obtain ⟨t, hthread, ht, hgraph, -⟩ := g.exists_thread
    (Graph.knowsInputs_of_singles fun handle hhandle => .inl (hnonneg handle hhandle))
    (hoptions ▸ ho.degenerates) hedge fun hpaired => by
      rw [hoptions, hundirected] at hpaired
      cases hpaired
  have hids : t.ids = g.inputHandles :=
    Except.ok.inj ((Graph.minInputIds_of_thread hthread).symm.trans (g.minInputIds_of_nonneg hnonneg))
  have hrows := (g.map_edgeIds hedges hhandles).symm ▸ hperm
  rw [← hids, ← hgraph] at hrows
  have horder := t.inputOrder_map ht hrows ((Layer.pairwise_inputRows inputs).filter _)
  refine ⟨layer, g, t, hbuild, Layer.graph_eq hcheck, hvertices, ht, hgraph, hthread,
    hoptions ▸ hdirected, hoptions ▸ ho.degenerates, hoptions ▸ ho.siblings, ?_, ?_⟩
  · have hedges := congrArg (List.map Tagged.edge) horder
    rw [List.map_map, map_edge_properRows, Layer.map_edge_inputRows, hgraph] at hedges
    exact hedges
  · have hitems := (Layer.pairwise_inputRows inputs).filter fun s => !s.edge.isDegenerate
    rw [← properRows, ← horder, List.pairwise_map] at hitems
    exact hitems

end Verbatim

theorem exists_isVerbatim (b : Bool) (vertices : Array Point) {inputs : List Edge}
    (hrange : ∀ e ∈ inputs, e.inRange vertices.size) :
    ∃ layer g t, Layer.build (.verbatim b) vertices inputs [] = .ok layer ∧ layer.graph = .ok g ∧
      g.IsVerbatim t inputs := by
  obtain ⟨layer, g, t, hbuild, hgraph, -, h⟩ :=
    exists_isVerbatim_of_keepsInputs (Options.keepsInputs_verbatim b inputs) rfl hrange
  exact ⟨layer, g, t, hbuild, hgraph, h⟩

/-! ### Walks of what was built -/

/-- Polylines written as lists of edges. -/
def Graph.asEdges (g : Graph) (lines : List (List Nat)) : List (List Edge) := lines.map (·.map g.edge)

/-- A list whose images are cut into pieces can be cut likewise. -/
theorem exists_map_eq_of_map_eq_flatten {α β : Type} {f : α → β} {l : List α} {pieces : List (List β)}
    (h : l.map f = pieces.flatten) :
    ∃ cut : List (List α), cut.flatten = l ∧ cut.map (·.map f) = pieces := by
  induction pieces generalizing l with
  | nil => exact ⟨[], (List.map_eq_nil_iff.1 h).symm, rfl⟩
  | cons piece pieces ih =>
      obtain ⟨first, rest, rfl, rfl, hrest⟩ := List.map_eq_append_iff.1 h
      obtain ⟨cut, rfl, rfl⟩ := ih hrest
      exact ⟨first :: cut, rfl, rfl⟩

namespace Graph

/-- Unjoinable polylines that make up the input are the walks of its graph. -/
theorem IsVerbatim.exists_walks {g : Graph} {t : Thread} {inputs : List Edge}
    (h : g.IsVerbatim t inputs) {edge : Nat → Edge} {lines : List (List Nat)}
    (hlines : Unjoinable edge lines) (hinputs : inputs = (lines.map (·.map edge)).flatten) :
    ∃ again, g.polylines .walk = .ok again ∧ g.asEdges again = lines.map (·.map edge) := by
  have hproper : (inputs.filter fun e => !e.isDegenerate) = inputs := by
    refine List.filter_eq_self.2 fun e he => ?_
    rw [hinputs, ← List.map_flatten] at he
    obtain ⟨i, hi, rfl⟩ := List.mem_map.1 he
    obtain ⟨l, hl, hil⟩ := List.mem_flatten.1 hi
    rw [hlines.proper l hl i hil]
    rfl
  obtain ⟨again, horder, hmap⟩ := exists_map_eq_of_map_eq_flatten
    (h.order.trans (hproper.trans hinputs))
  refine ⟨again, ?_, hmap⟩
  obtain rfl := h.graph
  exact polylines_walk_of_unjoinable h.degenerates (.inr h.siblings) h.thread h.sound h.directed
    (hlines.of_map_eq hmap.symm) horder.symm h.ascends

/-- Snapping the walks of a graph again, their edges one after another, gives the same walks in the same
order. -/
theorem polylines_walk_reproduced (g : Graph) (hinputs : g.KnowsInputs)
    (hdirected : g.options.isDirected) (hdegenerates : g.options.degenerates = .discard)
    (hsiblings : g.options.siblings = .discard ∨ g.options.siblings = .keep)
    (hproper : ∀ e < g.numEdges, (g.edge e).isDegenerate = false) (allowVertexFiltering : Bool) :
    ∃ lines, g.polylines .walk = .ok lines ∧
      ∃ layer again lines', Layer.build (.verbatim allowVertexFiltering) g.vertices
          (g.asEdges lines).flatten [] = .ok layer ∧
        layer.graph = .ok again ∧ again.polylines .walk = .ok lines' ∧
        again.asEdges lines' = g.asEdges lines := by
  obtain ⟨t, hthread, ht, rfl, -⟩ := g.exists_thread hinputs hdegenerates hproper fun hundirected => by
    rw [Options.isUndirected_iff, hdirected] at hundirected
    cases hundirected
  obtain ⟨chains, u, hwalks, hdrawn, hremaining⟩ := Thread.exists_drawn ht
  have hperm := orderChains_perm t.key chains
  have hlines := (hdrawn.unjoinable ht hdirected hremaining hproper).of_subperm hperm.subperm
  refine ⟨orderChains t.key chains, polylines_walk_eq hdegenerates hsiblings hthread hwalks, ?_⟩
  have hrange : ∀ e ∈ (t.graph.asEdges (orderChains t.key chains)).flatten,
      e.inRange t.graph.vertices.size := by
    intro e he
    rw [asEdges, ← List.map_flatten] at he
    obtain ⟨i, hi, rfl⟩ := List.mem_map.1 he
    obtain ⟨l, hl, hil⟩ := List.mem_flatten.1 hi
    exact t.graph.inRange_edge ((hdrawn.draws.covers hremaining).lt (hperm.mem_iff.1 hl) i hil)
  obtain ⟨layer, again, t', hbuild, hgraph, hverbatim⟩ :=
    exists_isVerbatim allowVertexFiltering t.graph.vertices hrange
  obtain ⟨lines', hpolylines, hsame⟩ := hverbatim.exists_walks hlines rfl
  exact ⟨layer, again, lines', hbuild, hgraph, hpolylines, hsame⟩

/-- A path with a loop, and a triangle apart from it that was snapped first. -/
def loopedPathAndTriangle : Graph where
  options := { degenerates := .discard }
  vertices := #[default, default, default, default, default, default, default]
  edges := #[⟨0, 1⟩, ⟨1, 2⟩, ⟨1, 3⟩, ⟨3, 1⟩, ⟨4, 5⟩, ⟨5, 6⟩, ⟨6, 4⟩]
  inputHandles := #[3, 6, 4, 5, 0, 1, 2]
  inputSets := .empty
  labelHandles := #[]
  labelSets := .empty
  valid := rfl

theorem polylines_walk_reproduced_loopedPathAndTriangle :
    ∃ lines, loopedPathAndTriangle.polylines .walk = .ok lines ∧
      ∃ layer again lines', Layer.build (.verbatim true) loopedPathAndTriangle.vertices
          (loopedPathAndTriangle.asEdges lines).flatten [] = .ok layer ∧
        layer.graph = .ok again ∧ again.polylines .walk = .ok lines' ∧
        again.asEdges lines' = loopedPathAndTriangle.asEdges lines :=
  polylines_walk_reproduced loopedPathAndTriangle (knowsInputs_of_singles (by decide)) rfl rfl
    (.inr rfl) (by decide) true

end Graph

/-! ### A single polyline -/

/-- The edges from each vertex of a list to the next. -/
def steps (path : List Int) : List Edge := List.zipWith Edge.mk path path.tail

/-- The steps between different vertices. -/
def properSteps (path : List Int) : List Edge := (steps path).filter fun e => !e.isDegenerate

theorem mem_of_mem_steps {path : List Int} {e : Edge} (he : e ∈ steps path) :
    e.origin ∈ path ∧ e.dest ∈ path := by
  rw [steps, ← List.map_uncurry_zip_eq_zipWith] at he
  obtain ⟨⟨v, w⟩, hvw, rfl⟩ := List.mem_map.1 he
  obtain ⟨hv, hw⟩ := List.of_mem_zip hvw
  exact ⟨hv, List.mem_of_mem_tail hw⟩

/-- Each step between different vertices begins where the one before it ends. -/
theorem isChain_cons_properSteps (u v : Int) (path : List Int) :
    (⟨u, v⟩ :: properSteps (v :: path)).IsChain fun e f => e.dest = f.origin := by
  induction path generalizing u v with
  | nil => exact .singleton _
  | cons w path ih =>
      have hsteps : steps (v :: w :: path) = ⟨v, w⟩ :: steps (w :: path) := rfl
      by_cases hvw : v = w
      · subst hvw
        rw [properSteps, hsteps, List.filter_cons_of_neg (by simp [Edge.isDegenerate])]
        exact ih u v
      · rw [properSteps, hsteps, List.filter_cons_of_pos (by simp [Edge.isDegenerate, hvw])]
        exact List.isChain_cons_cons.2 ⟨rfl, ih v w⟩

theorem isChain_properSteps (path : List Int) :
    (properSteps path).IsChain fun e f => e.dest = f.origin := by
  cases path with
  | nil => exact .nil
  | cons v path => exact (isChain_cons_properSteps v v path).tail

/-- The walk through the steps of a polyline is the polyline, however it meets itself: all edges between
different vertices in their order. -/
theorem exists_walk_steps (allowVertexFiltering : Bool) (vertices : Array Point) {path : List Int}
    (hpath : ∀ v ∈ path, 0 ≤ v ∧ v < vertices.size) :
    ∃ layer g lines, Layer.build (.verbatim allowVertexFiltering) vertices (steps path) [] = .ok layer ∧
      layer.graph = .ok g ∧ g.polylines .walk = .ok lines ∧
      ((∀ e ∈ steps path, e.isDegenerate) → lines = []) ∧
      ((∃ e ∈ steps path, e.isDegenerate = false) → g.asEdges lines = [properSteps path]) := by
  have hrange : ∀ e ∈ steps path, e.inRange vertices.size := by
    intro e he
    obtain ⟨horigin, hdest⟩ := mem_of_mem_steps he
    simp [Edge.inRange, hpath _ horigin, hpath _ hdest]
  obtain ⟨layer, g, t, hbuild, hgraph, h⟩ := exists_isVerbatim allowVertexFiltering vertices hrange
  obtain rfl := h.graph
  have horder : t.inputOrder.map t.graph.edge = properSteps path := h.order
  have hwalks : ∀ lines, Unjoinable t.graph.edge lines → t.inputOrder = lines.flatten →
      t.graph.polylines .walk = .ok lines := fun lines hlines hflatten =>
    Graph.polylines_walk_of_unjoinable h.degenerates (.inr h.siblings) h.thread h.sound h.directed
      hlines hflatten h.ascends
  by_cases hnone : ∀ e ∈ steps path, e.isDegenerate
  · have hnil : properSteps path = [] :=
      List.filter_eq_nil_iff.2 fun e he => by simp [hnone e he]
    rw [hnil, List.map_eq_nil_iff] at horder
    refine ⟨layer, t.graph, [], hbuild, hgraph, hwalks [] (unjoinable_nil _) horder, fun _ => rfl, ?_⟩
    rintro ⟨e, he, hproper⟩
    rw [hnone e he] at hproper
    cases hproper
  · refine ⟨layer, t.graph, [t.inputOrder], hbuild, hgraph, ?_, fun hall => absurd hall hnone,
      fun _ => congrArg (fun l => [l]) horder⟩
    refine hwalks _ (unjoinable_singleton ⟨fun hnil => hnone fun e he => ?_, ?_⟩ fun i hi => ?_)
      (List.flatten_singleton).symm
    · rw [hnil, List.map_nil] at horder
      simpa using List.filter_eq_nil_iff.1 horder.symm e he
    · have hchain := isChain_properSteps path
      rw [← horder] at hchain
      exact (List.isChain_map _).1 hchain
    · have hmem := horder ▸ List.mem_map_of_mem hi
      simpa using (List.mem_filter.1 hmem).2

/-- A polyline that doubles back, rests at a vertex and passes an edge twice. -/
theorem exists_walk_steps_doubledBack : ∃ layer g lines,
    Layer.build (.verbatim true) #[default, default, default] (steps [0, 1, 2, 1, 1, 0, 1]) [] =
        .ok layer ∧
      layer.graph = .ok g ∧ g.polylines .walk = .ok lines ∧
      g.asEdges lines = [[⟨0, 1⟩, ⟨1, 2⟩, ⟨2, 1⟩, ⟨1, 0⟩, ⟨0, 1⟩]] := by
  have hpath : ∀ v ∈ [0, 1, 2, 1, 1, 0, 1], 0 ≤ v ∧ v < (3 : Int) := by decide
  obtain ⟨layer, g, lines, hbuild, hgraph, hlines, -, hsteps⟩ :=
    exists_walk_steps true #[default, default, default] hpath
  exact ⟨layer, g, lines, hbuild, hgraph, hlines, hsteps ⟨⟨0, 1⟩, by decide, rfl⟩⟩

end SnapGraph
