import Mathlib
import SnapGraph.Polyline
import SnapGraph.Proofs.Path
import SnapGraph.Proofs.Splice

/-! Polylines of either shape use every directed edge once, and of every pair of siblings one edge
once. -/

namespace SnapGraph

namespace Graph

variable (g : Graph)

/-- What polylines promise. -/
structure AreThreaded (lines : List (List Nat)) : Prop where
  polylines : ∀ l ∈ lines, IsPolyline g.edge l
  lt : ∀ l ∈ lines, ∀ e ∈ l, e < g.numEdges
  directed : g.options.isDirected → lines.flatten.Perm g.edgeIds
  undirected : g.options.isUndirected → ∃ siblings, g.siblingMap = .ok siblings ∧
    ∀ e < g.numEdges, ∃ s, siblings[e]? = some (Int.ofNat s) ∧ s < g.numEdges ∧ s ≠ e ∧
      lines.flatten.count e + lines.flatten.count s = 1

variable {g}

/-- Going to the siblings exchanges how often an edge and its sibling occur. -/
theorem Pairs.count_map {sibling : Nat → Nat} (h : g.Pairs sibling) {l : List Nat}
    (hl : ∀ e ∈ l, e < g.numEdges) {e : Nat} (he : e < g.numEdges) :
    (l.map sibling).count e = l.count (sibling e) := by
  unfold List.count
  rw [List.countP_map]
  apply List.countP_congr
  intro a ha
  show (sibling a == e) = true ↔ (a == sibling e) = true
  rw [beq_iff_eq, beq_iff_eq]
  constructor
  · rintro rfl
    exact (h.involutive a (hl a ha)).symm
  · rintro rfl
    exact h.involutive e he

variable (g) in
/-- The tables that polylines are threaded with. -/
theorem exists_thread (hinputs : g.KnowsInputs) (hdegenerates : g.options.degenerates = .discard)
    (hproper : ∀ e < g.numEdges, (g.edge e).isDegenerate = false)
    (hpaired : g.options.isUndirected →
      ∀ e : Edge, g.edges.toList.count e = g.edges.toList.count e.reverse) :
    ∃ t, g.thread = .ok t ∧ t.Sound ∧ t.graph = g ∧
      (g.options.isUndirected → t.sibling = fun e => g.inEdgeIds.getD e 0) := by
  obtain ⟨ids, hids, hsize⟩ := g.exists_minInputIds hinputs
  unfold thread
  by_cases hd : g.options.isDirected
  · have hnot : ¬g.options.isUndirected := by
      rw [Options.isUndirected_iff, hd]
      decide
    refine ⟨⟨g, g.incidence, id, ids⟩, ?_, ⟨rfl, hsize, fun h => ?_⟩, rfl, fun h => absurd h hnot⟩
    · rw [if_pos hd, hids]
      rfl
    · rw [Thread.directed, hd] at h
      cases h
  · have hundirected : g.options.isUndirected :=
      g.options.isUndirected_iff.2 (by simpa using hd)
    refine ⟨⟨g, g.incidence, fun e => g.inEdgeIds.getD e 0, ids⟩, ?_, ⟨rfl, hsize, fun _ => ?_⟩, rfl,
      fun _ => rfl⟩
    · rw [if_neg hd, g.siblingOf_undirected hundirected hdegenerates, hids]
      rfl
    · exact pairs_inEdgeIds (hpaired hundirected) hproper

theorem minInputIds_of_thread {t : Thread} (h : g.thread = .ok t) :
    g.minInputIds = .ok t.ids := by
  unfold thread at h
  dsimp only at h
  split at h
  all_goals
    obtain ⟨sibling, -, h⟩ := bind_eq_ok_iff.1 h
    obtain ⟨ids, hids, h⟩ := bind_eq_ok_iff.1 h
    cases h
    exact hids

section Threaded

variable {t : Thread} {chains : List (List Nat)} (hdegenerates : g.options.degenerates = .discard)
  (hsiblings : g.options.siblings = .discard ∨ g.options.siblings = .keep)
  (hthread : g.thread = .ok t)

include hdegenerates hsiblings hthread

/-- Polylines are the chains of their kind in canonical order. -/
theorem polylines_eq (kind : PolylineKind) :
    g.polylines kind = (match kind with
      | .path => t.paths
      | .walk => t.walks) >>= fun chains => .ok (orderChains t.key chains) := by
  have hadmitted : ¬(g.options.degenerates ≠ .discard ∨ g.options.siblings.pairsUp = true) := by
    rcases hsiblings with hs | hs
    all_goals simp [hdegenerates, hs, SiblingPolicy.pairsUp]
  rw [polylines, if_neg hadmitted, hthread]
  cases kind <;> rfl

theorem polylines_path_eq (hpaths : t.paths = .ok chains) :
    g.polylines .path = .ok (orderChains t.key chains) := by
  rw [polylines_eq hdegenerates hsiblings hthread, hpaths]
  rfl

theorem polylines_walk_eq (hwalks : t.walks = .ok chains) :
    g.polylines .walk = .ok (orderChains t.key chains) := by
  rw [polylines_eq hdegenerates hsiblings hthread, hwalks]
  rfl

end Threaded

theorem areThreaded {t : Thread} (ht : t.Sound) (hgraph : t.graph = g)
    (hsibling : g.options.isUndirected → t.sibling = fun e => g.inEdgeIds.getD e 0)
    (hdegenerates : g.options.degenerates = .discard) {lines : List (List Nat)}
    (hlines : ∀ l ∈ lines, IsPolyline g.edge l)
    (hperm : (t.both lines.flatten).Perm g.edgeIds) : g.AreThreaded lines := by
  subst hgraph
  have hlt : ∀ e ∈ lines.flatten, e < t.graph.numEdges := fun e he =>
    t.graph.mem_edgeIds.1 (hperm.mem_iff.1 (Thread.subset_both _ he))
  refine ⟨hlines, fun l hl e he => hlt e (List.mem_flatten.2 ⟨l, hl, he⟩), fun hd => ?_,
    fun hundirected => ?_⟩
  · have hd : t.directed := hd
    rw [Thread.both, if_pos hd] at hperm
    exact hperm
  · have hd : t.directed = false := (Options.isUndirected_iff _).1 hundirected
    have hpairs := ht.pairs hd
    rw [Thread.both, if_neg (by simp [hd])] at hperm
    refine ⟨_, t.graph.siblingMap_undirected hundirected hdegenerates, fun e he => ?_⟩
    refine ⟨t.sibling e, ?_, hpairs.lt e he, hpairs.ne e he, ?_⟩
    · have hlen : e < t.graph.inEdgeIds.length := by
        rw [t.graph.inOrder_inEdgeIds.perm.length_eq, edgeIds, List.length_range]
        exact he
      rw [List.getElem?_map, hsibling hundirected, List.getElem?_eq_getElem hlen]
      show _ = some (Int.ofNat (t.graph.inEdgeIds.getD e 0))
      rw [List.getD_eq_getElem _ _ hlen]
      rfl
    · calc lines.flatten.count e + lines.flatten.count (t.sibling e)
          = (lines.flatten ++ lines.flatten.map t.sibling).count e := by
            rw [List.count_append, hpairs.count_map hlt he]
        _ = t.graph.edgeIds.count e := hperm.count_eq e
        _ = 1 := List.count_eq_one_of_mem t.graph.nodup_edgeIds (t.graph.mem_edgeIds.2 he)

/-- Polylines of a graph without degenerate edges, each of whose undirected edges occurs as often as
its reverse. -/
theorem polylines_areThreaded (g : Graph) (kind : PolylineKind) (hinputs : g.KnowsInputs)
    (hdegenerates : g.options.degenerates = .discard)
    (hsiblings : g.options.siblings = .discard ∨ g.options.siblings = .keep)
    (hproper : ∀ e < g.numEdges, (g.edge e).isDegenerate = false)
    (hpaired : g.options.isUndirected →
      ∀ e : Edge, g.edges.toList.count e = g.edges.toList.count e.reverse) :
    ∃ lines, g.polylines kind = .ok lines ∧ g.AreThreaded lines := by
  obtain ⟨t, hthread, ht, hgraph, hsibling⟩ := g.exists_thread hinputs hdegenerates hproper hpaired
  have hadmitted : ¬(g.options.degenerates ≠ .discard ∨ g.options.siblings.pairsUp = true) := by
    rintro (h | h)
    · exact h hdegenerates
    · rcases hsiblings with hs | hs
      all_goals
        rw [hs] at h
        cases h
  have hchains : ∃ chains, g.polylines kind = .ok (orderChains t.key chains) ∧
      (∀ l ∈ chains, IsPolyline t.graph.edge l) ∧
      (t.both chains.flatten).Perm t.graph.edgeIds := by
    rw [polylines, if_neg hadmitted, hthread]
    cases kind with
    | path =>
        obtain ⟨chains, hpaths, hspec⟩ := Thread.exists_paths ht
        refine ⟨chains, ?_, hspec⟩
        show (t.paths >>= _) = _
        rw [hpaths]
        rfl
    | walk =>
        obtain ⟨chains, hwalks, hspec⟩ := Thread.exists_walks ht
        refine ⟨chains, ?_, hspec⟩
        show (t.walks >>= _) = _
        rw [hwalks]
        rfl
  obtain ⟨chains, hpolylines, hlines, hperm⟩ := hchains
  have horder := orderChains_perm t.key chains
  rw [hgraph] at hlines hperm
  refine ⟨orderChains t.key chains, hpolylines, areThreaded ht hgraph hsibling hdegenerates
    (fun l hl => hlines l (horder.mem_iff.1 hl)) ?_⟩
  exact (Thread.both_perm horder.flatten).trans hperm

/-- Two undirected edges in a row. -/
def twoEdges : Graph where
  options := { edgeType := .undirected, degenerates := .discard, siblings := .discard }
  vertices := #[default, default, default]
  edges := #[⟨0, 1⟩, ⟨1, 0⟩, ⟨1, 2⟩, ⟨2, 1⟩]
  inputHandles := #[0, 0, 1, 1]
  inputSets := .empty
  labelHandles := #[]
  labelSets := .empty
  valid := rfl

theorem polylines_areThreaded_twoEdges :
    ∃ lines, twoEdges.polylines .walk = .ok lines ∧ twoEdges.AreThreaded lines := by
  have hinputs : twoEdges.KnowsInputs := by
    intro handle hhandle
    simp only [twoEdges, List.mem_toArray, List.mem_cons, List.not_mem_nil, or_false] at hhandle
    rcases hhandle with rfl | rfl | rfl | rfl
    all_goals exact ⟨_, rfl⟩
  have hpaired : ∀ e : Edge, twoEdges.edges.toList.count e = twoEdges.edges.toList.count e.reverse := by
    intro e
    have hreverse : (twoEdges.edges.toList.map Edge.reverse).Perm twoEdges.edges.toList := by
      decide
    rw [← hreverse.count_eq, ← List.count_map_of_injective _ Edge.reverse
      (fun a b => Edge.reverse_inj.1) e.reverse, Edge.reverse_reverse]
  exact polylines_areThreaded twoEdges .walk hinputs rfl (.inl rfl) (by decide) fun _ => hpaired

end Graph

end SnapGraph
