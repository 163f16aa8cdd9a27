import Mathlib
import SnapGraph.Proofs.Loop
import SnapGraph.Proofs.LoopStart
import SnapGraph.Proofs.Verbatim

/-! Snapping the loops of a graph again. Where input edges are kept as they come, the edge table depends on
the edges alone, and left turns depend on the edge table alone, so the loops are cut as before. Numbered by
the loops themselves, input ids ascend along each loop and from one loop to the next: each loop begins where
it began, and the loops keep their order. -/

namespace SnapGraph

/-- Lists whose items have the same images are equal if different items have different ones. -/
theorem eq_of_map_eq_of_inj {α β : Type} {f : α → β} {l l' : List α} (h : l.map f = l'.map f)
    (hinj : ∀ a ∈ l, ∀ b ∈ l', f a = f b → a = b) : l = l' := by
  induction l generalizing l' with
  | nil => exact (List.map_eq_nil_iff.1 h.symm).symm
  | cons a l ih =>
      obtain ⟨b, l', rfl, hb, hl⟩ := List.map_eq_cons_iff.1 h.symm
      obtain rfl := hinj a List.mem_cons_self b List.mem_cons_self hb.symm
      rw [ih hl.symm fun c hc d hd => hinj c (List.mem_cons_of_mem _ hc) d (List.mem_cons_of_mem _ hd)]

/-- Loops along which the ids ascend are the canonical ones, in their canonical order, of the same cycles. -/
theorem orderChains_canonicalLoop_eq {key key' : Nat → Int} {cycles loops : List (List Nat)}
    (hloops : loops.Perm (cycles.map (canonicalLoop key))) (hne : ∀ l ∈ loops, l ≠ [])
    (hascends : loops.flatten.Pairwise fun e f => key' e < key' f) :
    orderChains key' (cycles.map (canonicalLoop key')) = loops := by
  have hcanonical : cycles.map (canonicalLoop key') = cycles.map (canonicalLoop key) := by
    refine List.map_congr_left fun c hc => ?_
    have hmem : canonicalLoop key c ∈ loops := hloops.mem_iff.2 (List.mem_map_of_mem hc)
    exact canonicalLoop_of_ascends (canonicalLoop_isRotated key c)
      ((List.pairwise_flatten.1 hascends).1 _ hmem)
  rw [hcanonical]
  exact Thread.orderChains_eq hloops.symm hne hascends

namespace Graph

theorem tracedLoops_congr {g g' : Graph} (hedges : g'.edges = g.edges) (turns : Turns) (kind : LoopKind) :
    g'.tracedLoops turns kind = g.tracedLoops turns kind := by
  rw [tracedLoops, tracedLoops, edgeIds_congr hedges, edge_congr hedges]

section Loops

variable {g : Graph} {sort : ComparisonSort Spoke}

theorem directedLoops_of_addLoops {w : Workspace} {kind : LoopKind} {loops : List (List Nat)}
    (h : w.addLoops g kind sort = .ok ({ w with loops := w.loops ++ loops }, none)) :
    g.directedLoops sort kind = .ok loops := by
  unfold Workspace.addLoops at h
  split at h
  · rename_i loops' hloops
    rw [Except.ok.injEq, Prod.mk.injEq, Workspace.mk.injEq] at h
    rw [hloops, List.append_cancel_left h.1.2.2.1]
  · cases congrArg Prod.snd (Except.ok.inj h)
  · cases h

variable (hdirected : g.options.isDirected) (hdegenerates : g.options.degenerates = .discard)
  {ids : Array Int} (hids : g.minInputIds = .ok ids)

include hdirected hdegenerates hids

/-- Loops come out exactly if routing comes to an end and gives every edge a turn. -/
theorem directedLoops_eq_ok_iff {kind : LoopKind} {loops : List (List Nat)} :
    g.directedLoops sort kind = .ok loops ↔
      ∃ r, g.leftTurns sort = .ok r ∧ r.error? = none ∧ orderChains (fun e => ids.getD e noInput)
        ((g.tracedLoops r.value kind).map (canonicalLoop fun e => ids.getD e noInput)) = loops := by
  have hdegenerates : g.options.degenerates ≠ .keep := by
    rw [hdegenerates]
    decide
  cases hroute : g.leftTurns sort with
  | error f =>
      rw [directedLoops_of_error hdirected hdegenerates hroute]
      exact iff_of_false nofun nofun
  | ok r =>
      cases herr : r.error? with
      | some err =>
          rw [directedLoops_of_error? hdirected hdegenerates hroute herr]
          refine iff_of_false nofun ?_
          rintro ⟨_, heq, hnone, -⟩
          cases heq
          exact Option.some_ne_none err (herr.symm.trans hnone)
      | none =>
          rw [directedLoops_of_none hdirected hdegenerates hroute herr hids]
          constructor
          · intro h
            exact ⟨r, rfl, herr, Except.ok.inj h⟩
          · rintro ⟨_, heq, -, rfl⟩
            cases heq
            rfl

theorem areLoops_of_directedLoops {kind : LoopKind} {loops : List (List Nat)}
    (h : g.directedLoops sort kind = .ok loops) :
    ∃ turns, g.AreLoops turns (fun e => ids.getD e noInput) kind loops := by
  obtain ⟨r, hroute, hnone, rfl⟩ := (directedLoops_eq_ok_iff hdirected hdegenerates hids).1 h
  have hrouting := isRouting_leftTurns hroute
  exact ⟨r.value, areLoops (hrouting.exists_next_iff hnone) (hrouting.closed hnone)
    (fun e f hf => (hrouting.joins e f hf).2.2) _ kind⟩

end Loops

namespace IsVerbatim

variable {g : Graph} {t : Thread} {inputs : List Edge} (h : g.IsVerbatim t inputs)
  (hproper : ∀ e ∈ inputs, e.isDegenerate = false)

include h

theorem inputOrder_perm : t.inputOrder.Perm g.edgeIds := h.graph ▸ Thread.inputOrder_perm h.sound

include hproper

theorem map_edge_inputOrder : t.inputOrder.map g.edge = inputs :=
  h.order.trans (List.filter_eq_self.2 fun e he => by rw [hproper e he]; rfl)

/-- Input edges between two vertices are the edges of the graph. -/
theorem perm_edges : g.edges.toList.Perm inputs := by
  rw [← h.map_edge_inputOrder hproper, ← map_edge_edgeIds]
  exact (h.inputOrder_perm.map g.edge).symm

/-- The edges of the loops, one after another, are the input edges in another order. -/
theorem asEdges_loops_perm {sort : ComparisonSort Spoke} {kind : LoopKind} {loops : List (List Nat)}
    (hloops : g.directedLoops sort kind = .ok loops) : (g.asEdges loops).flatten.Perm inputs := by
  obtain ⟨turns, hare⟩ :=
    areLoops_of_directedLoops h.directed h.degenerates (minInputIds_of_thread h.thread) hloops
  refine .trans ?_ (h.perm_edges hproper)
  rw [asEdges, ← List.map_flatten, ← g.map_edge_edgeIds]
  exact hare.perm.map g.edge

end IsVerbatim

/-! ### The same loops again -/

section Again

variable {g g' : Graph} {t t' : Thread} {inputs : List Edge} {sort : ComparisonSort Spoke}
  {kind : LoopKind} {loops : List (List Nat)}
  (hg : g.IsVerbatim t inputs) (hg' : g'.IsVerbatim t' (g.asEdges loops).flatten)
  (hproper : ∀ e ∈ inputs, e.isDegenerate = false) (hloops : g.directedLoops sort kind = .ok loops)

include hg hg' hproper hloops

theorem edges_eq_of_loops : g'.edges = g.edges := by
  have hinputs := hg.asEdges_loops_perm hproper hloops
  have hproper' : ∀ e ∈ (g.asEdges loops).flatten, e.isDegenerate = false :=
    fun e he => hproper e (hinputs.mem_iff.1 he)
  have hperm := (hg'.perm_edges hproper').trans (hinputs.trans (hg.perm_edges hproper).symm)
  exact Array.toList_inj.1 (hperm.eq_of_pairwise' g'.pairwise_edges g.pairwise_edges)

variable (hnodup : inputs.Nodup)

include hnodup

/-- Numbered by the loops, the edges come in input order as they come in the loops. -/
theorem inputOrder_eq_of_loops : t'.inputOrder = loops.flatten := by
  have hedges := edges_eq_of_loops hg hg' hproper hloops
  obtain ⟨turns, hare⟩ :=
    areLoops_of_directedLoops hg.directed hg.degenerates (minInputIds_of_thread hg.thread) hloops
  have hproper' : ∀ e ∈ (g.asEdges loops).flatten, e.isDegenerate = false :=
    fun e he => hproper e ((hg.asEdges_loops_perm hproper hloops).mem_iff.1 he)
  have hinj : (g.edgeIds.map g.edge).Nodup := by
    rw [g.map_edge_edgeIds]
    exact (hg.perm_edges hproper).nodup_iff.2 hnodup
  refine eq_of_map_eq_of_inj (f := g.edge) ?_ fun a ha b hb => List.inj_on_of_nodup_map hinj ?_ ?_
  · rw [List.map_flatten, ← edge_congr hedges, hg'.map_edge_inputOrder hproper', edge_congr hedges]
    rfl
  · rw [← edgeIds_congr hedges]
    exact hg'.inputOrder_perm.mem_iff.1 ha
  · exact hare.perm.mem_iff.1 hb

theorem directedLoops_of_loops (hvertices : g'.vertices = g.vertices) :
    g'.directedLoops sort kind = .ok loops := by
  have hedges := edges_eq_of_loops hg hg' hproper hloops
  have hids := minInputIds_of_thread hg.thread
  obtain ⟨turns, hare⟩ := areLoops_of_directedLoops hg.directed hg.degenerates hids hloops
  obtain ⟨r, hroute, hnone, horder⟩ :=
    (directedLoops_eq_ok_iff hg.directed hg.degenerates hids).1 hloops
  have hcanonical : loops.Perm
      ((g.tracedLoops r.value kind).map (canonicalLoop fun e => t.ids.getD e noInput)) := by
    rw [← horder]
    exact orderChains_perm _ _
  have hids' := minInputIds_of_thread hg'.thread
  refine (directedLoops_eq_ok_iff hg'.directed hg'.degenerates hids').2 ⟨r, ?_, hnone, ?_⟩
  · rw [leftTurns_congr hvertices hedges, hroute]
  · rw [tracedLoops_congr hedges]
    refine orderChains_canonicalLoop_eq hcanonical hare.ne_nil ?_
    exact inputOrder_eq_of_loops hg hg' hproper hloops hnodup ▸ hg'.ascends

end Again

end Graph

section Build

variable {o : Options} {inputs : List Edge} (hdirected : o.edgeType = .directed)
  (hdegenerates : o.degenerates = .discard) (hsiblings : o.siblings = .keep)

include hdirected hdegenerates hsiblings

/-- Let different edges between two vertices be kept as they come. If loops come out, snapping these again,
their edges one after another, gives the same edge table, and out of it come the same loops: each begins
with the edge that it began with, and they stand in the same order. -/
theorem Layer.addLoops_reproduced (sort : ComparisonSort Spoke) (vertices : Array Point)
    (hnodup : inputs.Nodup) (hproper : ∀ e ∈ inputs, e.isDegenerate = false)
    (hrange : ∀ e ∈ inputs, e.inRange vertices.size) :
    ∃ l g, build o vertices inputs [] = .ok l ∧ l.graph = .ok g ∧
      ∀ (w : Workspace) (kind : LoopKind) (loops : List (List Nat)),
        w.addLoops g kind sort = .ok ({ w with loops := w.loops ++ loops }, none) →
        ∃ l' g', build o vertices (g.asEdges loops).flatten [] = .ok l' ∧ l'.graph = .ok g' ∧
          g'.edges = g.edges ∧ ∀ w' : Workspace,
            w'.addLoops g' kind sort = .ok ({ w' with loops := w'.loops ++ loops }, none) := by
  have hdirected' : o.isDirected := by
    rw [Options.isDirected, hdirected]
    rfl
  have hkeeps : ∀ {inputs : List Edge}, inputs.Nodup → o.KeepsInputs inputs := fun hnodup =>
    ⟨hdegenerates, hsiblings, .inr ⟨by rw [Options.isUndirected, hdirected]; rfl, hnodup⟩⟩
  obtain ⟨l, g, t, hbuild, hgraph, hvertices, hg⟩ :=
    exists_isVerbatim_of_keepsInputs (hkeeps hnodup) hdirected' hrange
  refine ⟨l, g, hbuild, hgraph, fun w kind loops hadd => ?_⟩
  have hloops := Graph.directedLoops_of_addLoops hadd
  have hinputs := hg.asEdges_loops_perm hproper hloops
  obtain ⟨l', g', t', hbuild', hgraph', hvertices', hg'⟩ :=
    exists_isVerbatim_of_keepsInputs (hkeeps (hinputs.nodup_iff.2 hnodup)) hdirected'
      fun e he => hrange e (hinputs.mem_iff.1 he)
  have hloops' := Graph.directedLoops_of_loops hg hg' hproper hloops hnodup
    (hvertices'.trans hvertices.symm)
  refine ⟨l', g', hbuild', hgraph', Graph.edges_eq_of_loops hg hg' hproper hloops, fun w' => ?_⟩
  rw [Workspace.addLoops, hloops']

end Build

/-- A triangle and an edge in both directions that meet at a vertex. -/
theorem Layer.addLoops_reproduced_triangleAndDigon : ∃ l g,
    build { degenerates := .discard, duplicates := .merge } #[default, default, default, default]
        [⟨2, 0⟩, ⟨0, 3⟩, ⟨0, 1⟩, ⟨1, 2⟩, ⟨3, 0⟩] [] = .ok l ∧ l.graph = .ok g ∧
      Workspace.addLoops {} g .simple = .ok ({ loops := [[3, 0, 2], [1, 4]] }, none) ∧
      ∃ l' g', build { degenerates := .discard, duplicates := .merge }
          #[default, default, default, default] (g.asEdges [[3, 0, 2], [1, 4]]).flatten [] = .ok l' ∧
        l'.graph = .ok g' ∧ g'.edges = g.edges ∧ ∀ w : Workspace, w.addLoops g' .simple =
          .ok ({ w with loops := w.loops ++ [[3, 0, 2], [1, 4]] }, none) := by
  have hnodup : ([⟨2, 0⟩, ⟨0, 3⟩, ⟨0, 1⟩, ⟨1, 2⟩, ⟨3, 0⟩] : List Edge).Nodup := by decide
  obtain ⟨l, g, hbuild, hgraph, hagain⟩ := addLoops_reproduced
    (o := { degenerates := .discard, duplicates := .merge }) rfl rfl rfl .standard
    #[default, default, default, default] hnodup (by decide) (by decide)
  have hloops : (do
      let l ← build { degenerates := .discard, duplicates := .merge } #[default, default, default, default]
        [⟨2, 0⟩, ⟨0, 3⟩, ⟨0, 1⟩, ⟨1, 2⟩, ⟨3, 0⟩] []
      let g ← liftFault l.graph
      g.directedLoops .standard .simple) = .ok [[3, 0, 2], [1, 4]] := by cbv
  rw [hbuild, ok_bind, hgraph, liftFault_ok, ok_bind] at hloops
  have hadd : Workspace.addLoops {} g .simple = .ok ({ loops := [[3, 0, 2], [1, 4]] }, none) := by
    rw [Workspace.addLoops, hloops]
    rfl
  exact ⟨l, g, hbuild, hgraph, hadd, hagain {} .simple _ hadd⟩

end SnapGraph
