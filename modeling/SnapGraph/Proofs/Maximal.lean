import Mathlib
import SnapGraph.Proofs.Thrift

/-! Paths cannot be made longer. At an interior vertex two ends of edges meet, and a path that comes there
takes them both, as it passes the vertex or leads around from it. So it comes there only once, and no
other path does. -/

namespace SnapGraph

namespace Graph

/-- One chain passes through the vertex, by one edge in and one edge out. -/
def IsInterior (g : Graph) (v : Int) : Prop :=
  if g.options.isDirected then g.inDegree v = 1 ∧ g.outDegree v = 1 else g.outDegree v = 2

end Graph

namespace Thread

variable {t : Thread} {lines : List (List Nat)} {l m : List Nat} {x : Int}

theorem isInterior_iff (ht : t.Sound) : t.isInterior x ↔ t.graph.IsInterior x := by
  unfold isInterior Graph.IsInterior directed
  rw [ht.incidence, Graph.outDegree_incidence, Graph.inDegree_incidence]
  split
  · rw [Bool.and_eq_true, beq_iff_eq, beq_iff_eq]
  · rw [beq_iff_eq]

/-! ### The two ends at an interior vertex -/

/-- Of two siblings, the edge that is used leaves a vertex where the other one enters it. -/
theorem Covers.incidences_flatten (h : t.Covers lines) (ht : t.Sound) (x : Int) :
    incidences t.graph.edge lines.flatten x =
      if t.directed then t.graph.outDegree x + t.graph.inDegree x else t.graph.outDegree x := by
  have hout : _ = t.graph.outDegree x := h.perm.countP_eq fun e => (t.graph.edge e).origin == x
  have hin : _ = t.graph.inDegree x := h.perm.countP_eq fun e => (t.graph.edge e).dest == x
  by_cases hd : t.directed
  · rw [both, if_pos hd] at hout hin
    rw [incidences, hout, hin, if_pos hd]
  · rw [both, if_neg hd, List.countP_append,
      countP_map_sibling ht (by simpa using hd) h.lt_of_mem_flatten] at hout
    rw [incidences, hout, if_neg hd]

theorem Covers.incidences_le (h : t.Covers lines) (ht : t.Sound) (hx : t.isInterior x)
    (hl : l.Sublist lines.flatten) : incidences t.graph.edge l x ≤ 2 := by
  have hle : incidences t.graph.edge l x ≤ incidences t.graph.edge lines.flatten x :=
    incidences_le_of_sublist hl x
  rw [h.incidences_flatten ht] at hle
  have hdegree := (isInterior_iff ht).1 hx
  unfold Graph.IsInterior at hdegree
  unfold directed at hle
  split at hdegree
  · rename_i hd
    rw [if_pos hd] at hle
    omega
  · rename_i hd
    rw [if_neg hd] at hle
    omega

/-- A path that comes to an interior vertex takes both ends of edges there. -/
theorem IsPath.two_le_incidences (h : t.IsPath l) (hl : l ≠ []) (hx : x ∈ vertices t.graph.edge l)
    (hinterior : t.isInterior x) : 2 ≤ incidences t.graph.edge l x := by
  cases h with
  | @opened u v hjoins hu hv _ =>
      have hux : u ≠ x := fun hux => hu (hux ▸ hinterior)
      have hvx : v ≠ x := fun hvx => hv (hvx ▸ hinterior)
      have hcount := List.count_pos_iff.2 hx
      rw [hjoins.count_vertices hl, if_neg hux, if_neg hvx] at hcount
      rw [hjoins.incidences_eq hl]
      omega
  | closed hjoins _ _ =>
      have hcount := List.count_pos_iff.2 hx
      rw [hjoins.count_vertices hl] at hcount
      rw [hjoins.incidences_eq hl]
      omega

theorem IsPath.isInterior_of_mem_inner (h : t.IsPath l) (hx : x ∈ inner t.graph.edge l) :
    t.isInterior x := by
  cases h with
  | opened _ _ _ hinner => exact hinner x hx
  | closed _ hall _ => exact hall x (mem_vertices_of_mem_inner hx)

/-- A path comes only once to the vertices that it passes. -/
theorem Covers.count_vertices (h : t.Covers lines) (ht : t.Sound) (hl : l ∈ lines)
    (hx : x ∈ inner t.graph.edge l) (hinterior : t.isInterior x) :
    (vertices t.graph.edge l).count x = 1 := by
  obtain ⟨u, v, hjoins, -⟩ := (h.polylines l hl).exists_joins
  have hne := (h.polylines l hl).ne_nil
  have hle := h.incidences_le ht hinterior (List.sublist_flatten_of_mem hl)
  have hpos := List.count_pos_iff.2 hx
  rw [hjoins.incidences_eq hne] at hle
  rw [hjoins.count_vertices hne]
  omega

/-- Two paths do not come to one interior vertex. -/
theorem Covers.pairwise_apart (h : t.Covers lines) (ht : t.Sound) (hpaths : ∀ l ∈ lines, t.IsPath l) :
    lines.Pairwise fun l m => ∀ x ∈ vertices t.graph.edge l, t.isInterior x →
      x ∉ vertices t.graph.edge m := by
  rw [List.pairwise_iff_forall_sublist]
  intro l m hsub x hxl hinterior hxm
  have hl : l ∈ lines := hsub.subset List.mem_cons_self
  have hm : m ∈ lines := hsub.subset (List.mem_cons_of_mem l List.mem_cons_self)
  have hboth : (l ++ m).Sublist lines.flatten := by
    have hflatten := hsub.flatten
    rwa [List.flatten_cons, List.flatten_cons, List.flatten_nil, List.append_nil] at hflatten
  have hle := h.incidences_le ht hinterior hboth
  have hfirst := (hpaths l hl).two_le_incidences (h.polylines l hl).ne_nil hxl hinterior
  have hsecond := (hpaths m hm).two_le_incidences (h.polylines m hm).ne_nil hxm hinterior
  rw [incidences_append] at hle
  omega

end Thread

namespace Graph

/-- What paths promise: they thread the graph, each of them passes interior vertices only, and passes
them once, from a vertex that is not interior to one that is not, or around from its canonical start. No
two of them come to one interior vertex, and they ascend by the ids of their first edges. -/
structure AreMaximal (g : Graph) (ids : Array Int) (lines : List (List Nat)) : Prop where
  threaded : g.AreThreaded lines
  inner : ∀ l ∈ lines, ∀ x ∈ inner g.edge l, g.IsInterior x ∧ (vertices g.edge l).count x = 1
  ends : ∀ l ∈ lines, ∃ u v, ends g.edge l = (some u, some v) ∧
    (¬g.IsInterior u ∧ ¬g.IsInterior v ∨
      u = v ∧ (∀ x ∈ vertices g.edge l, g.IsInterior x) ∧
        canonicalLoop? ids (l.map Int.ofNat) = .ok (l.map Int.ofNat))
  apart : lines.Pairwise fun l m =>
    ∀ x ∈ vertices g.edge l, g.IsInterior x → x ∉ vertices g.edge m
  ordered : lines.Pairwise fun l m =>
    chainKey (fun e => ids.getD e noInput) l ≤ chainKey (fun e => ids.getD e noInput) m

theorem areMaximal {t : Thread} {lines : List (List Nat)} (ht : t.Sound)
    (hthreaded : t.graph.AreThreaded lines) (hcovers : t.Covers lines)
    (hpaths : ∀ l ∈ lines, t.IsPath l)
    (hordered : lines.Pairwise fun l m => chainKey t.key l ≤ chainKey t.key m) :
    t.graph.AreMaximal t.ids lines := by
  have hiff : ∀ x, t.isInterior x ↔ t.graph.IsInterior x := fun _ => Thread.isInterior_iff ht
  refine ⟨hthreaded, fun l hl x hx => ?_, fun l hl => ?_, ?_, hordered⟩
  · have hinterior := (hpaths l hl).isInterior_of_mem_inner hx
    exact ⟨(hiff x).1 hinterior, hcovers.count_vertices ht hl hx hinterior⟩
  · have hne := (hcovers.polylines l hl).ne_nil
    cases hpaths l hl with
    | opened hjoins hu hv _ =>
        exact ⟨_, _, hjoins.ends_eq hne, .inl ⟨mt (hiff _).2 hu, mt (hiff _).2 hv⟩⟩
    | closed hjoins hall hstart =>
        refine ⟨_, _, hjoins.ends_eq hne, .inr ⟨rfl, fun x hx => (hiff x).1 (hall x hx), ?_⟩⟩
        have hlt : ∀ e ∈ l, e < t.ids.size := ht.ids ▸ hcovers.lt hl
        rw [canonicalLoop?_eq_ok hlt]
        exact congrArg (fun l => Except.ok (l.map Int.ofNat)) hstart
  · simp only [← hiff]
    exact hcovers.pairwise_apart ht hpaths

/-- Paths through a graph without degenerate edges, each of whose undirected edges occurs as often as
its reverse. -/
theorem polylines_areMaximal (g : Graph) (hinputs : g.KnowsInputs)
    (hdegenerates : g.options.degenerates = .discard)
    (hsiblings : g.options.siblings = .discard ∨ g.options.siblings = .keep)
    (hproper : ∀ e < g.numEdges, (g.edge e).isDegenerate = false)
    (hpaired : g.options.isUndirected →
      ∀ e : Edge, g.edges.toList.count e = g.edges.toList.count e.reverse) :
    ∃ ids lines, g.minInputIds = .ok ids ∧ g.polylines .path = .ok lines ∧
      g.AreMaximal ids lines := by
  obtain ⟨t, hthread, ht, rfl, hsibling⟩ := g.exists_thread hinputs hdegenerates hproper hpaired
  obtain ⟨chains, hchains, hpaths, hlines, hperm⟩ := Thread.exists_isPath ht
  have horder := orderChains_perm t.key chains
  have hcovers : t.Covers (orderChains t.key chains) :=
    ⟨fun l hl => hlines l (horder.mem_iff.1 hl), (Thread.both_perm horder.flatten).trans hperm⟩
  have hthreaded := areThreaded ht rfl hsibling hdegenerates hcovers.polylines hcovers.perm
  have hmaximal := areMaximal ht hthreaded hcovers (fun l hl => hpaths l (horder.mem_iff.1 hl))
    (pairwise_orderChains t.key chains)
  exact ⟨t.ids, orderChains t.key chains, minInputIds_of_thread hthread,
    polylines_path_eq hdegenerates hsiblings hthread hchains, hmaximal⟩

theorem polylines_areMaximal_edgeAndTriangle :
    ∃ ids lines, edgeAndTriangle.minInputIds = .ok ids ∧
      edgeAndTriangle.polylines .path = .ok lines ∧ edgeAndTriangle.AreMaximal ids lines :=
  polylines_areMaximal edgeAndTriangle (knowsInputs_of_singles (by decide)) rfl (.inl rfl) (by decide)
    fun _ => edgeAndTriangle.map_reverse_perm_iff.1 (by decide)

end Graph

end SnapGraph
