import Mathlib
import SnapGraph.Workspace
import SnapGraph.Proofs.Clockwise
import SnapGraph.Proofs.Compaction

/-! Renumbering the vertices of a graph in order changes nothing that is assembled. Edges are compared with
each other only, so their bundles and stars are the old ones with vertices mapped; the directions around
a vertex depend on positions and on the order of ids, so spokes keep their order and are matched alike.
Vertices are named only in the report of an edge left without a turn. -/

namespace SnapGraph

variable {f : Int → Int}

/-! ### Bundles and stars with vertices mapped -/

def Tagged.mapVertices {α : Type} (f : Int → Int) (t : Tagged α) : Tagged α := ⟨t.edge.map f, t.item⟩

def Bundle.mapVertices {α : Type} (f : Int → Int) (b : Bundle α) : Bundle α :=
  ⟨b.edge.map f, b.forward, b.backward⟩

def Star.mapVertices {α : Type} (f : Int → Int) (s : Star α) : Star α :=
  ⟨f s.center, s.bundles.map (Bundle.mapVertices f)⟩

theorem Edge.map_beq_map (hf : Function.Injective f) (a b : Edge) : (a.map f == b.map f) = (a == b) := by
  rw [Bool.eq_iff_iff, beq_iff_eq, beq_iff_eq]
  exact (Edge.map_injective hf).eq_iff

namespace Bundle

variable {α : Type}

theorem run_mapVertices (hf : Function.Injective f) (e : Edge) (l : List (Tagged α)) :
    run (e.map f) (l.map (Tagged.mapVertices f)) = run e l := by
  rw [run, List.takeWhile_map, List.map_map]
  refine congrArg (List.map Tagged.item) (congrArg (List.takeWhile · l) (funext fun t => ?_))
  exact Edge.map_beq_map hf t.edge e

theorem afterRun_mapVertices (hf : Function.Injective f) (e : Edge) (l : List (Tagged α)) :
    afterRun (e.map f) (l.map (Tagged.mapVertices f)) =
      (afterRun e l).map (Tagged.mapVertices f) := by
  rw [afterRun, List.dropWhile_map]
  refine congrArg (List.map _) (congrArg (List.dropWhile · l) (funext fun t => ?_))
  exact Edge.map_beq_map hf t.edge e

theorem nextEdge?_mapVertices (hf : StrictMono f) (outs ins : List (Tagged α)) :
    nextEdge? (outs.map (Tagged.mapVertices f)) (ins.map (Tagged.mapVertices f)) =
      (nextEdge? outs ins).map (Edge.map f) := by
  match outs, ins with
  | [], [] => rfl
  | _ :: _, [] => rfl
  | [], _ :: _ => rfl
  | o :: _, i :: _ =>
      show some (if o.edge.map f ≤ i.edge.map f then _ else _) = some (Edge.map f (if _ then _ else _))
      simp only [Edge.map_le_map_iff hf]
      split
      · rfl
      · rfl

theorem merge_mapVertices (hf : StrictMono f) (outs ins : List (Tagged α)) :
    merge (outs.map (Tagged.mapVertices f)) (ins.map (Tagged.mapVertices f)) =
      (merge outs ins).map (mapVertices f) := by
  have hnext : ∀ outs ins : List (Tagged α), _ := nextEdge?_mapVertices hf
  fun_induction merge outs ins with
  | case1 outs ins hnone =>
      rw [merge]
      split
      · rfl
      · rename_i e he
        rw [hnext, hnone] at he
        cases he
  | case2 outs ins e hsome ih =>
      rw [merge]
      split
      · rename_i hnone
        rw [hnext, hsome] at hnone
        cases hnone
      · rename_i e' he'
        rw [hnext, hsome] at he'
        obtain rfl := Option.some.inj he'
        rw [run_mapVertices hf.injective, run_mapVertices hf.injective,
          afterRun_mapVertices hf.injective, afterRun_mapVertices hf.injective, ih, List.map_cons]
        rfl

end Bundle

theorem Star.ofBundles_mapVertices {α : Type} (hf : Function.Injective f) (bs : List (Bundle α)) :
    ofBundles (bs.map (Bundle.mapVertices f)) = (ofBundles bs).map (mapVertices f) := by
  induction bs with
  | nil => rfl
  | cons b bs ih =>
      rw [List.map_cons, ofBundles, ih, ofBundles]
      cases ofBundles bs with
      | nil => rfl
      | cons s ss =>
          show (if f s.center = f b.edge.origin then _ else _) = _
          simp only [hf.eq_iff]
          split
          · rfl
          · rfl

/-! ### Spokes and matching -/

def Spoke.mapTip (f : Int → Int) (s : Spoke) : Spoke := { s with tip := f s.tip }

theorem Spoke.alternate_mapTip (tip : Int) (rank : Nat) (outs ins : List Nat) :
    alternate (f tip) rank outs ins = (alternate tip rank outs ins).map (mapTip f) := by
  fun_induction alternate tip rank outs ins with
  | case1 =>
      rw [alternate]
      rfl
  | case2 rank i ins ih | case3 rank i ins ih =>
      rw [alternate, ih]
      rfl
  | case4 rank o outs i ins ih =>
      rw [alternate, ih]
      rfl

theorem Spoke.compareBy_mapTip (hf : Function.Injective f) {direction direction' : Int → Int → Ordering}
    {a b : Spoke} (h : direction (f a.tip) (f b.tip) = direction' a.tip b.tip) :
    compareBy direction (a.mapTip f) (b.mapTip f) = compareBy direction' a b := by
  show (if f a.tip = f b.tip then compare a.rank b.rank else direction (f a.tip) (f b.tip)) = _
  rw [h]
  simp only [hf.eq_iff]
  rfl

theorem Bundle.spokes_mapVertices (hf : Function.Injective f) (b : Bundle Nat) :
    (b.mapVertices f).spokes = b.spokes.map (Spoke.mapTip f) := by
  rw [spokes, spokes, mapVertices, Edge.isDegenerate_map hf]
  split
  · rfl
  · exact Spoke.alternate_mapTip _ _ _ _

theorem Matching.scan_mapTip (waiting : List Nat) (spokes : List Spoke) :
    scan waiting (spokes.map (Spoke.mapTip f)) = scan waiting spokes := by
  induction spokes generalizing waiting with
  | nil => rfl
  | cons s rest ih =>
      simp only [List.map_cons, scan, ih]
      rfl

theorem Matching.ofSpokes_mapTip (spokes : List Spoke) :
    ofSpokes (spokes.map (Spoke.mapTip f)) = ofSpokes spokes := by
  rw [ofSpokes, ofSpokes, scan_mapTip]

/-- Spokes stand in the same order if directions compare alike. -/
theorem Star.spokes_mapVertices (sort : ComparisonSort Spoke) (hf : Function.Injective f)
    {compass compass' : Compass} {s : Star Nat} {tips : Int → Prop}
    (htips : ∀ b ∈ s.bundles, tips b.edge.dest)
    (hcompass : ∀ u v w, tips u → tips v → tips w →
      compass (f s.center) (f u) (f v) (f w) = compass' s.center u v w) :
    (s.mapVertices f).spokes sort compass =
      (s.spokes sort compass').map (List.map (Spoke.mapTip f)) := by
  have hall : (s.mapVertices f).bundles.flatMap Bundle.spokes =
      (s.bundles.flatMap Bundle.spokes).map (Spoke.mapTip f) := by
    rw [mapVertices, List.flatMap_map, List.map_flatMap]
    exact congrArg (List.flatMap · s.bundles) (funext fun b => Bundle.spokes_mapVertices hf b)
  have htip : ∀ x ∈ s.bundles.flatMap Bundle.spokes, tips x.tip := by
    intro x hx
    obtain ⟨b, hb, hx⟩ := List.mem_flatMap.1 hx
    rw [Bundle.tip_of_mem_spokes hx]
    exact htips b hb
  unfold spokes
  rw [hall]
  cases hspokes : s.bundles.flatMap Bundle.spokes with
  | nil => rfl
  | cons first rest =>
      rw [hspokes] at htip
      obtain ⟨hfirst, hrest⟩ := List.forall_mem_cons.1 htip
      have hsort := sort.map (f := Spoke.mapTip f) fun x hx y hy => Spoke.compareBy_mapTip hf
        (hcompass first.tip x.tip y.tip hfirst (hrest x hx) (hrest y hy))
      rw [List.map_cons]
      show (sort.sort (Spoke.compareBy (compass (f s.center) (f first.tip))) _ >>= _) = _
      rw [hsort]
      show _ = Except.map _ (sort.sort (Spoke.compareBy (compass' s.center first.tip)) rest >>= _)
      cases sort.sort (Spoke.compareBy (compass' s.center first.tip)) rest with
      | error e => rfl
      | ok spokes => rfl

/-! ### Errors -/

/-- The same error, with the vertex that it names renumbered. -/
def BuildError.renumber (new : Int → Int) : BuildError → BuildError
  | .unmatchedEdge edge vertex => .unmatchedEdge edge (new vertex)
  | error => error

def Outcome.renumber {α : Type} (new : Int → Int) (r : Outcome α) : Outcome α :=
  ⟨r.value, r.error?.map (BuildError.renumber new)⟩

theorem Star.error?_mapVertices (hf : Function.Injective f) (s : Star Nat) (m : Matching) :
    (s.mapVertices f).error? m = (s.error? m).map (BuildError.renumber f) := by
  have hdegenerate : ((s.mapVertices f).bundles.filter fun b => b.edge.isDegenerate).flatMap
      Bundle.forward = (s.bundles.filter fun b => b.edge.isDegenerate).flatMap Bundle.forward := by
    rw [mapVertices, List.filter_map, List.flatMap_map]
    refine congrArg (List.flatMap Bundle.forward) (List.filter_congr fun b _ => ?_)
    exact Edge.isDegenerate_map hf b.edge
  rw [error?_eq, error?_eq, hdegenerate]
  cases ((s.bundles.filter fun b => b.edge.isDegenerate).flatMap Bundle.forward).head? with
  | some e => rfl
  | none =>
      cases m.unmatched.getLast? with
      | none => rfl
      | some e => rfl

/-! ### Graphs -/

theorem swapDegenerates_map (hf : Function.Injective f) (i : Nat) (edges : List Edge)
    (ids : List Int) : swapDegenerates i (edges.map (Edge.map f)) ids = swapDegenerates i edges ids := by
  fun_induction swapDegenerates i edges ids with
  | case1 i ids => rfl
  | case2 i e hdegenerate e' rest a b ids hpair ih =>
      obtain ⟨rfl, rfl⟩ := hpair
      simp only [List.map_cons, swapDegenerates, Edge.isDegenerate_map hf, hdegenerate, if_true,
        and_self, ih]
  | case3 i e hdegenerate e' rest a b ids hpair =>
      rw [← (Edge.map_injective hf).eq_iff] at hpair
      simp only [List.map_cons, swapDegenerates, Edge.isDegenerate_map hf, hdegenerate, if_true,
        if_neg hpair]
  | case4 i e rest ids hdegenerate hshort =>
      rw [List.map_cons, swapDegenerates.eq_def]
      simp only [Edge.isDegenerate_map hf, hdegenerate, if_true]
      rcases rest with _ | ⟨e', rest⟩
      · rfl
      · rcases ids with _ | ⟨a, _ | ⟨b, ids⟩⟩
        · rfl
        · rfl
        · exact (hshort e' rest a b ids rfl rfl).elim
  | case5 i e rest hproper ih =>
      rw [List.map_cons, swapDegenerates.eq_def]
      simp only [Edge.isDegenerate_map hf, if_neg hproper, ih]
  | case6 i e rest hproper a ids ih =>
      rw [List.map_cons, swapDegenerates.eq_def]
      simp only [Edge.isDegenerate_map hf, if_neg hproper, ih]

namespace Layer.Renumbers

variable {old : Int → Int} {g g' : Graph} (h : g.toLayer.Renumbers old g'.toLayer)

include h

theorem numEdges : g'.numEdges = g.numEdges := by
  rw [Graph.numEdges, Graph.numEdges, ← Array.length_toList, ← Array.length_toList, ← h.edges,
    List.length_map]

theorem edgeIds : g'.edgeIds = g.edgeIds := by
  rw [Graph.edgeIds, Graph.edgeIds, h.numEdges]

theorem edge {e : Nat} (he : e < g.numEdges) : g.edge e = (g'.edge e).map old := by
  have he' : e < g'.numEdges := h.numEdges ▸ he
  have hget : g.edges.toList[e]? = (g'.edges.toList.map (Edge.map old))[e]? := by rw [h.edges]
  rw [List.getElem?_map, Array.getElem?_toList, Array.getElem?_toList,
    Array.getElem?_eq_getElem he, Array.getElem?_eq_getElem he'] at hget
  rw [g.edge_eq_getElem he, g'.edge_eq_getElem he']
  exact Option.some.inj hget

theorem inEdgeIds : g'.inEdgeIds = g.inEdgeIds := by
  have hsort := List.map_mergeSort (f := id) (l := g.edgeIds)
    (r := fun a b => decide ((g'.edge a).reverse ≤ (g'.edge b).reverse))
    (s := fun a b => decide ((g.edge a).reverse ≤ (g.edge b).reverse)) fun a ha b hb => by
      rw [id_eq, id_eq, h.edge (g.mem_edgeIds.1 ha), h.edge (g.mem_edgeIds.1 hb), Edge.reverse_map,
        Edge.reverse_map]
      simp only [Edge.map_le_map_iff h.strictMono]
  rw [List.map_id, List.map_id] at hsort
  rw [Graph.inEdgeIds, Graph.inEdgeIds, h.edgeIds, hsort]

theorem minInputIds : g'.minInputIds = g.minInputIds := by
  have hmin : g'.minInputId = g.minInputId := by
    funext e
    rw [Graph.minInputId, Graph.minInputId, Graph.inputIds, Graph.inputIds, h.inputHandles,
      h.inputSets]
  rw [Graph.minInputIds, Graph.minInputIds, h.edgeIds, hmin]

theorem siblingMap : g'.siblingMap = g.siblingMap := by
  rw [Graph.siblingMap, Graph.siblingMap, Graph.makeSiblingMap, Graph.makeSiblingMap, h.options,
    h.inEdgeIds, ← h.edges, swapDegenerates_map h.strictMono.injective]

theorem siblingOf : g'.siblingOf = g.siblingOf := by
  rw [Graph.siblingOf, Graph.siblingOf, h.siblingMap]

/-! ### Routing -/

theorem leaving : g.leaving = g'.leaving.map (Tagged.mapVertices old) := by
  rw [Graph.leaving, Graph.leaving, h.edgeIds, List.map_map]
  refine List.map_congr_left fun e he => ?_
  rw [h.edge (g.mem_edgeIds.1 he)]
  rfl

theorem entering {inIds : List Nat} (hids : ∀ e ∈ inIds, e < g.numEdges) :
    g.entering inIds = (g'.entering inIds).map (Tagged.mapVertices old) := by
  rw [Graph.entering, Graph.entering, List.map_map]
  refine List.map_congr_left fun e he => ?_
  rw [h.edge (hids e he)]
  rfl

theorem routingStars_eq {inIds : List Nat} (hids : ∀ e ∈ inIds, e < g.numEdges) :
    routingStars g.edges inIds = (routingStars g'.edges inIds).map (Star.mapVertices old) := by
  rw [Graph.routingStars_eq, Graph.routingStars_eq, h.leaving, h.entering hids,
    Bundle.merge_mapVertices h.strictMono, Star.ofBundles_mapVertices h.strictMono.injective]

/-- The directions around a vertex compare as they did. -/
theorem compass_eq {center u v w : Int} (hcenter : center ∈ g'.vertexIds) (hu : u ∈ g'.vertexIds)
    (hv : v ∈ g'.vertexIds) (hw : w ∈ g'.vertexIds) :
    g.compass (old center) (old u) (old v) (old w) = g'.compass center u v w := by
  have hposition : ∀ x ∈ g'.vertexIds, g.position (old x) = g'.position x := by
    intro x hx
    obtain ⟨hnonneg, hlt⟩ := Graph.mem_vertexIds.1 hx
    exact (h.vertex x hnonneg hlt).2.2.symm
  have hcompare : compare (old v) (old w) = compare v w := by
    rw [← cmp_eq_compare, ← cmp_eq_compare, h.strictMono.cmp_map_eq]
  unfold Graph.compass
  rw [hposition center hcenter, hposition u hu, hposition v hv, hposition w hw, hcompare]

end Layer.Renumbers

/-- The vertices that a star names are vertices of the graph. -/
theorem Graph.vertexIds_of_mem_routingStars {g : Graph} {inIds : List Nat}
    (hids : ∀ e ∈ inIds, e < g.numEdges) {s : Star Nat} (hs : s ∈ routingStars g.edges inIds) :
    s.center ∈ g.vertexIds ∧ ∀ b ∈ s.bundles, b.edge.dest ∈ g.vertexIds := by
  rw [routingStars_eq] at hs
  have hends : ∀ b ∈ s.bundles, b.edge.origin ∈ g.vertexIds ∧ b.edge.dest ∈ g.vertexIds := by
    intro b hb
    have hmerge : b ∈ Bundle.merge g.leaving (g.entering inIds) := by
      rw [← Star.flatMap_bundles_ofBundles (Bundle.merge _ _)]
      exact List.mem_flatMap.2 ⟨s, hs, hb⟩
    rcases Bundle.exists_mem_merge_iff.1 ⟨b, hmerge, rfl⟩ with hout | ⟨t, ht, hedge⟩
    · obtain ⟨e, he, hedge⟩ := g.exists_leaving_iff.1 hout
      rw [← hedge]
      exact ⟨mem_vertexIds_of_touches he (by simp [Edge.touches]),
        mem_vertexIds_of_touches he (by simp [Edge.touches])⟩
    · obtain ⟨e, he, rfl⟩ := List.mem_map.1 ht
      rw [← hedge]
      exact ⟨mem_vertexIds_of_touches (hids e he) (by simp [Edge.touches]),
        mem_vertexIds_of_touches (hids e he) (by simp [Edge.touches])⟩
  obtain ⟨hne, horigin⟩ := Star.bundles_of_mem_ofBundles hs
  obtain ⟨b, hb⟩ := List.exists_mem_of_ne_nil _ hne
  exact ⟨horigin b hb ▸ (hends b hb).1, fun b hb => (hends b hb).2⟩

section Route

variable {old new : Int → Int} {g g' : Graph} (h : g.toLayer.Renumbers old g'.toLayer)
  (hnew : ∀ v ∈ g'.vertexIds, new (old v) = v) (sort : ComparisonSort Spoke) {inIds : List Nat}
  (hids : ∀ e ∈ inIds, e < g.numEdges)

include h hids

/-- The spokes of a star come in the same order, or the sort gives up on both alike. -/
theorem Layer.Renumbers.spokes_eq {s : Star Nat} (hs : s ∈ routingStars g'.edges inIds) :
    (s.mapVertices old).spokes sort g.compass =
      (s.spokes sort g'.compass).map (List.map (Spoke.mapTip old)) := by
  have hids' : ∀ e ∈ inIds, e < g'.numEdges := fun e he => h.numEdges ▸ hids e he
  obtain ⟨hcenter, htips⟩ := Graph.vertexIds_of_mem_routingStars hids' hs
  exact Star.spokes_mapVertices sort h.strictMono.injective htips fun u v w hu hv hw =>
    h.compass_eq hcenter hu hv hw

include hnew

/-- Errors name the new vertices where they named the old ones. -/
theorem Layer.Renumbers.error?_eq {s : Star Nat} (hs : s ∈ routingStars g'.edges inIds)
    (m : Matching) : s.error? m = ((s.mapVertices old).error? m).map (BuildError.renumber new) := by
  have hids' : ∀ e ∈ inIds, e < g'.numEdges := fun e he => h.numEdges ▸ hids e he
  have hcenter := hnew _ (Graph.vertexIds_of_mem_routingStars hids' hs).1
  rw [Star.error?_mapVertices h.strictMono.injective, Star.error?_eq]
  cases ((s.bundles.filter fun b => b.edge.isDegenerate).flatMap Bundle.forward).head? with
  | some e => rfl
  | none =>
      cases m.unmatched.getLast? with
      | none => rfl
      | some e => exact congrArg (fun v => some (BuildError.unmatchedEdge e v)) hcenter.symm

/-- The same stars, their spokes in the same order, give the same turns. -/
theorem Layer.Renumbers.ofStars_eq (n : Nat) {stars : List (Star Nat × List Spoke)}
    (hstars : ∀ p ∈ stars, p.1 ∈ routingStars g'.edges inIds) :
    Turns.ofStars n stars = (Turns.ofStars n (stars.map fun p =>
      (p.1.mapVertices old, p.2.map (Spoke.mapTip old)))).renumber new := by
  have hturns : ∀ p : Star Nat × List Spoke,
      (Matching.ofSpokes (p.2.map (Spoke.mapTip old))).turns = (Matching.ofSpokes p.2).turns :=
    fun p => by rw [Matching.ofSpokes_mapTip]
  have herror : ∀ p ∈ stars, p.1.error? (Matching.ofSpokes p.2) = ((p.1.mapVertices old).error?
      (Matching.ofSpokes (p.2.map (Spoke.mapTip old)))).map (BuildError.renumber new) := by
    intro p hp
    rw [Matching.ofSpokes_mapTip]
    exact h.error?_eq hnew hids (hstars p hp) _
  have hfirst := congrArg (List.findSome? id) (List.map_congr_left herror)
  rw [List.findSome?_map, List.findSome?_map] at hfirst
  simp only [Turns.ofStars, Outcome.renumber, List.flatMap_map, List.findSome?_map,
    List.map_findSome?, Function.comp_def, hturns]
  exact congrArg (Outcome.mk _) hfirst

/-- Routing finds the same turns. -/
theorem Layer.Renumbers.route_eq : route sort g'.compass g'.edges inIds =
    (route sort g.compass g.edges inIds).map (Outcome.renumber new) := by
  have hsize : g'.edges.size = g.edges.size := h.numEdges
  have hspokes : ∀ s ∈ routingStars g'.edges inIds,
      (do return (s.mapVertices old, ← (s.mapVertices old).spokes sort g.compass) :
        Except Fault (Star Nat × List Spoke)) =
      (do return (s, ← s.spokes sort g'.compass) : Except Fault (Star Nat × List Spoke)).map
        fun p => (p.1.mapVertices old, p.2.map (Spoke.mapTip old)) := by
    intro s hs
    rw [h.spokes_eq sort hids hs]
    cases s.spokes sort g'.compass with
    | error f => rfl
    | ok spokes => rfl
  rw [route, route, h.routingStars_eq hids, mapM_map_eq hspokes, hsize]
  cases hstars : (routingStars g'.edges inIds).mapM (m := Except Fault) fun s => do
      return (s, ← s.spokes sort g'.compass) with
  | error f => rfl
  | ok stars =>
      refine congrArg Except.ok (h.ofStars_eq hnew hids _ fun p hp => ?_)
      obtain ⟨s, hs, hp⟩ := exists_of_mem_mapM hstars p hp
      obtain ⟨spokes, -, hp⟩ := bind_eq_ok_iff.1 hp
      cases hp
      exact hs

end Route

end SnapGraph
