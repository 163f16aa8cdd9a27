import Mathlib
import SnapGraph.Proofs.Compaction

/-! What compaction leaves, whatever the scratch table holds. The vertices are those that an edge touches, in
their old order; the new number of a vertex is its place among them. So edges ascend as before, each of the
new numbers is touched again, and to compact once more changes nothing. -/

namespace SnapGraph

theorem Edge.touches_map {e : Edge} {v : Int} (h : e.touches v) (f : Int → Int) :
    (e.map f).touches (f v) := by
  rw [touches, Bool.or_eq_true, beq_iff_eq, beq_iff_eq] at h ⊢
  exact h.imp (congrArg f) (congrArg f)

/-! ### Vertices that are kept -/

section Range

variable {vertices : Array Point} {edges : Array Edge}
  (hrange : ∀ e ∈ edges.toList, e.inRange vertices.size)

include hrange

theorem map_toNat_touchedVertices : (touchedVertices edges).map Int.toNat =
    (List.range vertices.size).filter fun v : Nat => edges.toList.any (·.touches v) := by
  refine List.Pairwise.eq_of_mem_iff (pairwise_touchedVertices hrange)
    (List.pairwise_lt_range.filter _) fun v => ?_
  rw [List.mem_map, List.mem_filter, List.mem_range, List.any_eq_true, ← mem_touchedVertices]
  constructor
  · rintro ⟨w, hw, rfl⟩
    obtain ⟨hnonneg, hlt⟩ := nonneg_of_mem_touchedVertices hrange hw
    rw [Int.toNat_of_nonneg hnonneg]
    exact ⟨by omega, hw⟩
  · rintro ⟨-, hv⟩
    exact ⟨v, hv, Int.toNat_natCast v⟩

/-- The vertices that are kept are picked out of all vertices. -/
theorem map_getD_touchedVertices :
    ((touchedVertices edges).map Int.toNat).map (fun v => vertices.getD v default) =
      (vertices.toList.zipIdx.filter fun x => edges.toList.any (·.touches x.2)).map Prod.fst := by
  have hzip : vertices.toList.zipIdx =
      (List.range vertices.size).map fun v => (vertices.getD v default, v) := by
    refine List.ext_getElem (by simp) fun i hi _ => ?_
    rw [List.length_zipIdx, Array.length_toList] at hi
    simp [Array.getD_eq_getD_getElem?, hi]
  rw [map_toNat_touchedVertices hrange, hzip, List.filter_map, List.map_map]
  rfl

/-- If an edge touches every vertex, nothing is dropped and nothing is renumbered. -/
theorem exists_compact_eq_self
    (htouched : ∀ v : Nat, v < vertices.size → ∃ e ∈ edges.toList, e.touches v)
    (scratch : Array Int) : ∃ table, compact vertices edges scratch = .ok ⟨vertices, edges, table⟩ := by
  obtain ⟨c, hcompact, hc⟩ := exists_isCompacted_touched vertices hrange scratch
  have hkept : (touchedVertices edges).map Int.toNat = List.range vertices.size := by
    rw [map_toNat_touchedVertices hrange, List.filter_eq_self]
    intro v hv
    exact List.any_eq_true.2 (htouched v (List.mem_range.1 hv))
  rw [hkept] at hc
  have hplace : ∀ v : Int, 0 ≤ v → v < vertices.size → c.scratch.getD v.toNat 0 = v := by
    intro v hnonneg hlt
    rw [hc.place v.toNat v.toNat (List.getElem?_range (by omega)), Int.toNat_of_nonneg hnonneg]
  have hedges : c.edges = edges := by
    rw [hc.edges]
    refine Array.toList_inj.1 ?_
    rw [Array.toList_map]
    refine (List.map_congr_left fun e he => ?_).trans (List.map_id _)
    obtain ⟨horigin, hdest⟩ := Edge.inRange_iff.1 (hrange e he)
    exact Edge.ext_iff'.2 ⟨hplace _ horigin.1 horigin.2, hplace _ hdest.1 hdest.2⟩
  have hvertices : c.vertices = vertices := by
    rw [hc.vertices]
    refine Array.toList_inj.1 (List.ext_getElem (by simp) fun i hi hi' => ?_)
    rw [Array.length_toList] at hi'
    simp [Array.getD_eq_getD_getElem?, hi']
  refine ⟨c.scratch, hcompact.trans ?_⟩
  rw [← hedges, ← hvertices]

end Range

/-! ### New numbers -/

/-- The new number of a vertex, given the old numbers of those that are kept, in order. -/
def newVertex (kept : List Nat) (v : Int) : Int := kept.idxOf v.toNat

namespace IsCompacted

variable {vertices : Array Point} {edges : Array Edge} {kept : List Nat} {c : Compacted}
  (h : IsCompacted vertices edges kept c) {e : Edge} {v : Int}

include h

theorem getD_scratch_eq_newVertex (he : e ∈ edges.toList) (hv : e.touches v) :
    c.scratch.getD v.toNat 0 = newVertex kept v :=
  h.place _ _ (List.getElem?_idxOf (h.touched e he v hv))

/-- An edge does not show what else is in the scratch table. -/
theorem edges_eq_map : c.edges = edges.map (Edge.map (newVertex kept)) := by
  rw [h.edges]
  refine Array.toList_inj.1 ?_
  rw [Array.toList_map, Array.toList_map]
  refine List.map_congr_left fun e he => Edge.ext_iff'.2 ⟨?_, ?_⟩
  · exact h.getD_scratch_eq_newVertex he (by simp [Edge.touches])
  · exact h.getD_scratch_eq_newVertex he (by simp [Edge.touches])

variable (hrange : ∀ e ∈ edges.toList, e.inRange vertices.size)

include hrange

theorem oldVertex_newVertex (he : e ∈ edges.toList) (hv : e.touches v) :
    oldVertex vertices.size kept (newVertex kept v) = v ∧
    0 ≤ newVertex kept v ∧ newVertex kept v < c.vertices.size := by
  obtain ⟨i, hi, hplace, hold⟩ := h.exists_place hrange he hv
  rw [← h.getD_scratch_eq_newVertex he hv, hplace, h.size_vertices]
  exact ⟨hold, Int.natCast_nonneg i, Int.ofNat_lt.2 hi⟩

theorem strictMonoOn_newVertex : StrictMonoOn (newVertex kept) {v | ∃ e ∈ edges.toList, e.touches v} := by
  rintro v ⟨e, he, hv⟩ w ⟨f, hf, hw⟩ hvw
  rw [← (h.oldVertex_newVertex hrange he hv).1, ← (h.oldVertex_newVertex hrange hf hw).1] at hvw
  exact (strictMono_oldVertex h.sorted h.lt).lt_iff_lt.1 hvw

/-- The new number of a vertex finds the point that its old number found. -/
theorem vertex_newVertex (he : e ∈ edges.toList) (hv : e.touches v) :
    c.vertices.getD (newVertex kept v).toNat default = vertices.getD v.toNat default := by
  obtain ⟨hold, hnonneg, hlt⟩ := h.oldVertex_newVertex hrange he hv
  rw [(h.vertex hnonneg hlt).2.2, hold]

theorem sorted_edges (hsorted : edges.toList.Pairwise (· ≤ ·)) : c.edges.toList.Pairwise (· ≤ ·) := by
  rw [← h.map_edges hrange, List.pairwise_map] at hsorted
  exact hsorted.imp (Edge.map_le_map_iff (strictMono_oldVertex h.sorted h.lt)).1

end IsCompacted

/-! ### Compacting again -/

/-- What compaction makes of vertices and edges, `new` being the new numbers of the touched vertices. -/
structure KeepsTouched (vertices : Array Point) (edges : Array Edge) (new : Int → Int)
    (vertices' : Array Point) (edges' : Array Edge) : Prop where
  kept : vertices'.toList =
    (vertices.toList.zipIdx.filter fun x => edges.toList.any (·.touches x.2)).map Prod.fst
  strictMono : StrictMonoOn new {v | ∃ e ∈ edges.toList, e.touches v}
  renumbered : edges' = edges.map (Edge.map new)
  place : ∀ e ∈ edges.toList, ∀ v : Int, e.touches v → 0 ≤ new v ∧ new v < vertices'.size ∧
    vertices'.getD (new v).toNat default = vertices.getD v.toNat default
  touched : ∀ v : Nat, v < vertices'.size → ∃ e ∈ edges'.toList, e.touches v
  sorted : edges.toList.Pairwise (· ≤ ·) → edges'.toList.Pairwise (· ≤ ·)

/-- Compaction leaves no vertex untouched. -/
theorem IsCompacted.exists_touches {vertices : Array Point} {edges : Array Edge} {c : Compacted}
    (h : IsCompacted vertices edges ((touchedVertices edges).map Int.toNat) c)
    (hrange : ∀ e ∈ edges.toList, e.inRange vertices.size) {i : Nat} (hi : i < c.vertices.size) :
    ∃ e ∈ c.edges.toList, e.touches i := by
  obtain ⟨_, w, _, hkept, hold⟩ := h.exists_kept (Int.natCast_nonneg i) (Int.ofNat_lt.2 hi)
  obtain ⟨v, hv, rfl⟩ := List.mem_map.1 (List.mem_of_getElem? hkept)
  obtain ⟨e, he, htouches⟩ := mem_touchedVertices.1 hv
  have hnew := (h.oldVertex_newVertex hrange he htouches).1
  rw [Int.toNat_of_nonneg (nonneg_of_mem_touchedVertices hrange hv).1, ← hnew] at hold
  rw [(strictMono_oldVertex h.sorted h.lt).injective hold, h.edges_eq_map, Array.toList_map]
  exact ⟨_, List.mem_map_of_mem he, Edge.touches_map htouches _⟩

theorem IsCompacted.keepsTouched {vertices : Array Point} {edges : Array Edge} {c : Compacted}
    (h : IsCompacted vertices edges ((touchedVertices edges).map Int.toNat) c)
    (hrange : ∀ e ∈ edges.toList, e.inRange vertices.size) :
    KeepsTouched vertices edges (newVertex ((touchedVertices edges).map Int.toNat)) c.vertices
      c.edges where
  kept := by rw [h.vertices, List.toList_toArray, map_getD_touchedVertices hrange]
  strictMono := h.strictMonoOn_newVertex hrange
  renumbered := h.edges_eq_map
  place e he v hv :=
    ⟨(h.oldVertex_newVertex hrange he hv).2.1, (h.oldVertex_newVertex hrange he hv).2.2,
      h.vertex_newVertex hrange he hv⟩
  touched i hi := h.exists_touches hrange hi
  sorted := h.sorted_edges hrange

/-- Compacting a table of edges in range keeps the touched vertices and renumbers them in order. What comes
out does not depend on the scratch table, and comes out again when it is compacted once more. -/
theorem compact_keepsTouched (vertices : Array Point) {edges : Array Edge}
    (hrange : ∀ e ∈ edges.toList, e.inRange vertices.size) :
    ∃ new vertices' edges', KeepsTouched vertices edges new vertices' edges' ∧
      ∀ scratch, (∃ table, compact vertices edges scratch = .ok ⟨vertices', edges', table⟩) ∧
        ∃ table, compact vertices' edges' scratch = .ok ⟨vertices', edges', table⟩ := by
  obtain ⟨c, -, hc⟩ := exists_isCompacted_touched vertices hrange #[]
  refine ⟨_, c.vertices, c.edges, hc.keepsTouched hrange, fun scratch => ⟨?_, ?_⟩⟩
  · obtain ⟨c', hcompact, hc'⟩ := exists_isCompacted_touched vertices hrange scratch
    refine ⟨c'.scratch, hcompact.trans ?_⟩
    rw [hc.vertices, ← hc'.vertices, hc.edges_eq_map, ← hc'.edges_eq_map]
  · exact exists_compact_eq_self (hc.inRange hrange) (fun i => hc.exists_touches hrange) scratch

/-- Five vertices, of which two are touched by no edge. -/
theorem compact_keepsTouched_pairAndLoop :
    (∀ e ∈ (#[⟨1, 3⟩, ⟨3, 1⟩, ⟨4, 4⟩] : Array Edge).toList,
      e.inRange (#[default, default, default, default, default] : Array Point).size) ∧
    ∃ new vertices' edges',
      KeepsTouched #[default, default, default, default, default] #[⟨1, 3⟩, ⟨3, 1⟩, ⟨4, 4⟩] new vertices'
        edges' ∧ edges' = #[⟨0, 1⟩, ⟨1, 0⟩, ⟨2, 2⟩] := by
  have hrange : ∀ e ∈ (#[⟨1, 3⟩, ⟨3, 1⟩, ⟨4, 4⟩] : Array Edge).toList,
      e.inRange (#[default, default, default, default, default] : Array Point).size := by decide
  obtain ⟨new, vertices', edges', hkeeps, hcompact⟩ := compact_keepsTouched _ hrange
  obtain ⟨⟨table, htable⟩, -⟩ := hcompact #[7, 7]
  refine ⟨hrange, new, vertices', edges', hkeeps, ?_⟩
  have hedges : (compact #[default, default, default, default, default] #[⟨1, 3⟩, ⟨3, 1⟩, ⟨4, 4⟩]
      #[7, 7]).map Compacted.edges = .ok #[⟨0, 1⟩, ⟨1, 0⟩, ⟨2, 2⟩] := by cbv
  rw [htable] at hedges
  exact Except.ok.inj hedges

end SnapGraph
