import Mathlib
import SnapGraph.Sibling
import SnapGraph.Proofs.Sorting

/-! What the check of a layer grants: endpoints are vertices and edges ascend by id. Sorted by
destination, the edge ids are a permutation that stands in the order of the reversed edges, copies by
id; a sibling map stands in that order too. -/

namespace SnapGraph

theorem firstDescent?_eq_none_iff (i : Nat) (edges : List Edge) :
    firstDescent? i edges = none ↔ edges.IsChain (· ≤ ·) := by
  fun_induction firstDescent? i edges with
  | case1 i a b rest h =>
      have hnot : ¬a ≤ b := Edge.not_le.2 h
      simp [hnot]
  | case2 i a b rest h ih =>
      have hab : a ≤ b := Edge.not_lt.1 h
      rw [ih, List.isChain_cons_cons, and_iff_right hab]
  | case3 edges i h =>
      match edges, h with
      | [], _ => simp
      | [a], _ => simp
      | a :: b :: rest, h => exact absurd rfl (h a b rest)

theorem checkEdges_eq_ok_iff {edges : List Edge} {n : Nat} :
    checkEdges edges n = .ok () ↔ (∀ e ∈ edges, e.inRange n) ∧ edges.Pairwise (· ≤ ·) := by
  have hrange : (edges.zipIdx.find? fun x => !x.1.inRange n) = none ↔
      ∀ e ∈ edges, e.inRange n := by
    rw [List.find?_eq_none]
    constructor
    · intro h e he
      obtain ⟨i, hi, rfl⟩ := List.mem_iff_getElem.1 he
      simpa using h (edges[i], i) (List.mem_zipIdx_iff_getElem?.2 (by simp [hi]))
    · intro h x hx
      simpa using h x.1 (List.fst_mem_of_mem_zipIdx hx)
  rw [← List.isChain_iff_pairwise, ← firstDescent?_eq_none_iff 0, ← hrange]
  unfold checkEdges
  split
  · rename_i h
    simp [h]
  · rename_i h
    split
    · rename_i h'
      simp [h']
    · rename_i h'
      simp [h, h']

theorem Layer.graph_eq {l : Layer} (h : l.check = .ok ()) : l.graph = .ok ⟨l, h⟩ := by
  unfold graph
  split
  · rfl
  · rename_i v hv
    rw [h] at hv
    cases hv

namespace Edge

theorem count_map_reverse (edges : List Edge) (e : Edge) :
    (edges.map reverse).count e = edges.count e.reverse := by
  conv_lhs => rw [← e.reverse_reverse]
  exact List.count_map_of_injective _ _ (fun _ _ => reverse_inj.1) _

theorem map_reverse_perm_iff {edges : List Edge} : (edges.map reverse).Perm edges ↔
    ∀ e : Edge, edges.count e = edges.count e.reverse := by
  rw [List.perm_iff_count]
  refine forall_congr' fun e => ?_
  rw [count_map_reverse]
  exact eq_comm

end Edge

theorem Options.isUndirected_iff (o : Options) : o.isUndirected ↔ o.isDirected = false := by
  unfold isUndirected isDirected
  cases o.edgeType <;> decide

theorem Options.guaranteesSiblings_of_isUndirected {o : Options} (h : o.isUndirected) :
    o.guaranteesSiblings := by
  rw [guaranteesSiblings, h, Bool.or_true]

theorem Edge.inRange_iff {n : Nat} {e : Edge} :
    e.inRange n ↔ (0 ≤ e.origin ∧ e.origin < n) ∧ 0 ≤ e.dest ∧ e.dest < n := by
  simp only [inRange, Bool.and_eq_true, decide_eq_true_eq, and_assoc]

namespace Graph

variable (g : Graph)

theorem checkEdges_ok : checkEdges g.edges.toList g.vertices.size = .ok () := by
  have h := g.valid
  unfold Layer.check at h
  split at h
  · exact h
  · cases h

theorem size_inputHandles : g.inputHandles.size = g.numEdges := by
  have h := g.valid
  unfold Layer.check at h
  split at h
  · assumption
  · cases h

theorem edge_eq_getElem {e : Nat} (he : e < g.numEdges) : g.edge e = g.edges[e] := by
  unfold edge
  rw [Array.getD_eq_getD_getElem?, Array.getElem?_eq_getElem he, Option.getD_some]

theorem edge_mem {e : Nat} (he : e < g.numEdges) : g.edge e ∈ g.edges.toList := by
  rw [g.edge_eq_getElem he]
  exact Array.mem_toList_iff.2 (Array.getElem_mem he)

theorem mem_edgeIds {e : Nat} : e ∈ g.edgeIds ↔ e < g.numEdges := List.mem_range

theorem nodup_edgeIds : g.edgeIds.Nodup := List.nodup_range

theorem map_edge_edgeIds : g.edgeIds.map g.edge = g.edges.toList := by
  apply List.ext_getElem (by simp [edgeIds, numEdges])
  intro i h _
  rw [List.getElem_map]
  simp only [edgeIds, List.getElem_range]
  rw [List.length_map, edgeIds, List.length_range] at h
  rw [g.edge_eq_getElem h]
  rfl

section Same

variable {g g' : Graph} (h : g'.edges = g.edges)

include h

theorem edge_congr : g'.edge = g.edge := by
  funext e
  rw [edge, edge, h]

theorem edgeIds_congr : g'.edgeIds = g.edgeIds := by rw [edgeIds, edgeIds, numEdges, numEdges, h]

end Same

theorem inRange_edge {e : Nat} (he : e < g.numEdges) : (g.edge e).inRange g.numVertices :=
  (checkEdges_eq_ok_iff.1 g.checkEdges_ok).1 _ (g.edge_mem he)

theorem pairwise_edges : g.edges.toList.Pairwise (· ≤ ·) :=
  (checkEdges_eq_ok_iff.1 g.checkEdges_ok).2

/-- Edges ascend by id. -/
theorem edge_le_edge {i j : Nat} (hij : i ≤ j) (hj : j < g.numEdges) : g.edge i ≤ g.edge j := by
  rcases hij.eq_or_lt with rfl | hij
  · exact Edge.le_refl _
  · rw [g.edge_eq_getElem (hij.trans hj), g.edge_eq_getElem hj]
    exact List.pairwise_iff_getElem.1 g.pairwise_edges i j
      (by simpa [numEdges] using hij.trans hj) (by simpa [numEdges] using hj) hij

theorem lt_of_edge_lt {i j : Nat} (hi : i < g.numEdges) (h : g.edge i < g.edge j) : i < j := by
  by_contra hji
  exact Edge.not_lt.2 (g.edge_le_edge (Nat.le_of_not_lt hji) hi) h

/-! ### Vertices -/

def vertexIds : List Int := (List.range g.numVertices).map Int.ofNat

variable {g} in
theorem mem_vertexIds {v : Int} : v ∈ g.vertexIds ↔ 0 ≤ v ∧ v < g.numVertices := by
  constructor
  · intro h
    obtain ⟨i, hi, rfl⟩ := List.mem_map.1 h
    exact ⟨Int.natCast_nonneg i, Int.ofNat_lt.2 (List.mem_range.1 hi)⟩
  · rintro ⟨hnonneg, hlt⟩
    refine List.mem_map.2 ⟨v.toNat, List.mem_range.2 ?_, Int.toNat_of_nonneg hnonneg⟩
    omega

variable {g} in
theorem mem_vertexIds_of_touches {e : Nat} {v : Int} (he : e < g.numEdges)
    (hv : (g.edge e).touches v) : v ∈ g.vertexIds := by
  have hrange := g.inRange_edge he
  simp only [Edge.inRange, Bool.and_eq_true, decide_eq_true_eq] at hrange
  rw [Edge.touches, Bool.or_eq_true, beq_iff_eq, beq_iff_eq] at hv
  rw [mem_vertexIds]
  omega

/-- How many edges leave a vertex. -/
def outDegree (v : Int) : Nat := g.edgeIds.countP fun e => (g.edge e).origin == v

/-- How many edges enter a vertex. -/
def inDegree (v : Int) : Nat := g.edgeIds.countP fun e => (g.edge e).dest == v

/-! ### Edge ids by destination -/

/-- All edge ids, each once, in the order of the reversed edges. -/
structure InOrder (ids : List Nat) : Prop where
  perm : ids.Perm g.edgeIds
  sorted : ids.Pairwise fun a b => (g.edge a).reverse ≤ (g.edge b).reverse

theorem inOrder_inEdgeIds : g.InOrder g.inEdgeIds where
  perm := List.mergeSort_perm _ _
  sorted := pairwise_sortBy (· ≤ ·) (fun e => (g.edge e).reverse) g.edgeIds

/-- Copies of an edge ascend among the edge ids by destination. -/
theorem pairwise_inEdgeIds : g.inEdgeIds.Pairwise fun a b =>
    (g.edge a).reverse ≤ (g.edge b).reverse ∧ (g.edge a = g.edge b → a < b) := by
  have h := pairwise_sortBy_stable (· ≤ ·) (fun e => (g.edge e).reverse)
    (List.pairwise_lt_range : g.edgeIds.Pairwise (· < ·))
  exact h.imp fun hab => ⟨hab.1, fun heq => hab.2 (congrArg Edge.reverse heq)⟩

variable {g}

theorem InOrder.mem_iff {ids : List Nat} (h : g.InOrder ids) {e : Nat} :
    e ∈ ids ↔ e < g.numEdges :=
  h.perm.mem_iff.trans g.mem_edgeIds

/-- Ids of the same edges in the same places stand in the same order. -/
theorem InOrder.of_map_edge_eq {ids ids' : List Nat} (h : g.InOrder ids) (hperm : ids'.Perm ids)
    (hmap : ids'.map g.edge = ids.map g.edge) : g.InOrder ids' where
  perm := hperm.trans h.perm
  sorted := by
    have hsorted : (ids.map g.edge).Pairwise fun a b => a.reverse ≤ b.reverse :=
      List.pairwise_map.2 h.sorted
    rw [← hmap, List.pairwise_map] at hsorted
    exact hsorted

variable (g)

/-! ### Input ids -/

/-- Every set of input ids of the graph is known. -/
def KnowsInputs : Prop := ∀ handle ∈ g.inputHandles, g.inputSets.Knows handle

variable {g} in
/-- Handles of single ids and of the empty set are known to every table of sets. -/
theorem knowsInputs_of_singles
    (h : ∀ handle ∈ g.inputHandles.toList, 0 ≤ handle ∨ handle = IdSets.emptyId) :
    g.KnowsInputs := by
  intro handle hhandle
  unfold IdSets.Knows IdSets.find
  rcases h handle (Array.mem_toList_iff.2 hhandle) with hsingle | rfl
  · exact ⟨_, if_pos hsingle⟩
  · exact ⟨_, rfl⟩

theorem exists_minInputIds (h : g.KnowsInputs) :
    ∃ ids, g.minInputIds = .ok ids ∧ ids.size = g.numEdges := by
  have hmin : ∀ e ∈ g.edgeIds, ∃ id, g.minInputId e = .ok id := by
    intro e he
    have hsize : e < g.inputHandles.size := by
      rw [g.size_inputHandles]
      exact g.mem_edgeIds.1 he
    obtain ⟨set, hset⟩ := h _ (Array.getElem_mem hsize)
    refine ⟨set.first?.getD noInput, ?_⟩
    unfold minInputId inputIds
    rw [Array.getD_eq_getD_getElem?, Array.getElem?_eq_getElem hsize, Option.getD_some, hset]
    rfl
  choose! id hid using hmin
  refine ⟨(g.edgeIds.map id).toArray, ?_, ?_⟩
  · rw [minInputIds, mapM_eq_ok hid]
    rfl
  · rw [List.size_toArray, List.length_map, edgeIds, List.length_range]

/-- An edge with a single input id has that as its least one. -/
theorem minInputIds_of_nonneg (h : ∀ handle ∈ g.inputHandles.toList, 0 ≤ handle) :
    g.minInputIds = .ok g.inputHandles := by
  have hmin : ∀ e ∈ g.edgeIds, g.minInputId e = .ok (g.inputHandles.getD e noInput) := by
    intro e he
    have hsize : e < g.inputHandles.size := by
      rw [g.size_inputHandles]
      exact g.mem_edgeIds.1 he
    have hnonneg := h _ (Array.mem_toList_iff.2 (Array.getElem_mem hsize))
    unfold minInputId inputIds IdSets.find
    rw [Array.getD_eq_getD_getElem?, Array.getD_eq_getD_getElem?, Array.getElem?_eq_getElem hsize,
      Option.getD_some, Option.getD_some, if_pos hnonneg]
    rfl
  have hall : (g.edgeIds.map fun e => g.inputHandles.getD e noInput) = g.inputHandles.toList := by
    apply List.ext_getElem
    · rw [List.length_map, edgeIds, List.length_range, Array.length_toList, g.size_inputHandles]
    · intro i _ hi
      rw [Array.length_toList] at hi
      simp only [edgeIds, List.getElem_map, List.getElem_range]
      rw [Array.getD_eq_getD_getElem?, Array.getElem?_eq_getElem hi, Option.getD_some]
      rfl
  rw [minInputIds, mapM_eq_ok hmin, hall]
  rfl

theorem inputOrder_perm (ids : List Int) : (inputOrder ids).Perm (List.range ids.length) := by
  unfold inputOrder
  refine ((List.mergeSort_perm _ _).map Prod.snd).trans (.of_eq ?_)
  rw [List.zipIdx_map_snd, List.range_eq_range']

/-- Positions ascend by value, and positions of one value by themselves. -/
theorem pairwise_inputOrder (ids : List Int) (d : Int) : (inputOrder ids).Pairwise fun a b =>
    ids.getD a d ≤ ids.getD b d ∧ (ids.getD a d = ids.getD b d → a < b) := by
  have hvalue : ∀ x ∈ ids.zipIdx.mergeSort fun a b => decide (a.1 ≤ b.1), ids.getD x.2 d = x.1 := by
    intro x hx
    have hget := List.mem_zipIdx_iff_getElem?.1 (List.mem_mergeSort.1 hx)
    rw [List.getD_eq_getElem?_getD, hget, Option.getD_some]
  have hsorted := pairwise_sortBy_stable (· ≤ ·) (Prod.fst : Int × Nat → Int)
    (pairwise_zipIdx ids 0)
  refine List.pairwise_map.2 (hsorted.imp_of_mem fun hx hy hxy => ?_)
  rw [hvalue _ hx, hvalue _ hy]
  exact hxy

end Graph

end SnapGraph
