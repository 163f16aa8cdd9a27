import Mathlib
import SnapGraph.Incidence
import SnapGraph.Proofs.Graph
import SnapGraph.Proofs.Search

/-! The edges at a vertex. A range of a sorted table, found by binary search, holds the places of one
key. The edges that leave a vertex, and those that enter it, are therefore found without exception. -/

namespace SnapGraph

theorem IdRange.mem_toList {r : IdRange} {i : Nat} : i ∈ r.toList ↔ r.start ≤ i ∧ i < r.stop := by
  rw [toList, List.mem_range'_1]
  omega

section KeyRange

variable {α : Type} {xs : Array α} {key : α → Int}

/-- The keys of a table in order. -/
def Ascends (xs : Array α) (key : α → Int) : Prop :=
  ∀ i j (_ : i < xs.size) (_ : j < xs.size), i ≤ j → key xs[i] ≤ key xs[j]

theorem Ascends.isPartitionPoint_lt (h : Ascends xs key) (v : Int) :
    IsPartitionPoint xs (key · < v) (partitionPoint xs (key · < v)) := by
  apply partitionPoint_spec
  intro i j hi hj hij hlt
  have := h i j hi hj hij
  simp only [decide_eq_true_eq] at hlt ⊢
  omega

theorem Ascends.isPartitionPoint_le (h : Ascends xs key) (v : Int) :
    IsPartitionPoint xs (key · ≤ v) (partitionPoint xs (key · ≤ v)) := by
  apply partitionPoint_spec
  intro i j hi hj hij hle
  have := h i j hi hj hij
  simp only [decide_eq_true_eq] at hle ⊢
  omega

/-- The places of a key, where keys ascend. -/
def keyRange (xs : Array α) (key : α → Int) (v : Int) : IdRange :=
  ⟨partitionPoint xs (key · < v), partitionPoint xs (key · ≤ v)⟩

theorem Ascends.mem_keyRange (h : Ascends xs key) {v : Int} {i : Nat} (hi : i < xs.size) :
    i ∈ (keyRange xs key v).toList ↔ key xs[i] = v := by
  have hstart := (h.isPartitionPoint_lt v).iff i hi
  have hstop := (h.isPartitionPoint_le v).iff i hi
  rw [decide_eq_true_eq] at hstart hstop
  rw [IdRange.mem_toList, keyRange, ← hstop, ← Nat.not_lt, ← hstart]
  omega

theorem Ascends.toList_keyRange (h : Ascends xs key) {f : Nat → Int}
    (hf : ∀ i (hi : i < xs.size), key xs[i] = f i) (v : Int) :
    (keyRange xs key v).toList = (List.range xs.size).filter (f · == v) := by
  refine List.Pairwise.eq_of_mem_iff (r := (· < ·)) (List.pairwise_lt_range' _)
    (List.pairwise_lt_range.filter _) fun i => ?_
  rw [List.mem_filter, List.mem_range, beq_iff_eq]
  constructor
  · intro hmem
    have hi : i < xs.size := (IdRange.mem_toList.1 hmem).2.trans_le (h.isPartitionPoint_le v).le
    exact ⟨hi, hf i hi ▸ (h.mem_keyRange hi).1 hmem⟩
  · rintro ⟨hi, hkey⟩
    exact (h.mem_keyRange hi).2 ((hf i hi).trans hkey)

end KeyRange

theorem IdRange.size_eq_length (r : IdRange) : r.size = r.toList.length := by
  rw [IdRange.toList, List.length_range']
  rfl

theorem Incidence.outDegree_eq_length (t : Incidence) (v : Int) :
    t.outDegree v = (t.outIds v).length := IdRange.size_eq_length _

theorem Incidence.inDegree_eq_length (t : Incidence) (v : Int) :
    t.inDegree v = (t.inIds v).length := by
  rw [inIds, List.length_map]
  exact IdRange.size_eq_length _

namespace Graph

variable (g : Graph)

theorem ascends_origin : Ascends g.edges Edge.origin := by
  intro i j hi hj hij
  have hle := g.edge_le_edge hij hj
  rw [g.edge_eq_getElem hi, g.edge_eq_getElem hj, Edge.le_def] at hle
  omega

theorem ascends_dest : Ascends g.incidence.byDest fun e => (g.edge e).dest := by
  intro i j hi hj hij
  rcases hij.eq_or_lt with rfl | hij
  · exact le_refl _
  · have hle := List.pairwise_iff_getElem.1 g.inOrder_inEdgeIds.sorted i j hi hj hij
    rw [Edge.le_def] at hle
    simp only [Edge.reverse_origin] at hle
    show (g.edge g.inEdgeIds[i]).dest ≤ (g.edge g.inEdgeIds[j]).dest
    omega

/-- The edges that leave a vertex are found, in order of their ids. -/
theorem outIds_incidence (v : Int) :
    g.incidence.outIds v = g.edgeIds.filter fun e => (g.edge e).origin == v := by
  apply g.ascends_origin.toList_keyRange
  intro e he
  rw [g.edge_eq_getElem he]

theorem outDegree_incidence (v : Int) :
    g.incidence.outDegree v = g.outDegree v := by
  rw [outDegree, List.countP_eq_length_filter, ← outIds_incidence, Incidence.outDegree_eq_length]

/-- The places, among the edge ids by destination, of the edges that enter a vertex. -/
theorem toList_inRange (v : Int) : (g.incidence.inRange v).toList =
    (List.range g.inEdgeIds.length).filter fun i => (g.edge (g.inEdgeIds.getD i 0)).dest == v := by
  apply g.ascends_dest.toList_keyRange
  intro i hi
  have hi : i < g.inEdgeIds.length := hi
  show (g.edge g.inEdgeIds[i]).dest = _
  rw [List.getD_eq_getElem _ _ hi]

/-- The edges that enter a vertex are found, in order of their origins. -/
theorem inIds_incidence (v : Int) :
    g.incidence.inIds v = g.inEdgeIds.filter fun e => (g.edge e).dest == v := by
  have hlist : (List.range g.inEdgeIds.length).map (g.inEdgeIds.getD · 0) = g.inEdgeIds := by
    apply List.ext_getElem (by simp)
    intro i _ hi
    rw [List.getElem_map, List.getElem_range, List.getD_eq_getElem _ _ hi]
  have htable : (fun i => g.incidence.byDest.getD i 0) = fun i => g.inEdgeIds.getD i 0 := by
    funext i
    show g.inEdgeIds.toArray.getD i 0 = _
    rw [Array.getD_eq_getD_getElem?, List.getElem?_toArray, List.getD_eq_getElem?_getD]
  calc g.incidence.inIds v
      = ((List.range g.inEdgeIds.length).filter
          fun i => (g.edge (g.inEdgeIds.getD i 0)).dest == v).map (g.inEdgeIds.getD · 0) := by
        rw [Incidence.inIds, htable, g.toList_inRange]
    _ = ((List.range g.inEdgeIds.length).map (g.inEdgeIds.getD · 0)).filter
          fun e => (g.edge e).dest == v := by
        rw [List.filter_map]
        rfl
    _ = g.inEdgeIds.filter fun e => (g.edge e).dest == v := by rw [hlist]

/-- The edges that enter a vertex are counted. -/
theorem inDegree_incidence (v : Int) :
    g.incidence.inDegree v = g.inDegree v :=
  calc g.incidence.inDegree v
      = (g.incidence.inIds v).length := g.incidence.inDegree_eq_length v
    _ = g.inEdgeIds.countP fun e => (g.edge e).dest == v := by
        rw [g.inIds_incidence, List.countP_eq_length_filter]
    _ = g.inDegree v := g.inOrder_inEdgeIds.perm.countP_eq _

end Graph

end SnapGraph
