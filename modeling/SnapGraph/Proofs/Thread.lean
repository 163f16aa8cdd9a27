import Mathlib
import SnapGraph.Thread
import SnapGraph.Proofs.Incidence
import SnapGraph.Proofs.Joins
import SnapGraph.Proofs.Sibling

/-! What is spent when edges are used. Using a free edge takes it, and its sibling where edges are
undirected, off the list of free edges, and nothing else. At every vertex the free edges that leave,
less those that enter, change by what begins there less what ends there; of undirected edges this
holds for the parity of those that leave. -/

namespace SnapGraph.Thread

variable (t : Thread)

/-- The tables belong to the graph, and where edges are undirected they come in pairs. -/
structure Sound : Prop where
  incidence : t.incidence = t.graph.incidence
  ids : t.ids.size = t.graph.numEdges
  pairs : t.directed = false → t.graph.Pairs t.sibling

/-! ### Free edges -/

def freeIds (u : Usage) : List Nat := t.graph.edgeIds.filter u.isFree

/-- All that is used together with some edges. -/
def both (l : List Nat) : List Nat := if t.directed then l else l ++ l.map t.sibling

/-- How many edges are used at a time. -/
def width : Nat := if t.directed then 1 else 2

/-- The tables have the right sizes, siblings are used together, and the edges that remain are
counted. -/
structure Consistent (u : Usage) : Prop where
  size : u.used.size = t.graph.numEdges
  balances : u.balance.size = t.graph.numVertices
  paired : t.directed = false → ∀ e < t.graph.numEdges, u.isFree (t.sibling e) = u.isFree e
  counted : (t.freeIds u).length = t.width * u.remaining

/-- Using the edges of the list, no two of them siblings, leads from one state to the other. -/
def Spends (u : Usage) (l : List Nat) (u' : Usage) : Prop :=
  (t.freeIds u).Perm (t.both l ++ t.freeIds u')

variable {t} {u u' u'' : Usage} {e x : Nat} {l l' : List Nat}

theorem mem_freeIds : e ∈ t.freeIds u ↔ e < t.graph.numEdges ∧ u.isFree e := by
  simp [freeIds, Graph.mem_edgeIds]

theorem nodup_freeIds (u : Usage) : (t.freeIds u).Nodup := t.graph.nodup_edgeIds.filter _

theorem both_append (l l' : List Nat) : (t.both (l ++ l')).Perm (t.both l ++ t.both l') := by
  unfold both
  split
  · exact .refl _
  · rw [List.map_append, List.append_assoc, List.append_assoc]
    exact (List.perm_append_comm_assoc _ _ _).append_left l

theorem both_perm (h : l.Perm l') : (t.both l).Perm (t.both l') := by
  unfold both
  split
  · exact h
  · exact h.append (h.map _)

theorem subset_both (l : List Nat) : l ⊆ t.both l := by
  unfold both
  split
  · exact List.Subset.refl _
  · exact List.subset_append_left _ _

theorem length_both (l : List Nat) : (t.both l).length = t.width * l.length := by
  unfold both width
  split
  · rw [Nat.one_mul]
  · rw [List.length_append, List.length_map]
    omega

theorem both_nil : t.both [] = [] := by
  unfold both
  split <;> rfl

theorem Spends.nil (u : Usage) : t.Spends u [] u := by
  rw [Spends, both_nil]
  exact .refl _

theorem Spends.trans (h : t.Spends u l u') (h' : t.Spends u' l' u'') :
    t.Spends u (l ++ l') u'' := by
  have happend : (t.both l ++ (t.both l' ++ t.freeIds u'')).Perm
      (t.both (l ++ l') ++ t.freeIds u'') := by
    rw [← List.append_assoc]
    exact (both_append l l').symm.append_right _
  exact (List.Perm.trans h (List.Perm.append_left _ h')).trans happend

theorem Spends.of_perm (h : t.Spends u l u') (hl : l.Perm l') : t.Spends u l' u' :=
  List.Perm.trans h ((both_perm hl).append_right _)

theorem Spends.mem_freeIds (h : t.Spends u l u') (he : e ∈ l) : e ∈ t.freeIds u :=
  h.mem_iff.2 (List.mem_append_left _ (subset_both l he))

/-- Edges that are free afterwards were free before. -/
theorem Spends.isFree (h : t.Spends u l u') (he : e < t.graph.numEdges) (hfree : u'.isFree e) :
    u.isFree e :=
  (Thread.mem_freeIds.1 (h.mem_iff.2 (List.mem_append_right _ (Thread.mem_freeIds.2 ⟨he, hfree⟩)))).2

/-- Edges that are used are not free afterwards. -/
theorem Spends.not_isFree (h : t.Spends u l u') (he : e ∈ l) : ¬u'.isFree e := by
  intro hfree
  have hlt := (Thread.mem_freeIds.1 (h.mem_freeIds he)).1
  have hnodup := h.nodup_iff.1 (nodup_freeIds u)
  exact (List.nodup_append.1 hnodup).2.2 e (subset_both l he) e
    (Thread.mem_freeIds.2 ⟨hlt, hfree⟩) rfl

/-- Of directed edges those that are used are taken off the free ones, and no others. -/
theorem Spends.mem_freeIds_iff (h : t.Spends u l u') (hd : t.directed) :
    e ∈ t.freeIds u' ↔ e ∈ t.freeIds u ∧ e ∉ l := by
  have hnodup := h.nodup_iff.1 (nodup_freeIds u)
  have hmem := h.mem_iff (a := e)
  rw [both, if_pos hd] at hnodup hmem
  rw [List.mem_append] at hmem
  constructor
  · intro he
    exact ⟨hmem.2 (.inr he), fun hel => (List.nodup_append.1 hnodup).2.2 e hel e he rfl⟩
  · rintro ⟨he, hel⟩
    exact (hmem.1 he).resolve_left hel

theorem lt_size_of_isFree (he : u.isFree e) : e < u.used.size := by
  by_contra hsize
  rw [Usage.isFree, Array.getElem?_eq_none (Nat.le_of_not_lt hsize)] at he
  cases he

theorem Consistent.lt (hu : t.Consistent u) (he : u.isFree e) : e < t.graph.numEdges :=
  (lt_size_of_isFree he).trans_eq hu.size

/-- Nothing is free once nothing remains. -/
theorem Consistent.not_isFree (hu : t.Consistent u) (hremaining : u.remaining = 0) :
    ¬u.isFree e := by
  intro he
  have hmem : e ∈ t.freeIds u := Thread.mem_freeIds.2 ⟨hu.lt he, he⟩
  have hlen := hu.counted
  rw [hremaining, Nat.mul_zero, List.length_eq_zero_iff] at hlen
  rw [hlen] at hmem
  cases hmem

/-- Nothing remains once nothing is free. -/
theorem Consistent.remaining_eq_zero (hu : t.Consistent u)
    (h : ∀ e < t.graph.numEdges, ¬u.isFree e) : u.remaining = 0 := by
  have hnil : t.freeIds u = [] := by
    refine List.eq_nil_iff_forall_not_mem.2 fun e he => ?_
    exact h e (mem_freeIds.1 he).1 (mem_freeIds.1 he).2
  have hcounted := hu.counted
  have hwidth : t.width ≠ 0 := by
    unfold width
    split <;> omega
  rw [hnil, List.length_nil] at hcounted
  exact (Nat.mul_eq_zero.1 hcounted.symm).resolve_left hwidth

/-- Polylines are made of free edges and use them up. -/
structure Draws (t : Thread) (u : Usage) (lines : List (List Nat)) (u' : Usage) : Prop where
  consistent : t.Consistent u'
  spends : t.Spends u lines.flatten u'
  polylines : ∀ l ∈ lines, IsPolyline t.graph.edge l

theorem Draws.nil (hu : t.Consistent u) : t.Draws u [] u where
  consistent := hu
  spends := Spends.nil u
  polylines _ hl := absurd hl List.not_mem_nil

theorem Draws.cons {lines : List (List Nat)} (hspends : t.Spends u l u')
    (hl : IsPolyline t.graph.edge l) (h : t.Draws u' lines u'') : t.Draws u (l :: lines) u'' where
  consistent := h.consistent
  spends := hspends.trans h.spends
  polylines := List.forall_mem_cons.2 ⟨hl, h.polylines⟩

theorem Draws.append {lines lines' : List (List Nat)} (h : t.Draws u lines u')
    (h' : t.Draws u' lines' u'') : t.Draws u (lines ++ lines') u'' where
  consistent := h'.consistent
  spends := by
    rw [List.flatten_append]
    exact h.spends.trans h'.spends
  polylines := List.forall_mem_append.2 ⟨h.polylines, h'.polylines⟩

/-! ### Using one edge -/

theorem setIfInBounds_beq_false (used : Array Bool) (e x : Nat) :
    ((used.setIfInBounds e true)[x]? == some false) = (used[x]? == some false && x != e) := by
  rw [Array.getElem?_setIfInBounds]
  by_cases hx : e = x
  · subst hx
    by_cases he : e < used.size
    · simp [he]
    · simp [he]
  · simp [hx, Ne.symm hx]

/-- A free edge can be marked, and what is used up then is the edge and its sibling. -/
theorem exists_mark_isFree (he : u.isFree e) (hremaining : u.remaining ≠ 0) :
    ∃ u', t.mark u e = .ok u' ∧ (∀ x, u'.isFree x ↔ u.isFree x ∧ x ∉ t.both [e]) ∧
      u'.used.size = u.used.size ∧ u'.remaining = u.remaining - 1 ∧ u'.balance = u.balance := by
  unfold mark
  rw [if_pos ⟨he, hremaining⟩]
  refine ⟨_, rfl, fun x => ?_, ?_, rfl, rfl⟩
  · by_cases hd : t.directed
    · simp only [Usage.isFree, both, hd, if_true, setIfInBounds_beq_false]
      simp
    · simp only [Usage.isFree, both, hd, Bool.false_eq_true, if_false, setIfInBounds_beq_false]
      simp [and_assoc]
  · by_cases hd : t.directed
    · simp [hd]
    · simp [hd]

theorem nodup_both_singleton (ht : t.Sound) (he : e < t.graph.numEdges) : (t.both [e]).Nodup := by
  unfold both
  split
  · exact List.nodup_singleton e
  · rename_i hd
    have hne := (ht.pairs (by simpa using hd)).ne e he
    simp [Ne.symm hne]

theorem mem_both {x : Nat} :
    x ∈ t.both l ↔ x ∈ l ∨ t.directed = false ∧ ∃ e ∈ l, t.sibling e = x := by
  unfold both
  split
  · rename_i hd
    simp [hd]
  · rename_i hd
    simp [hd]

theorem mem_both_singleton {e x : Nat} :
    x ∈ t.both [e] ↔ x = e ∨ t.directed = false ∧ x = t.sibling e := by
  rw [mem_both, List.mem_singleton, eq_comm (a := x) (b := t.sibling e)]
  simp

/-- An edge is used together with the one given exactly if its sibling is. -/
theorem sibling_mem_both (hpairs : t.graph.Pairs t.sibling) (hd : t.directed = false)
    (he : e < t.graph.numEdges) (hx : x < t.graph.numEdges) :
    t.sibling x ∈ t.both [e] ↔ x ∈ t.both [e] := by
  rw [mem_both_singleton, mem_both_singleton, and_iff_right hd, and_iff_right hd]
  constructor
  · rintro (h | h)
    · right
      rw [← h, hpairs.involutive x hx]
    · left
      rw [← hpairs.involutive x hx, h, hpairs.involutive e he]
  · rintro (h | h)
    · right
      rw [h]
    · left
      rw [h, hpairs.involutive e he]

/-- What is used together with a free edge is free. -/
theorem mem_freeIds_of_mem_both (ht : t.Sound) (hu : t.Consistent u) (he : u.isFree e)
    (hx : x ∈ t.both [e]) : x ∈ t.freeIds u := by
  have hlt := hu.lt he
  rcases mem_both_singleton.1 hx with rfl | ⟨hd, rfl⟩
  · exact mem_freeIds.2 ⟨hlt, he⟩
  · exact mem_freeIds.2 ⟨(ht.pairs hd).lt e hlt, (hu.paired hd e hlt).trans he⟩

/-- A free edge can be used, and then it is used up together with its sibling. -/
theorem exists_mark (ht : t.Sound) (hu : t.Consistent u) (he : u.isFree e) :
    ∃ u', t.mark u e = .ok u' ∧ t.Consistent u' ∧ t.Spends u [e] u' ∧ u'.balance = u.balance := by
  have hlt := hu.lt he
  have hremaining : u.remaining ≠ 0 := fun h => hu.not_isFree h he
  obtain ⟨u', hmark, hfree, hsize, hcount, hbalance⟩ := exists_mark_isFree (t := t) he hremaining
  have hspends : t.Spends u [e] u' := by
    have hnodup : (t.both [e] ++ t.freeIds u').Nodup := by
      refine List.nodup_append.2 ⟨nodup_both_singleton ht hlt, nodup_freeIds u', ?_⟩
      rintro x hx y hy rfl
      exact ((hfree x).1 (mem_freeIds.1 hy).2).2 hx
    refine (List.perm_ext_iff_of_nodup (nodup_freeIds u) hnodup).2 fun x => ?_
    rw [List.mem_append, mem_freeIds, mem_freeIds, hfree]
    by_cases hx : x ∈ t.both [e]
    · simp [hx, mem_freeIds.1 (mem_freeIds_of_mem_both ht hu he hx)]
    · simp [hx]
  refine ⟨u', hmark, ⟨hsize.trans hu.size, hbalance ▸ hu.balances, fun hd x hx => ?_, ?_⟩, hspends,
    hbalance⟩
  · rw [Bool.eq_iff_iff, hfree, hfree, hu.paired hd x hx, sibling_mem_both (ht.pairs hd) hd hlt hx]
  · have hlen := hspends.length_eq
    rw [List.length_append, length_both, List.length_singleton, Nat.mul_one, hu.counted] at hlen
    rw [hcount, Nat.mul_sub, Nat.mul_one]
    omega

theorem mark_spec (ht : t.Sound) (hu : t.Consistent u) (h : t.mark u e = .ok u') :
    t.Consistent u' ∧ t.Spends u [e] u' ∧ u'.balance = u.balance := by
  have he : u.isFree e := by
    by_contra he
    rw [mark, if_neg fun hfree => he hfree.1] at h
    cases h
  obtain ⟨u₁, hmark, hspec⟩ := exists_mark ht hu he
  rw [hmark] at h
  cases h
  exact hspec

/-! ### Where threading begins and ends -/

theorem length_eq_two_mul {g : Graph} {sibling : Nat → Nat} (h : g.Pairs sibling) :
    g.numEdges = 2 * (g.edgeIds.countP fun e => e < sibling e) := by
  have hinj : (g.edgeIds.map sibling).Nodup := by
    refine List.Nodup.map_on (fun a ha b hb hab => ?_) g.nodup_edgeIds
    rw [← h.involutive a (g.mem_edgeIds.1 ha), hab, h.involutive b (g.mem_edgeIds.1 hb)]
  have hperm : (g.edgeIds.map sibling).Perm g.edgeIds := by
    refine (List.subperm_of_subset hinj fun e he => ?_).perm_of_length_le (by simp)
    obtain ⟨a, ha, rfl⟩ := List.mem_map.1 he
    exact g.mem_edgeIds.2 (h.lt a (g.mem_edgeIds.1 ha))
  have hother : (g.edgeIds.countP fun e => e < sibling e) =
      g.edgeIds.countP fun e => !decide (e < sibling e) := by
    rw [← hperm.countP_eq, List.countP_map]
    apply List.countP_congr
    intro e he
    have he := g.mem_edgeIds.1 he
    have := h.ne e he
    simp only [Function.comp_apply, h.involutive e he, decide_eq_true_eq, Bool.not_eq_true',
      decide_eq_false_iff_not]
    omega
  have hlen := List.length_eq_countP_add_countP (fun e => decide (e < sibling e)) (l := g.edgeIds)
  rw [Graph.edgeIds, List.length_range] at hlen
  simp only [Graph.edgeIds, Bool.decide_eq_true, decide_not] at *
  omega

theorem isFree_start (e : Nat) : t.start.isFree e = decide (e < t.graph.numEdges) := by
  unfold Usage.isFree start
  rw [Array.getElem?_replicate]
  split
  · rename_i he
    simp [he]
  · rename_i he
    simp [he]

theorem freeIds_start : t.freeIds t.start = t.graph.edgeIds := by
  apply List.filter_eq_self.2
  intro e he
  rw [isFree_start, decide_eq_true (t.graph.mem_edgeIds.1 he)]

theorem consistent_start (ht : t.Sound) : t.Consistent t.start where
  size := Array.size_replicate
  balances := Array.size_replicate
  paired hd e he := by
    rw [isFree_start, isFree_start, decide_eq_true he, decide_eq_true ((ht.pairs hd).lt e he)]
  counted := by
    rw [freeIds_start, Graph.edgeIds, List.length_range]
    unfold width start
    by_cases hd : t.directed
    · simp [hd]
    · have := length_eq_two_mul (ht.pairs (by simpa using hd))
      simp only [hd, Bool.false_eq_true, if_false]
      omega

/-- When nothing remains, the edges and their siblings are all edges, each once. -/
theorem Spends.perm_edgeIds (h : t.Spends t.start l u) (hu : t.Consistent u)
    (hremaining : u.remaining = 0) : (t.both l).Perm t.graph.edgeIds := by
  have hnil : t.freeIds u = [] := by
    rw [← List.length_eq_zero_iff, hu.counted, hremaining, Nat.mul_zero]
  unfold Spends at h
  rw [freeIds_start, hnil, List.append_nil] at h
  exact h.symm

theorem inputOrder_perm (ht : t.Sound) : t.inputOrder.Perm t.graph.edgeIds := by
  rw [inputOrder, Graph.edgeIds, ← ht.ids, ← Array.length_toList]
  exact Graph.inputOrder_perm _

theorem mem_inputOrder (ht : t.Sound) : e ∈ t.inputOrder ↔ e < t.graph.numEdges :=
  (inputOrder_perm ht).mem_iff.trans t.graph.mem_edgeIds

theorem pairwise_inputOrder : t.inputOrder.Pairwise fun a b =>
    t.key a ≤ t.key b ∧ (t.key a = t.key b → a < b) := by
  have h := Graph.pairwise_inputOrder t.ids.toList noInput
  have hkey : ∀ e, t.ids.toList.getD e noInput = t.key e := by
    intro e
    rw [key, List.getD_eq_getElem?_getD, Array.getD_eq_getD_getElem?, Array.getElem?_toList]
  simp only [hkey] at h
  exact h

/-! ### The balance of a vertex -/

section Net

variable (t)

/-- The free edges that leave a vertex, where edges are directed less those that enter it. -/
def net (u : Usage) (v : Int) : Int :=
  if t.directed then
    ((t.freeIds u).countP fun e => (t.graph.edge e).origin == v : Nat) -
      ((t.freeIds u).countP fun e => (t.graph.edge e).dest == v : Nat)
  else ((t.freeIds u).countP fun e => (t.graph.edge e).origin == v : Nat)

/-- Equality, of undirected edges that of parities. -/
def Agrees (a b : Int) : Prop := if t.directed then a = b else a % 2 = b % 2

/-- No unit is left over. -/
def NoExcess (a : Int) : Prop := if t.directed then a ≤ 0 else a % 2 = 0

end Net

variable {v w a b c : Int}

theorem Agrees.symm (h : t.Agrees a b) : t.Agrees b a := by
  by_cases hd : t.directed
  · simp only [Agrees, hd, if_true] at *
    exact h.symm
  · simp only [Agrees, hd, Bool.false_eq_true, if_false] at *
    exact h.symm

theorem Agrees.trans (h : t.Agrees a b) (h' : t.Agrees b c) : t.Agrees a c := by
  by_cases hd : t.directed
  · simp only [Agrees, hd, if_true] at *
    exact h.trans h'
  · simp only [Agrees, hd, Bool.false_eq_true, if_false] at *
    exact h.trans h'

theorem Agrees.noExcess (h : t.Agrees a b) (hb : t.NoExcess b) : t.NoExcess a := by
  by_cases hd : t.directed
  · simp only [Agrees, NoExcess, hd, if_true] at *
    omega
  · simp only [Agrees, NoExcess, hd, Bool.false_eq_true, if_false] at *
    omega

theorem noExcess_zero : t.NoExcess 0 := by
  unfold NoExcess
  split
  · exact le_refl _
  · rfl

/-- Before any edge is used, the balance of a vertex is its surplus. -/
theorem agrees_start (ht : t.Sound) (v : Int) : t.Agrees (t.net t.start v) (t.surplus v) := by
  unfold Agrees net surplus
  rw [freeIds_start, ht.incidence, Graph.outDegree_incidence, Graph.inDegree_incidence,
    Graph.outDegree, Graph.inDegree]
  by_cases hd : t.directed
  · rw [if_pos hd, if_pos hd, if_pos hd]
  · rw [if_neg hd, if_neg hd, if_neg hd]
    omega

/-- At an interior vertex one free edge leaves for one that enters. -/
theorem agrees_start_of_isInterior (ht : t.Sound) (hv : t.isInterior v) :
    t.Agrees (t.net t.start v) 0 := by
  have hnet := agrees_start ht v
  unfold isInterior surplus at *
  by_cases hd : t.directed
  · simp only [Agrees, hd, if_true, Bool.and_eq_true, beq_iff_eq] at hv hnet ⊢
    omega
  · simp only [Agrees, hd, Bool.false_eq_true, if_false, beq_iff_eq] at hv hnet ⊢
    omega

theorem mem_free_outIds (ht : t.Sound) :
    e ∈ (t.incidence.outIds v).filter u.isFree ↔
      e ∈ t.freeIds u ∧ (t.graph.edge e).origin = v := by
  rw [ht.incidence, Graph.outIds_incidence, List.mem_filter, List.mem_filter, beq_iff_eq,
    mem_freeIds, Graph.mem_edgeIds]
  exact and_right_comm

theorem countP_map_sibling (ht : t.Sound) (hd : t.directed = false)
    (hl : ∀ e ∈ l, e < t.graph.numEdges) (x : Int) :
    (l.map t.sibling).countP (fun e => (t.graph.edge e).origin == x) =
      l.countP fun e => (t.graph.edge e).dest == x := by
  rw [List.countP_map]
  apply List.countP_congr
  intro e he
  simp [(ht.pairs hd).edge e (hl e he)]

/-- Using edges that lead from one vertex to another takes away an edge that leaves from the first
and one that enters the second. -/
theorem agrees_of_spends (ht : t.Sound) (h : t.Spends u l u') (hl : Joins t.graph.edge v l w)
    {x k : Int} (hx : t.Agrees (t.net u x) k) :
    t.Agrees (t.net u' x) (k - (if x = v then 1 else 0) + if x = w then 1 else 0) := by
  have hends := hl.countP_sub x
  have hout := h.countP_eq fun e => (t.graph.edge e).origin == x
  have hin := h.countP_eq fun e => (t.graph.edge e).dest == x
  rw [List.countP_append] at hout hin
  by_cases hd : t.directed
  · simp only [Agrees, net, both, hd, if_true] at hout hin hx ⊢
    omega
  · have hsiblings := countP_map_sibling ht (by simpa using hd)
      (fun e he => (mem_freeIds.1 (h.mem_freeIds he)).1) x
    simp only [Agrees, net, both, hd, Bool.false_eq_true, if_false, List.countP_append,
      hsiblings] at hout hx ⊢
    omega

/-- Where no free edge leaves, no unit is left over. -/
theorem noExcess_of_no_free (h : ∀ e ∈ t.freeIds u, t.origin e ≠ v) : t.NoExcess (t.net u v) := by
  have hzero : ((t.freeIds u).countP fun e => (t.graph.edge e).origin == v) = 0 :=
    List.countP_eq_zero.2 fun e he horigin => h e he (beq_iff_eq.1 horigin)
  by_cases hd : t.directed
  · simp only [NoExcess, net, hd, if_true, hzero]
    omega
  · simp only [NoExcess, net, hd, Bool.false_eq_true, if_false, hzero]
    rfl

/-- A vertex with one unit too many has a free edge to leave by. -/
theorem exists_free_of_agrees (h : t.Agrees (t.net u v) 1) :
    ∃ e ∈ t.freeIds u, t.origin e = v := by
  by_contra hnot
  have hnone : ∀ e ∈ t.freeIds u, t.origin e ≠ v := fun e he hv => hnot ⟨e, he, hv⟩
  have hone : t.NoExcess 1 := h.symm.noExcess (noExcess_of_no_free hnone)
  unfold NoExcess at hone
  split at hone <;> omega

/-- Where no vertex has more free edges that leave than enter, none has fewer. -/
theorem agrees_zero_of_noExcess (h : ∀ v, t.NoExcess (t.net u v)) (v : Int) :
    t.Agrees (t.net u v) 0 := by
  by_cases hd : t.directed
  · have hcount : ∀ (f : Edge → Int) v, ((t.freeIds u).countP fun e => f (t.graph.edge e) == v) =
        ((t.freeIds u).map fun e => f (t.graph.edge e)).count v := by
      intro f v
      rw [List.count, List.countP_map]
      rfl
    have hperm : ((t.freeIds u).map fun e => (t.graph.edge e).origin).Perm
        ((t.freeIds u).map fun e => (t.graph.edge e).dest) := by
      apply perm_of_count_le (by simp)
      intro x
      have hx := h x
      simp only [NoExcess, net, hd, if_true, hcount Edge.origin, hcount Edge.dest] at hx
      omega
    simp only [Agrees, net, hd, if_true, hcount Edge.origin, hcount Edge.dest, hperm.count_eq]
    omega
  · have hv := h v
    rw [NoExcess, if_neg hd] at hv
    rw [Agrees, if_neg hd, hv]
    rfl

end SnapGraph.Thread
