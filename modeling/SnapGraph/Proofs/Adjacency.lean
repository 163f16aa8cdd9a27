import Mathlib
import SnapGraph.Adjacency
import SnapGraph.Proofs.Incidence

/-! The tables of the edges at all vertices. The pass over ascending keys stops for every vertex where a
search for it ends, so a table holds the ranges that are found by searching, and a search among the
edges that leave a vertex ends where one of all edges does. The ranges of the vertices in order tile
the table, and an edge that is looked up is found where it stands or belongs. -/

namespace SnapGraph

/-! ### Searches within a range -/

section PartitionPoint

variable {α : Type} {xs : Array α} {p q : α → Bool}

/-- If all elements before a range satisfy the condition and none behind it does, the range decides. -/
theorem IsPartitionPoint.of_extract {start stop n : Nat} (hle : start ≤ stop) (hstop : stop ≤ xs.size)
    (hbefore : ∀ i (hi : i < xs.size), i < start → p xs[i] = true)
    (hwithin : ∀ i (hi : i < xs.size), start ≤ i → i < stop → p xs[i] = q xs[i])
    (hbehind : ∀ i (hi : i < xs.size), stop ≤ i → ¬p xs[i] = true)
    (hn : IsPartitionPoint (xs.extract start stop) q n) : IsPartitionPoint xs p (start + n) := by
  have hsize : (xs.extract start stop).size = stop - start := by
    rw [Array.size_extract, Nat.min_eq_left hstop]
  have hnle := hn.le
  refine ⟨by omega, fun i hi => ?_⟩
  rcases Nat.lt_or_ge i start with hstart | hstart
  · exact iff_of_true (hbefore i hi hstart) (by omega)
  rcases Nat.lt_or_ge i stop with hlt | hge
  · have hiff := hn.iff (i - start) (by omega)
    rw [Array.getElem_extract] at hiff
    simp only [Nat.add_sub_cancel' hstart] at hiff
    rw [hwithin i hi hstart hlt, hiff]
    omega
  · exact iff_of_false (hbehind i hi hge) (by omega)

end PartitionPoint

/-! ### One pass over ascending keys -/

section Pass

variable {α : Type} {xs : Array α} {key : α → Int}

/-- A pass that has left only smaller keys behind stops where the smaller keys end. -/
theorem Ascends.isPartitionPoint_skipBelow (h : Ascends xs key) {v : Int} {e : Nat} (he : e ≤ xs.size)
    (hbelow : ∀ i (hi : i < xs.size), i < e → key xs[i] < v) :
    IsPartitionPoint xs (key · < v) (skipBelow xs key v e) := by
  fun_induction skipBelow xs key v e with
  | case1 e hsize hlt ih =>
      apply ih hsize
      intro i hi hie
      rcases Nat.lt_succ_iff_lt_or_eq.1 hie with hie | rfl
      · exact hbelow i hi hie
      · exact hlt
  | case2 e hsize hge =>
      refine ⟨he, fun i hi => ?_⟩
      rw [decide_eq_true_eq]
      refine ⟨fun hlt => ?_, hbelow i hi⟩
      by_contra hei
      have := h e i hsize hi (Nat.le_of_not_lt hei)
      omega
  | case3 e hsize =>
      refine ⟨he, fun i hi => ?_⟩
      rw [decide_eq_true_eq]
      exact iff_of_true (hbelow i hi (by omega)) (by omega)

theorem Ascends.skipBelow_eq (h : Ascends xs key) {v : Int} {e : Nat} (he : e ≤ xs.size)
    (hbelow : ∀ i (hi : i < xs.size), i < e → key xs[i] < v) :
    skipBelow xs key v e = partitionPoint xs (key · < v) :=
  (h.isPartitionPoint_skipBelow he hbelow).unique (h.isPartitionPoint_lt v)

/-- The pass notes for each of the vertices where the smaller keys end. -/
theorem Ascends.getElem?_offsetsFrom (h : Ascends xs key) {v : Int} {e count n : Nat}
    (he : e ≤ xs.size) (hbelow : ∀ i (hi : i < xs.size), i < e → key xs[i] < v) (hn : n < count) :
    (offsetsFrom xs key v e count)[n]? = some (partitionPoint xs (key · < v + n)) := by
  induction count generalizing v e n with
  | zero => exact absurd hn (Nat.not_lt_zero n)
  | succ count ih =>
      have hskip := h.isPartitionPoint_skipBelow he hbelow
      cases n with
      | zero =>
          rw [Nat.cast_zero, add_zero]
          exact congrArg some (h.skipBelow_eq he hbelow)
      | succ n =>
          have hbelow' : ∀ i (hi : i < xs.size), i < skipBelow xs key v e → key xs[i] < v + 1 := by
            intro i hi hie
            have := of_decide_eq_true ((hskip.iff i hi).2 hie)
            omega
          rw [offsetsFrom, List.getElem?_cons_succ, ih hskip.le hbelow' (Nat.lt_of_succ_lt_succ hn),
            add_assoc, add_comm 1 (n : Int), Nat.cast_succ]

/-- Where the keys up to `v` end, those less than `v + 1` do. -/
theorem partitionPoint_lt_succ (xs : Array α) (key : α → Int) (v : Nat) :
    partitionPoint xs (key · < ((v + 1 : Nat) : Int)) = partitionPoint xs (key · ≤ (v : Int)) := by
  congr 1
  funext a
  rw [decide_eq_decide, Nat.cast_succ, Int.lt_add_one_iff]

theorem Ascends.bounds_offsetsOf (h : Ascends xs key) {n v : Nat} (hv : v < n) :
    bounds (offsetsOf xs key n) v = .ok ((keyRange xs key v).start, (keyRange xs key v).stop) := by
  have hoffset : ∀ i ≤ n, (offsetsOf xs key n)[i]? = some (partitionPoint xs (key · < (i : Int))) := by
    intro i hi
    rw [offsetsOf, List.getElem?_toArray, h.getElem?_offsetsFrom (Nat.zero_le _)
      (fun _ _ hlt => absurd hlt (Nat.not_lt_zero _)) (Nat.lt_succ_of_le hi), zero_add]
  rw [bounds_eq_ok (hoffset v hv.le) (hoffset (v + 1) hv), partitionPoint_lt_succ]
  rfl

theorem Ascends.start_le_stop (h : Ascends xs key) (v : Int) :
    (keyRange xs key v).start ≤ (keyRange xs key v).stop := by
  apply (h.isPartitionPoint_lt v).le_of_imp (h.isPartitionPoint_le v)
  intro a hlt
  rw [decide_eq_true_eq] at hlt ⊢
  exact hlt.le

end Pass

/-! ### Ranges that follow each other -/

/-- Ranges that follow each other and together hold the places `0, …, size - 1`. -/
structure Tiles (ranges : List IdRange) (size : Nat) : Prop where
  adjoin : ranges.IsChain fun r r' => r.stop = r'.start
  cover : ranges.flatMap IdRange.toList = List.range size

theorem flatMap_range'_eq_range {f : Nat → Nat} (hzero : f 0 = 0) (hmono : ∀ i, f i ≤ f (i + 1))
    (n : Nat) :
    (List.range n).flatMap (fun i => List.range' (f i) (f (i + 1) - f i)) = List.range (f n) := by
  induction n with
  | zero => rw [hzero, List.range_zero, List.flatMap_nil]
  | succ n ih =>
      have happend : List.range' 0 (f n) ++ List.range' (0 + f n) (f (n + 1) - f n) = _ :=
        List.range'_append_1
      rw [Nat.zero_add, Nat.add_sub_cancel' (hmono n)] at happend
      rw [List.range_succ, List.flatMap_append, ih, List.flatMap_singleton, List.range_eq_range',
        happend, List.range_eq_range']

/-- If all keys are among `0, …, n - 1`, the ranges of these tile the table. -/
theorem Ascends.tiles {α : Type} {xs : Array α} {key : α → Int} (h : Ascends xs key) {n : Nat}
    (hkeys : ∀ i (hi : i < xs.size), 0 ≤ key xs[i] ∧ key xs[i] < n) :
    Tiles ((List.range n).map fun v : Nat => keyRange xs key v) xs.size := by
  have hfirst : partitionPoint xs (key · < ((0 : Nat) : Int)) = 0 := by
    refine (h.isPartitionPoint_lt _).unique ⟨Nat.zero_le _, fun i hi => ?_⟩
    have := hkeys i hi
    rw [decide_eq_true_eq]
    omega
  have hlast : partitionPoint xs (key · < (n : Int)) = xs.size := by
    refine (h.isPartitionPoint_lt _).unique ⟨Nat.le_refl _, fun i hi => ?_⟩
    have := hkeys i hi
    rw [decide_eq_true_eq]
    omega
  constructor
  case adjoin =>
    rw [List.isChain_map, List.isChain_range]
    intro v _
    exact (partitionPoint_lt_succ xs key v).symm
  case cover =>
    have hmono : ∀ v : Nat, partitionPoint xs (key · < (v : Int)) ≤
        partitionPoint xs (key · < ((v + 1 : Nat) : Int)) := by
      intro v
      rw [partitionPoint_lt_succ]
      exact h.start_le_stop v
    calc ((List.range n).map fun v : Nat => keyRange xs key v).flatMap IdRange.toList
        = (List.range n).flatMap fun v : Nat => List.range' (partitionPoint xs (key · < (v : Int)))
            (partitionPoint xs (key · < ((v + 1 : Nat) : Int)) -
              partitionPoint xs (key · < (v : Int))) := by
          rw [List.flatMap_map]
          congr 1
          funext v
          rw [partitionPoint_lt_succ]
          rfl
      _ = List.range (partitionPoint xs (key · < (n : Int))) := flatMap_range'_eq_range hfirst hmono n
      _ = List.range xs.size := by rw [hlast]

/-! ### The tables of a graph -/

theorem toList_extract_eq_map {α : Type} {xs : Array α} {start stop : Nat} (hstop : stop ≤ xs.size)
    (d : α) :
    (xs.extract start stop).toList = (List.range' start (stop - start)).map (xs.getD · d) := by
  apply List.ext_getElem
  · rw [Array.length_toList, Array.size_extract, Nat.min_eq_left hstop, List.length_map,
      List.length_range']
  · intro i hi hi'
    have hplace : start + i < xs.size := by
      rw [List.length_map, List.length_range'] at hi'
      omega
    rw [Array.getElem_toList, Array.getElem_extract, List.getElem_map, List.getElem_range', one_mul,
      Array.getD_eq_getD_getElem?, Array.getElem?_eq_getElem hplace, Option.getD_some]

namespace Graph

variable (g : Graph)

/-- The tables hold the ranges that are found by searching. -/
theorem outMap_range {v : Int} (hv : v ∈ g.vertexIds) :
    g.outMap.range v = .ok (g.incidence.outRange v) := by
  obtain ⟨i, hi, rfl⟩ := List.mem_map.1 hv
  have hbounds := g.ascends_origin.bounds_offsetsOf (List.mem_range.1 hi)
  show (bounds (offsetsOf g.edges Edge.origin g.numVertices) (i : Int) >>= _) = _
  rw [hbounds]
  rfl

theorem inMap_range {v : Int} (hv : v ∈ g.vertexIds) :
    g.inMap.range v = .ok (g.incidence.inRange v) := by
  obtain ⟨i, hi, rfl⟩ := List.mem_map.1 hv
  have hbounds := g.ascends_dest.bounds_offsetsOf (List.mem_range.1 hi)
  show (bounds (offsetsOf g.incidence.byDest (fun e => (g.edge e).dest) g.numVertices) (i : Int)
    >>= _) = _
  rw [hbounds]
  rfl

theorem outMap_edgesOf {v : Int} (hv : v ∈ g.vertexIds) :
    ∃ out, g.outMap.edgesOf v = .ok out ∧ out.toList = (g.incidence.outIds v).map g.edge := by
  obtain ⟨i, hi, rfl⟩ := List.mem_map.1 hv
  have hstop := (g.ascends_origin.isPartitionPoint_le (i : Int)).le
  have hbounds := g.ascends_origin.bounds_offsetsOf (List.mem_range.1 hi)
  exact ⟨_, part_eq_ok hbounds (g.ascends_origin.start_le_stop _) hstop,
    toList_extract_eq_map hstop default⟩

theorem inMap_idsOf {v : Int} (hv : v ∈ g.vertexIds) :
    ∃ ids, g.inMap.idsOf v = .ok ids ∧ ids.toList = g.incidence.inIds v := by
  obtain ⟨i, hi, rfl⟩ := List.mem_map.1 hv
  have hstop := (g.ascends_dest.isPartitionPoint_le (i : Int)).le
  have hbounds := g.ascends_dest.bounds_offsetsOf (List.mem_range.1 hi)
  exact ⟨_, part_eq_ok hbounds (g.ascends_dest.start_le_stop _) hstop, toList_extract_eq_map hstop 0⟩

/-! ### Copies of an edge -/

/-- The edges that satisfy a condition come first, if every edge before one of them satisfies it. -/
theorem isPartitionPoint_edges {p : Edge → Bool}
    (hp : ∀ a b : Edge, a ≤ b → p b = true → p a = true) :
    IsPartitionPoint g.edges p (partitionPoint g.edges p) := by
  apply partitionPoint_spec
  intro i j hi hj hij
  have hle := g.edge_le_edge hij hj
  rw [g.edge_eq_getElem hi, g.edge_eq_getElem hj] at hle
  exact hp _ _ hle

theorem origin_of_outRange {v : Int} {i : Nat} (hi : i < g.edges.size)
    (hstart : (g.incidence.outRange v).start ≤ i) (hstop : i < (g.incidence.outRange v).stop) :
    g.edges[i].origin = v :=
  (g.ascends_origin.mem_keyRange hi).1 (IdRange.mem_toList.2 ⟨hstart, hstop⟩)

/-- Among the edges that leave a vertex, those with the smaller destinations come first. -/
theorem isPartitionPoint_out {v : Int} {q : Edge → Bool}
    (hq : ∀ a b : Edge, a.dest ≤ b.dest → q b = true → q a = true) :
    IsPartitionPoint (g.edges.extract (g.incidence.outRange v).start (g.incidence.outRange v).stop) q
      (partitionPoint
        (g.edges.extract (g.incidence.outRange v).start (g.incidence.outRange v).stop) q) := by
  have hstop : (g.incidence.outRange v).stop ≤ g.edges.size :=
    (g.ascends_origin.isPartitionPoint_le v).le
  apply partitionPoint_spec
  intro i j hi hj hij
  rw [Array.size_extract, Nat.min_eq_left hstop] at hi hj
  rw [Array.getElem_extract, Array.getElem_extract]
  have hplace : (g.incidence.outRange v).start + i < g.edges.size := by omega
  have hplace' : (g.incidence.outRange v).start + j < g.edges.size := by omega
  have hle := g.edge_le_edge (Nat.add_le_add_left hij _) hplace'
  rw [g.edge_eq_getElem hplace, g.edge_eq_getElem hplace', Edge.le_def,
    g.origin_of_outRange (v := v) hplace (by omega) (by omega),
    g.origin_of_outRange (v := v) hplace' (by omega) (by omega)] at hle
  exact hq _ _ (by omega)

/-- A search by destination among the edges that leave a vertex ends where one of all edges does. -/
theorem start_add_partitionPoint {v : Int} {p q : Edge → Bool}
    (hp : ∀ e : Edge, p e = true ↔ e.origin < v ∨ e.origin = v ∧ q e = true)
    (hq : ∀ a b : Edge, a.dest ≤ b.dest → q b = true → q a = true) :
    (g.incidence.outRange v).start + partitionPoint
      (g.edges.extract (g.incidence.outRange v).start (g.incidence.outRange v).stop) q =
        partitionPoint g.edges p := by
  have hstart := g.ascends_origin.isPartitionPoint_lt v
  have hstop := g.ascends_origin.isPartitionPoint_le v
  have hall : IsPartitionPoint g.edges p (partitionPoint g.edges p) := by
    apply g.isPartitionPoint_edges
    intro a b hab hb
    rw [Edge.le_def] at hab
    rw [hp] at hb ⊢
    rcases hb with hlt | ⟨heq, hqb⟩
    · exact .inl (by omega)
    · rcases hab with hlt | ⟨hsame, hdest⟩
      · exact .inl (by omega)
      · exact .inr ⟨by omega, hq a b hdest hqb⟩
  refine ((g.isPartitionPoint_out hq).of_extract (g.ascends_origin.start_le_stop v) hstop.le
    ?_ ?_ ?_).unique hall
  · intro i hi hbefore
    exact (hp _).2 (.inl (of_decide_eq_true ((hstart.iff i hi).2 hbefore)))
  · intro i hi hge hlt
    have horigin := g.origin_of_outRange hi hge hlt
    rw [Bool.eq_iff_iff, hp]
    exact ⟨fun h => h.elim (fun hlt => absurd hlt (by omega)) And.right, fun h => .inr ⟨horigin, h⟩⟩
  · intro i hi hbehind hpi
    have hnot := (not_congr (hstop.iff i hi)).2 (Nat.not_lt.2 hbehind)
    rw [decide_eq_true_eq] at hnot
    have hcases := (hp _).1 hpi
    omega

/-- The copies are found that a search of the whole table finds. -/
theorem outMap_copies {v : Int} (hv : v ∈ g.vertexIds) (w : Int) :
    g.outMap.copies v w = .ok (g.incidence.copies ⟨v, w⟩) := by
  have hle : (g.incidence.outRange v).start ≤ (g.incidence.outRange v).stop :=
    g.ascends_origin.start_le_stop v
  have hstop : (g.incidence.outRange v).stop ≤ g.edges.size :=
    (g.ascends_origin.isPartitionPoint_le v).le
  have hslice : slice g.outMap.edges (g.incidence.outRange v).start (g.incidence.outRange v).stop =
      .ok (g.edges.extract (g.incidence.outRange v).start (g.incidence.outRange v).stop) :=
    if_pos ⟨hle, hstop⟩
  rw [OutMap.copies, g.outMap_range hv]
  show (slice _ _ _ >>= _) = _
  rw [hslice]
  show Except.ok (IdRange.mk _ _) = _
  rw [g.start_add_partitionPoint (p := (· < ⟨v, w⟩)) (q := (·.dest < w)),
    g.start_add_partitionPoint (p := (· ≤ ⟨v, w⟩)) (q := (·.dest ≤ w))]
  · rfl
  · intro e
    simp only [decide_eq_true_eq, Edge.le_def]
  · intro a b hab hb
    simp only [decide_eq_true_eq] at hb ⊢
    omega
  · intro e
    simp only [decide_eq_true_eq, Edge.lt_def]
  · intro a b hab hb
    simp only [decide_eq_true_eq] at hb ⊢
    omega

theorem isPartitionPoint_lt (e : Edge) :
    IsPartitionPoint g.edges (· < e) (g.incidence.copies e).start := by
  apply g.isPartitionPoint_edges
  intro a b hab hb
  simp only [decide_eq_true_eq, Edge.lt_def, Edge.le_def] at hab hb ⊢
  omega

theorem isPartitionPoint_le (e : Edge) :
    IsPartitionPoint g.edges (· ≤ e) (g.incidence.copies e).stop := by
  apply g.isPartitionPoint_edges
  intro a b hab hb
  simp only [decide_eq_true_eq] at hb ⊢
  exact Edge.le_trans hab hb

theorem copies_start_le_stop (e : Edge) :
    (g.incidence.copies e).start ≤ (g.incidence.copies e).stop := by
  apply (g.isPartitionPoint_lt e).le_of_imp (g.isPartitionPoint_le e)
  intro a hlt
  rw [decide_eq_true_eq] at hlt ⊢
  exact (Edge.lt_iff_le_and_ne.1 hlt).1

theorem mem_copies_iff {e : Edge} {i : Nat} :
    i ∈ (g.incidence.copies e).toList ↔ i < g.numEdges ∧ g.edge i = e := by
  have hlt := g.isPartitionPoint_lt e
  have hle := g.isPartitionPoint_le e
  rw [IdRange.mem_toList]
  constructor
  · rintro ⟨hge, hi⟩
    have hsize : i < g.edges.size := hi.trans_le hle.le
    have hnot := (not_congr (hlt.iff i hsize)).2 (Nat.not_lt.2 hge)
    have hupto := (hle.iff i hsize).2 hi
    simp only [decide_eq_true_eq] at hnot hupto
    rw [g.edge_eq_getElem hsize]
    exact ⟨hsize, Edge.le_antisymm hupto (Edge.not_lt.1 hnot)⟩
  · rintro ⟨hsize, rfl⟩
    rw [g.edge_eq_getElem hsize] at hlt hle ⊢
    have hnot : ¬g.edges[i] < g.edges[i] := Edge.not_lt.2 (Edge.le_refl _)
    have hge := (not_congr (hlt.iff i hsize)).1 (mt of_decide_eq_true hnot)
    exact ⟨Nat.le_of_not_lt hge, (hle.iff i hsize).1 (decide_eq_true (Edge.le_refl _))⟩

/-- An edge put where its copies begin leaves the table in order. -/
theorem pairwise_inserted (e : Edge) :
    (g.edges.toList.take (g.incidence.copies e).start ++
      e :: g.edges.toList.drop (g.incidence.copies e).start).Pairwise (· ≤ ·) := by
  have hpoint := g.isPartitionPoint_lt e
  have hsplit : (g.edges.toList.take (g.incidence.copies e).start ++
      g.edges.toList.drop (g.incidence.copies e).start).Pairwise (· ≤ ·) := by
    rw [List.take_append_drop]
    exact g.pairwise_edges
  obtain ⟨hbefore, hbehind, hacross⟩ := List.pairwise_append.1 hsplit
  have hlt : ∀ a ∈ g.edges.toList.take (g.incidence.copies e).start, a ≤ e := by
    intro a ha
    obtain ⟨i, hi, rfl⟩ := List.mem_take_iff_getElem.1 ha
    have hi := lt_min_iff.1 hi
    have hmem := of_decide_eq_true ((hpoint.iff i hi.2).2 hi.1)
    exact (Edge.lt_iff_le_and_ne.1 hmem).1
  have hge : ∀ b ∈ g.edges.toList.drop (g.incidence.copies e).start, e ≤ b := by
    intro b hb
    obtain ⟨i, hi, rfl⟩ := List.mem_drop_iff_getElem.1 hb
    have hplace : (g.incidence.copies e).start + i < g.edges.size := by
      rw [Nat.add_comm]
      exact hi
    have hnot := (not_congr (hpoint.iff _ hplace)).2 (Nat.not_lt.2 (Nat.le_add_right _ _))
    rw [decide_eq_true_eq] at hnot
    exact Edge.not_lt.1 hnot
  refine List.pairwise_append.2 ⟨hbefore, List.pairwise_cons.2 ⟨hge, hbehind⟩, fun a ha b hb => ?_⟩
  rcases List.mem_cons.1 hb with rfl | hb
  · exact hlt a ha
  · exact hacross a ha b hb

/-! ### Everything is listed -/

/-- The tables list the edges at every vertex of a graph, and the copies of every edge that could
leave it. -/
structure IndexesEdges : Prop where
  leaving : ∀ v ∈ g.vertexIds, ∃ r out, g.outMap.range v = .ok r ∧ g.outMap.edgesOf v = .ok out ∧
    (∀ e, e ∈ r.toList ↔ e < g.numEdges ∧ (g.edge e).origin = v) ∧ out.toList = r.toList.map g.edge
  entering : ∀ v ∈ g.vertexIds, ∃ ids, g.inMap.idsOf v = .ok ids ∧
    (∀ e, e ∈ ids ↔ e < g.numEdges ∧ (g.edge e).dest = v) ∧
    ids.toList.Pairwise fun a b => (g.edge a).origin < (g.edge b).origin ∨
      (g.edge a).origin = (g.edge b).origin ∧ a < b
  tilesOut : ∃ ranges, g.vertexIds.mapM g.outMap.range = .ok ranges ∧ Tiles ranges g.numEdges
  tilesIn : ∃ ranges, g.vertexIds.mapM g.inMap.range = .ok ranges ∧ Tiles ranges g.numEdges
  copies : ∀ v ∈ g.vertexIds, ∀ w, ∃ r, g.outMap.copies v w = .ok r ∧
    r.start ≤ r.stop ∧ r.stop ≤ g.numEdges ∧
    (∀ e, e ∈ r.toList ↔ e < g.numEdges ∧ g.edge e = ⟨v, w⟩) ∧
    (g.edges.toList.take r.start ++ ⟨v, w⟩ :: g.edges.toList.drop r.start).Pairwise (· ≤ ·)

theorem mem_outIds_iff {v : Int} {e : Nat} :
    e ∈ g.incidence.outIds v ↔ e < g.numEdges ∧ (g.edge e).origin = v := by
  rw [outIds_incidence, List.mem_filter, g.mem_edgeIds, beq_iff_eq]

theorem mem_inIds_iff {v : Int} {e : Nat} :
    e ∈ g.incidence.inIds v ↔ e < g.numEdges ∧ (g.edge e).dest = v := by
  rw [inIds_incidence, List.mem_filter, g.inOrder_inEdgeIds.mem_iff, beq_iff_eq]

theorem pairwise_inIds (v : Int) : (g.incidence.inIds v).Pairwise fun a b =>
    (g.edge a).origin < (g.edge b).origin ∨ (g.edge a).origin = (g.edge b).origin ∧ a < b := by
  have hdest : ∀ e ∈ g.incidence.inIds v, (g.edge e).dest = v := fun e he => (g.mem_inIds_iff.1 he).2
  have hpairwise : (g.incidence.inIds v).Pairwise fun a b =>
      (g.edge a).reverse ≤ (g.edge b).reverse ∧ (g.edge a = g.edge b → a < b) := by
    rw [inIds_incidence]
    exact g.pairwise_inEdgeIds.filter _
  refine hpairwise.imp_of_mem fun {a b} ha hb hab => ?_
  obtain ⟨hle, hcopies⟩ := hab
  rw [Edge.le_def] at hle
  simp only [Edge.reverse_origin, Edge.reverse_dest, hdest a ha, hdest b hb] at hle
  by_cases horigin : (g.edge a).origin = (g.edge b).origin
  · exact .inr ⟨horigin, hcopies (Edge.ext_iff'.2 ⟨horigin, (hdest a ha).trans (hdest b hb).symm⟩)⟩
  · exact .inl (by omega)

theorem vertexIds_mapM {range : Int → Except Fault IdRange} {value : Int → IdRange}
    (h : ∀ v ∈ g.vertexIds, range v = .ok (value v)) :
    g.vertexIds.mapM range = .ok ((List.range g.numVertices).map fun v : Nat => value v) := by
  rw [mapM_eq_ok h, vertexIds, List.map_map]
  rfl

theorem indexesEdges : g.IndexesEdges := by
  constructor
  case leaving =>
    intro v hv
    obtain ⟨out, hout, hlist⟩ := g.outMap_edgesOf hv
    exact ⟨_, out, g.outMap_range hv, hout, fun e => g.mem_outIds_iff, hlist⟩
  case entering =>
    intro v hv
    obtain ⟨ids, hids, hlist⟩ := g.inMap_idsOf hv
    refine ⟨ids, hids, fun e => ?_, ?_⟩
    · rw [← Array.mem_toList_iff, hlist, g.mem_inIds_iff]
    · rw [hlist]
      exact g.pairwise_inIds v
  case tilesOut =>
    refine ⟨_, g.vertexIds_mapM fun v hv => g.outMap_range hv, g.ascends_origin.tiles fun i hi => ?_⟩
    have hrange := g.inRange_edge hi
    rw [g.edge_eq_getElem hi] at hrange
    simp only [Edge.inRange, Bool.and_eq_true, decide_eq_true_eq] at hrange
    omega
  case tilesIn =>
    have hsize : g.incidence.byDest.size = g.numEdges := by
      show g.inEdgeIds.length = _
      rw [g.inOrder_inEdgeIds.perm.length_eq, edgeIds, List.length_range]
    refine ⟨_, g.vertexIds_mapM fun v hv => g.inMap_range hv, ?_⟩
    rw [← hsize]
    refine g.ascends_dest.tiles fun i hi => ?_
    have hmem : g.incidence.byDest[i] ∈ g.inEdgeIds := List.getElem_mem _
    have hrange := g.inRange_edge (g.inOrder_inEdgeIds.mem_iff.1 hmem)
    simp only [Edge.inRange, Bool.and_eq_true, decide_eq_true_eq] at hrange
    omega
  case copies =>
    intro v hv w
    exact ⟨_, g.outMap_copies hv w, g.copies_start_le_stop _, (g.isPartitionPoint_le _).le,
      fun e => g.mem_copies_iff, g.pairwise_inserted _⟩

end Graph

end SnapGraph
