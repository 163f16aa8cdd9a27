import Mathlib
import SnapGraph.Compaction
import SnapGraph.Proofs.Build
import SnapGraph.Proofs.Sibling

/-! Compaction renumbers vertices in order. The number that a vertex had before is continued to a strictly
ascending function on all integers, so the old edges are the new ones with their endpoints mapped, and
whatever is stated by comparing and counting edges carries over. Old entries of the scratch table play
no part in this. -/

namespace SnapGraph

/-! ### The scratch table -/

theorem size_resizeTo (size : Nat) (table : Array Int) : (resizeTo size table).size = size := by
  simp only [resizeTo, Array.size_append, Array.take_eq_extract, Array.size_extract,
    Array.size_replicate]
  omega

theorem getD_numberFrom_of_not_mem {next : Nat} {table : Array Int} {vs : List Nat} {v : Nat}
    (hv : v ∉ vs) : (numberFrom next table vs).getD v 0 = table.getD v 0 := by
  induction vs generalizing next table with
  | nil => rfl
  | cons w vs ih =>
      rw [List.mem_cons, not_or] at hv
      rw [numberFrom, ih hv.2, Array.getD_eq_getD_getElem?, Array.getD_eq_getD_getElem?,
        Array.getElem?_setIfInBounds_ne (Ne.symm hv.1)]

/-- Each listed vertex finds its place in the table. -/
theorem getD_numberFrom {next : Nat} {table : Array Int} {vs : List Nat} (hnodup : vs.Nodup)
    (hlt : ∀ v ∈ vs, v < table.size) {i v : Nat} (hi : vs[i]? = some v) :
    (numberFrom next table vs).getD v 0 = ((next + i : Nat) : Int) := by
  induction vs generalizing next table i with
  | nil => cases hi
  | cons w vs ih =>
      obtain ⟨hw, hnodup⟩ := List.nodup_cons.1 hnodup
      obtain ⟨hltw, hlt⟩ := List.forall_mem_cons.1 hlt
      rw [numberFrom]
      cases i with
      | zero =>
          obtain rfl : w = v := Option.some.inj hi
          rw [getD_numberFrom_of_not_mem hw, Array.getD_eq_getD_getElem?,
            Array.getElem?_setIfInBounds_self_of_lt hltw]
          rfl
      | succ i =>
          have hlt : ∀ u ∈ vs, u < (table.setIfInBounds w next).size := by
            intro u hu
            rw [Array.size_setIfInBounds]
            exact hlt u hu
          rw [ih hnodup hlt hi]
          omega

/-! ### Old numbers -/

/-- An edge with both endpoints mapped. -/
def Edge.map (f : Int → Int) (e : Edge) : Edge := ⟨f e.origin, f e.dest⟩

namespace Edge

variable {f : Int → Int}

@[simp] theorem map_origin (e : Edge) : (e.map f).origin = f e.origin := rfl

@[simp] theorem map_dest (e : Edge) : (e.map f).dest = f e.dest := rfl

theorem reverse_map (e : Edge) : (e.map f).reverse = e.reverse.map f := rfl

theorem map_injective (hf : Function.Injective f) : Function.Injective (map f) := by
  intro a b hab
  obtain ⟨horigin, hdest⟩ := ext_iff'.1 hab
  exact ext_iff'.2 ⟨hf horigin, hf hdest⟩

theorem isDegenerate_map (hf : Function.Injective f) (e : Edge) :
    (e.map f).isDegenerate = e.isDegenerate := by
  rw [Bool.eq_iff_iff, isDegenerate_iff, isDegenerate_iff]
  exact hf.eq_iff

theorem map_le_map_iff (hf : StrictMono f) {a b : Edge} : a.map f ≤ b.map f ↔ a ≤ b := by
  rw [le_def, le_def, map_origin, map_origin, map_dest, map_dest, hf.lt_iff_lt, hf.injective.eq_iff,
    hf.le_iff_le]

end Edge

/-- The old number of a vertex, given the old numbers of those that are kept, in order. Other integers
are mapped so that all ascend. -/
def oldVertex (size : Nat) (kept : List Nat) (v : Int) : Int :=
  if v < 0 then v else match kept[v.toNat]? with
    | some w => w
    | none => size + v

theorem oldVertex_natCast {size : Nat} {kept : List Nat} {i w : Nat} (hi : kept[i]? = some w) :
    oldVertex size kept i = w := by
  rw [oldVertex, if_neg (by omega), Int.toNat_natCast, hi]

theorem strictMono_oldVertex {size : Nat} {kept : List Nat} (hsorted : kept.Pairwise (· < ·))
    (hlt : ∀ w ∈ kept, w < size) : StrictMono (oldVertex size kept) := by
  intro a b hab
  unfold oldVertex
  by_cases hb : b < 0
  · rw [if_pos hb, if_pos (hab.trans hb)]
    exact hab
  · rw [if_neg hb]
    by_cases ha : a < 0
    · rw [if_pos ha]
      split
      · omega
      · omega
    · rw [if_neg ha]
      have hnat : a.toNat < b.toNat := by omega
      split
      · rename_i w hw
        obtain ⟨_, rfl⟩ := List.getElem?_eq_some_iff.1 hw
        split
        · rename_i w' hw'
          obtain ⟨hbound, rfl⟩ := List.getElem?_eq_some_iff.1 hw'
          exact Int.ofNat_lt.2 (List.pairwise_iff_getElem.1 hsorted _ _ _ hbound hnat)
        · have hsize := hlt _ (List.getElem_mem (by assumption))
          omega
      · rename_i hnone
        rw [List.getElem?_eq_none (by rw [List.getElem?_eq_none_iff] at hnone; omega)]
        dsimp only
        omega

/-! ### Touched vertices -/

theorem mem_touchedVertices {edges : Array Edge} {v : Int} :
    v ∈ touchedVertices edges ↔ ∃ e ∈ edges.toList, e.touches v := by
  rw [touchedVertices, mem_ascending, List.mem_flatMap]
  simp only [List.mem_cons, List.not_mem_nil, or_false, Edge.touches, Bool.or_eq_true, beq_iff_eq,
    eq_comm (a := v)]

theorem nonneg_of_mem_touchedVertices {edges : Array Edge} {n : Nat}
    (hrange : ∀ e ∈ edges.toList, e.inRange n) {v : Int} (hv : v ∈ touchedVertices edges) :
    0 ≤ v ∧ v < n := by
  obtain ⟨e, he, htouches⟩ := mem_touchedVertices.1 hv
  obtain ⟨horigin, hdest⟩ := Edge.inRange_iff.1 (hrange e he)
  rw [Edge.touches, Bool.or_eq_true, beq_iff_eq, beq_iff_eq] at htouches
  rcases htouches with rfl | rfl
  · exact horigin
  · exact hdest

theorem pairwise_touchedVertices {edges : Array Edge} {n : Nat}
    (hrange : ∀ e ∈ edges.toList, e.inRange n) :
    ((touchedVertices edges).map Int.toNat).Pairwise (· < ·) := by
  refine List.pairwise_map.2 ((pairwise_ascending _).imp_of_mem fun {v w} hv hw hvw => ?_)
  have := nonneg_of_mem_touchedVertices hrange hv
  omega

/-! ### Compacted tables -/

/-- Compacting a table of edges in range keeps the touched vertices in order and looks endpoints up by
their places among them. -/
structure IsCompacted (vertices : Array Point) (edges : Array Edge) (kept : List Nat)
    (c : Compacted) : Prop where
  sorted : kept.Pairwise (· < ·)
  lt : ∀ w ∈ kept, w < vertices.size
  touched : ∀ e ∈ edges.toList, ∀ v, e.touches v → v.toNat ∈ kept
  vertices : c.vertices = (kept.map fun w => vertices.getD w default).toArray
  edges : c.edges = edges.map (Edge.renumber c.scratch)
  place : ∀ i w : Nat, kept[i]? = some w → c.scratch.getD w 0 = (i : Int)

theorem exists_isCompacted_touched (vertices : Array Point) {edges : Array Edge}
    (hrange : ∀ e ∈ edges.toList, e.inRange vertices.size) (scratch : Array Int) :
    ∃ c, compact vertices edges scratch = .ok c ∧
      IsCompacted vertices edges ((touchedVertices edges).map Int.toNat) c := by
  have htouched : ∀ v ∈ touchedVertices edges, 0 ≤ v ∧ v < vertices.size :=
    fun v => nonneg_of_mem_touchedVertices hrange
  have hindex : ∀ v ∈ touchedVertices edges, indexOf vertices.size v = .ok v.toNat := by
    intro v hv
    obtain ⟨hnonneg, hlt⟩ := htouched v hv
    rw [indexOf, if_pos]
    omega
  have hlt : ∀ w ∈ (touchedVertices edges).map Int.toNat, w < vertices.size := by
    intro w hw
    obtain ⟨v, hv, rfl⟩ := List.mem_map.1 hw
    have := htouched v hv
    omega
  have hsorted := pairwise_touchedVertices hrange
  let table := numberFrom 0 (resizeTo vertices.size scratch) ((touchedVertices edges).map Int.toNat)
  let c : Compacted :=
    { vertices := (((touchedVertices edges).map Int.toNat).map fun v =>
        vertices.getD v default).toArray
      edges := edges.map (Edge.renumber table)
      scratch := table }
  refine ⟨c, ?_, hsorted, hlt, fun e he v hv => ?_, rfl, rfl, fun i w hi => ?_⟩
  · rw [compact, mapM_eq_ok hindex]
    rfl
  · exact List.mem_map_of_mem (mem_touchedVertices.2 ⟨e, he, hv⟩)
  · have hnodup := hsorted.imp fun {v w : Nat} hvw => Nat.ne_of_lt hvw
    show (numberFrom _ _ _).getD w 0 = _
    rw [getD_numberFrom hnodup (by rwa [size_resizeTo]) hi, Nat.zero_add]

theorem exists_isCompacted (vertices : Array Point) {edges : Array Edge}
    (hrange : ∀ e ∈ edges.toList, e.inRange vertices.size) (scratch : Array Int) :
    ∃ kept c, compact vertices edges scratch = .ok c ∧ IsCompacted vertices edges kept c := by
  obtain ⟨c, hcompact, hc⟩ := exists_isCompacted_touched vertices hrange scratch
  exact ⟨_, c, hcompact, hc⟩

namespace IsCompacted

variable {vertices : Array Point} {edges : Array Edge} {kept : List Nat} {c : Compacted}
  (h : IsCompacted vertices edges kept c)

include h

theorem size_vertices : c.vertices.size = kept.length := by
  rw [h.vertices, List.size_toArray, List.length_map]

/-- A new number is a place among the vertices that are kept. -/
theorem exists_kept {v : Int} (hnonneg : 0 ≤ v) (hlt : v < c.vertices.size) :
    ∃ i w : Nat, v = (i : Int) ∧ kept[i]? = some w ∧ oldVertex vertices.size kept v = w := by
  obtain ⟨i, rfl⟩ := Int.eq_ofNat_of_zero_le hnonneg
  rw [h.size_vertices, Int.ofNat_lt] at hlt
  have hi := List.getElem?_eq_getElem hlt
  exact ⟨i, _, rfl, hi, oldVertex_natCast hi⟩

/-- Every vertex that is left lies where it lay before. -/
theorem vertex {v : Int} (hnonneg : 0 ≤ v) (hlt : v < c.vertices.size) :
    0 ≤ oldVertex vertices.size kept v ∧ oldVertex vertices.size kept v < vertices.size ∧
      c.vertices.getD v.toNat default =
        vertices.getD (oldVertex vertices.size kept v).toNat default := by
  obtain ⟨i, w, rfl, hi, hold⟩ := h.exists_kept hnonneg hlt
  rw [hold, h.vertices, Array.getD_eq_getD_getElem?, List.getElem?_toArray, List.getElem?_map,
    Int.toNat_natCast, hi]
  exact ⟨Int.natCast_nonneg w, Int.ofNat_lt.2 (h.lt w (List.mem_of_getElem? hi)), rfl⟩

/-- The scratch table takes the old number of a vertex to the new one. -/
theorem getD_scratch {v : Int} (hnonneg : 0 ≤ v) (hlt : v < c.vertices.size) :
    c.scratch.getD (oldVertex vertices.size kept v).toNat 0 = v := by
  obtain ⟨i, w, rfl, hi, hold⟩ := h.exists_kept hnonneg hlt
  rw [hold, Int.toNat_natCast]
  exact h.place i w hi

variable (hrange : ∀ e ∈ edges.toList, e.inRange vertices.size)

include hrange

/-- The old number of the new number of a touched vertex is the vertex. -/
theorem exists_place {e : Edge} (he : e ∈ edges.toList) {v : Int} (hv : e.touches v) :
    ∃ i : Nat, i < kept.length ∧ c.scratch.getD v.toNat 0 = (i : Int) ∧
      oldVertex vertices.size kept i = v := by
  obtain ⟨i, hi⟩ := List.mem_iff_getElem?.1 (h.touched e he v hv)
  have hnonneg := (nonneg_of_mem_touchedVertices hrange (mem_touchedVertices.2 ⟨e, he, hv⟩)).1
  exact ⟨i, (List.getElem?_eq_some_iff.1 hi).1, h.place i _ hi,
    (oldVertex_natCast hi).trans (Int.toNat_of_nonneg hnonneg)⟩

theorem map_renumber {e : Edge} (he : e ∈ edges.toList) :
    (e.renumber c.scratch).map (oldVertex vertices.size kept) = e ∧
      (e.renumber c.scratch).inRange kept.length := by
  obtain ⟨i, hi, hplace, hold⟩ := h.exists_place hrange he (v := e.origin) (by simp [Edge.touches])
  obtain ⟨j, hj, hplace', hold'⟩ := h.exists_place hrange he (v := e.dest) (by simp [Edge.touches])
  refine ⟨Edge.ext_iff'.2 ⟨?_, ?_⟩, Edge.inRange_iff.2 ?_⟩
  · rw [Edge.map_origin, Edge.renumber, hplace, hold]
  · rw [Edge.map_dest, Edge.renumber, hplace', hold']
  · rw [Edge.renumber, hplace, hplace']
    exact ⟨⟨Int.natCast_nonneg i, Int.ofNat_lt.2 hi⟩, Int.natCast_nonneg j, Int.ofNat_lt.2 hj⟩

theorem map_edges : c.edges.toList.map (Edge.map (oldVertex vertices.size kept)) = edges.toList := by
  rw [h.edges, Array.toList_map, List.map_map]
  refine (List.map_congr_left fun e he => ?_).trans (List.map_id _)
  exact (h.map_renumber hrange he).1

theorem inRange : ∀ e ∈ c.edges.toList, e.inRange c.vertices.size := by
  intro e he
  rw [h.edges, Array.toList_map] at he
  obtain ⟨f, hf, rfl⟩ := List.mem_map.1 he
  rw [h.size_vertices]
  exact (h.map_renumber hrange hf).2

end IsCompacted

/-! ### Compacted layers -/

/-- The second layer is the first with its vertices renumbered in order, `old` being the numbers they
had. -/
structure Layer.Renumbers (old : Int → Int) (l l' : Layer) : Prop where
  strictMono : StrictMono old
  options : l'.options = l.options
  inputHandles : l'.inputHandles = l.inputHandles
  inputSets : l'.inputSets = l.inputSets
  labelHandles : l'.labelHandles = l.labelHandles
  labelSets : l'.labelSets = l.labelSets
  edges : l'.edges.toList.map (Edge.map old) = l.edges.toList
  inRange : ∀ e ∈ l'.edges.toList, e.inRange l'.vertices.size
  vertex : ∀ v : Int, 0 ≤ v → v < l'.vertices.size → 0 ≤ old v ∧ old v < l.vertices.size ∧
    l'.vertices.getD v.toNat default = l.vertices.getD (old v).toNat default

theorem Layer.inRange_of_check {l : Layer} (h : l.check = .ok ()) :
    ∀ e ∈ l.edges.toList, e.inRange l.vertices.size := by
  unfold check at h
  split at h
  · exact (checkEdges_eq_ok_iff.1 h).1
  · cases h

/-- Compaction never fails on a valid layer. Where vertices may be dropped, it leaves a table of their new
numbers. -/
theorem Layer.exists_compact {l : Layer} (h : l.check = .ok ()) (scratch : Array Int) :
    ∃ old l' table, l.compact scratch = .ok (l', table) ∧ l.Renumbers old l' ∧
      (l.options.allowVertexFiltering → ∀ v : Int, 0 ≤ v → v < l'.vertices.size →
        table.getD (old v).toNat 0 = v) := by
  have hrange := inRange_of_check h
  unfold compact
  split
  · obtain ⟨kept, c, hcompact, hc⟩ := exists_isCompacted l.vertices hrange scratch
    refine ⟨oldVertex l.vertices.size kept, { l with vertices := c.vertices, edges := c.edges },
      c.scratch, ?_, ⟨strictMono_oldVertex hc.sorted hc.lt, rfl, rfl, rfl, rfl, rfl,
        hc.map_edges hrange, hc.inRange hrange, fun v => hc.vertex⟩, fun _ v => hc.getD_scratch⟩
    rw [hcompact]
    rfl
  · rename_i hfilters
    refine ⟨id, l, scratch, rfl, ⟨strictMono_id, rfl, rfl, rfl, rfl, rfl, List.map_id _, hrange,
      fun v hnonneg hlt => ⟨hnonneg, hlt, rfl⟩⟩, fun hfilters' => absurd hfilters' hfilters⟩

namespace Layer.Renumbers

variable {old : Int → Int} {l l' : Layer} (h : l.Renumbers old l')

include h

theorem count_map (e : Edge) : l.edges.toList.count (e.map old) = l'.edges.toList.count e := by
  rw [← h.edges, List.count_map_of_injective _ _ (Edge.map_injective h.strictMono.injective)]

theorem mem_edges {e : Edge} : e.map old ∈ l.edges.toList ↔ e ∈ l'.edges.toList := by
  rw [← List.count_pos_iff, h.count_map, List.count_pos_iff]

theorem isDegenerate_map (e : Edge) : (e.map old).isDegenerate = e.isDegenerate :=
  Edge.isDegenerate_map h.strictMono.injective e

theorem check (hvalid : l.check = .ok ()) : l'.check = .ok () := by
  have hlength : l.edges.size = l'.edges.size := by
    rw [← Array.length_toList, ← h.edges, List.length_map, Array.length_toList]
  unfold Layer.check at hvalid ⊢
  rw [h.inputHandles, ← hlength]
  split at hvalid
  · rename_i hsize
    obtain ⟨-, hsorted⟩ := checkEdges_eq_ok_iff.1 hvalid
    rw [if_pos hsize, checkEdges_eq_ok_iff]
    rw [← h.edges, List.pairwise_map] at hsorted
    exact ⟨h.inRange, hsorted.imp (Edge.map_le_map_iff h.strictMono).1⟩
  · cases hvalid

/-- Renumbering keeps what the options promise. -/
theorem isClean (hclean : l.IsClean) : l'.IsClean where
  valid := h.check hclean.valid
  proper hdiscard e he := by
    rw [h.options] at hdiscard
    rw [← h.isDegenerate_map]
    exact hclean.proper hdiscard _ (h.mem_edges.2 he)
  merged hmerge e hproper := by
    rw [h.options] at hmerge
    rw [← h.isDegenerate_map] at hproper
    rw [← h.count_map]
    exact hclean.merged hmerge _ hproper
  cancelled hdirected hdiscard e hproper he := by
    rw [h.options] at hdirected hdiscard
    rw [← h.isDegenerate_map] at hproper
    rw [← h.mem_edges, ← Edge.reverse_map]
    exact hclean.cancelled hdirected hdiscard _ hproper (h.mem_edges.2 he)
  paired hguarantees e := by
    rw [h.options] at hguarantees
    rw [← h.count_map, ← h.count_map, ← Edge.reverse_map]
    exact hclean.paired hguarantees _
  even hundirected v := by
    rw [h.options] at hundirected
    rw [← h.count_map]
    exact hclean.even hundirected (old v)

/-- No vertices are added: the first `n` of them were `n` vertices before. -/
theorem size_vertices_le : l'.vertices.size ≤ l.vertices.size := by
  have hle : ∀ n : Nat, n < l'.vertices.size → (n : Int) ≤ old n := by
    intro n hn
    induction n with
    | zero => exact (h.vertex 0 (Int.le_refl 0) (by omega)).1
    | succ n ih =>
        have hstep := h.strictMono (show (n : Int) < (n + 1 : Nat) by omega)
        have := ih (by omega)
        omega
  by_contra hlt
  have hlast := h.vertex l.vertices.size (Int.natCast_nonneg _) (by omega)
  have := hle l.vertices.size (by omega)
  omega

theorem fits (hfits : l.Fits) : l'.Fits where
  vertices_lt := h.size_vertices_le.trans_lt hfits.vertices_lt
  edges_lt := by
    rw [← Array.length_toList, ← List.length_map (Edge.map old), h.edges, Array.length_toList]
    exact hfits.edges_lt
  inputSets := h.inputSets ▸ hfits.inputSets
  labelSets := h.labelSets ▸ hfits.labelSets

end Layer.Renumbers

/-! ### Any number of compactions -/

namespace Layer

/-- The first layer is compacted to the second, with whatever the scratch table holds. -/
def Compacts (l l' : Layer) : Prop := ∃ scratch table, l.compact scratch = .ok (l', table)

theorem Compacts.isClean {l l' : Layer} (h : l.Compacts l') (hclean : l.IsClean) : l'.IsClean := by
  obtain ⟨scratch, table, hcompact⟩ := h
  obtain ⟨old, m, table', hm, hrenumbers, -⟩ := exists_compact hclean.valid scratch
  cases hcompact.symm.trans hm
  exact hrenumbers.isClean hclean

theorem Compacts.fits {l l' : Layer} (h : l.Compacts l') (hclean : l.IsClean) (hfits : l.Fits) :
    l'.Fits := by
  obtain ⟨scratch, table, hcompact⟩ := h
  obtain ⟨old, m, table', hm, hrenumbers, -⟩ := exists_compact hclean.valid scratch
  cases hcompact.symm.trans hm
  exact hrenumbers.fits hfits

theorem IsClean.of_compacts {l l' : Layer} (hclean : l.IsClean)
    (h : Relation.ReflTransGen Compacts l l') : l'.IsClean := by
  induction h with
  | refl => exact hclean
  | tail _ hstep ih => exact hstep.isClean ih

theorem IsClean.fits_of_compacts {l l' : Layer} (hclean : l.IsClean) (hfits : l.Fits)
    (h : Relation.ReflTransGen Compacts l l') : l'.Fits := by
  induction h with
  | refl => exact hfits
  | tail hsteps hstep ih => exact hstep.fits (hclean.of_compacts hsteps) ih

/-- What a layer keeps to: its graph is valid, its edges are clean, and if its options guarantee siblings,
these are mapped to each other and run opposite ways. -/
structure Conforms (l : Layer) : Prop extends l.IsClean where
  graph : ∃ g, l.graph = .ok g
  siblings : l.options.guaranteesSiblings → ∃ g, ∃ siblings : List Nat, l.graph = .ok g ∧
    g.siblingMap = .ok (siblings.map Int.ofNat) ∧ siblings.Perm g.edgeIds ∧
    (∀ e < g.numEdges, siblings.getD (siblings.getD e 0) 0 = e) ∧
    ∀ e < g.numEdges, g.edge (siblings.getD e 0) = (g.edge e).reverse

theorem IsClean.conforms {l : Layer} (h : l.IsClean) : l.Conforms where
  toIsClean := h
  graph := ⟨_, graph_eq h.valid⟩
  siblings hguarantees := by
    have hpaired := h.paired hguarantees
    obtain ⟨siblings, hmap, hin, -, hinvolutive, -⟩ :=
      (⟨l, h.valid⟩ : Graph).exists_siblingMap_of_even hguarantees hpaired h.even
    exact ⟨_, siblings, graph_eq h.valid, hmap, hin.perm, hinvolutive, fun e => hin.edge_getD hpaired⟩

/-- Building reports an input edge out of range, or else siblings that are required and missing, or else
makes a layer. That one conforms to its options and can be compacted any number of times, and so does
and can what compaction leaves. If there are fewer than `2 ^ 31` vertices and `2 ^ 29` input edges, all
of this has 32-bit ids. -/
theorem build_conforms (o : Options) (vertices : Array Point) (inputs : List Edge)
    {labels : List (List Int)} (hlabels : ∀ set ∈ labels, ∀ label ∈ set, 0 ≤ label) :
    (∃ e ∈ inputs, e.inRange vertices.size = false ∧ build o vertices inputs labels =
      .error (.error (.invariantViolation (.inputOutOfRange e vertices.size)))) ∨
    (∀ e ∈ inputs, e.inRange vertices.size) ∧ o.MissesSiblings inputs ∧
      build o vertices inputs labels = .error (.error .missingSiblings) ∨
    (∀ e ∈ inputs, e.inRange vertices.size) ∧ ¬o.MissesSiblings inputs ∧
      ∃ l, build o vertices inputs labels = .ok l ∧
        ∀ l', Relation.ReflTransGen Compacts l l' → l'.Conforms ∧
          (∀ scratch, ∃ l'' table, l'.compact scratch = .ok (l'', table)) ∧
          (vertices.size < 2 ^ 31 → inputs.length < 2 ^ 29 → l'.Fits) := by
  by_cases hrange : ∀ e ∈ inputs, e.inRange vertices.size
  · by_cases hmisses : o.MissesSiblings inputs
    · obtain ⟨c, -, -, hmissing, -⟩ := exists_build_eq o labels hrange
      exact .inr (.inl ⟨hrange, hmisses, hmissing hmisses⟩)
    · obtain ⟨l, c, hbuild, hbuilt⟩ := exists_isBuilt hrange hmisses hlabels
      refine .inr (.inr ⟨hrange, hmisses, l, hbuild, fun l' hcompacts => ?_⟩)
      have hclean := hbuilt.isClean.of_compacts hcompacts
      refine ⟨hclean.conforms, fun scratch => ?_, fun hvertices hlen => ?_⟩
      · obtain ⟨old, l'', table, hcompact, -⟩ := exists_compact hclean.valid scratch
        exact ⟨l'', table, hcompact⟩
      · exact hbuilt.isClean.fits_of_compacts (hbuilt.fits hvertices hlen) hcompacts
  · exact .inl (exists_build_eq_inputOutOfRange o labels hrange)

/-- An undirected edge snapped twice, a loop, and two vertices that nothing touches. -/
theorem build_conforms_doubledEdgeAndLoop :
    (∀ set ∈ [[4, 1], []], ∀ label ∈ set, (0 : Int) ≤ label) ∧
    ∃ l, build { edgeType := .undirected, siblings := .require }
        #[default, default, default, default, default] [⟨0, 2⟩, ⟨2, 0⟩, ⟨3, 3⟩] [[4, 1], []] = .ok l ∧
      ∀ l', Relation.ReflTransGen Compacts l l' → l'.Conforms ∧
        (∀ scratch, ∃ l'' table, l'.compact scratch = .ok (l'', table)) ∧ l'.Fits := by
  have hlabels : ∀ set ∈ [[4, 1], []], ∀ label ∈ set, (0 : Int) ≤ label := by decide
  have hpaired : ∀ e : Edge, ([⟨0, 2⟩, ⟨2, 0⟩, ⟨3, 3⟩] : List Edge).count e =
      ([⟨0, 2⟩, ⟨2, 0⟩, ⟨3, 3⟩] : List Edge).count e.reverse :=
    Edge.map_reverse_perm_iff.1 (by decide)
  refine ⟨hlabels, ?_⟩
  obtain ⟨e, he, houtside, -⟩ | ⟨-, ⟨-, v, w, -, hodd⟩, -⟩ | ⟨-, -, hbuilt⟩ :=
    build_conforms { edgeType := .undirected, siblings := .require }
      #[default, default, default, default, default] [⟨0, 2⟩, ⟨2, 0⟩, ⟨3, 3⟩] hlabels
  · exact absurd houtside (by revert e; decide)
  · change (_ + _) % 2 = 1 at hodd
    rw [hpaired ⟨v, w⟩, Edge.reverse, ← Nat.two_mul, Nat.mul_mod_right] at hodd
    cases hodd
  · obtain ⟨l, hbuild, hconforms⟩ := hbuilt
    refine ⟨l, hbuild, fun l' hcompacts => ?_⟩
    obtain ⟨hconforms, hcompact, hfits⟩ := hconforms l' hcompacts
    exact ⟨hconforms, hcompact, hfits (by decide) (by decide)⟩

end Layer

end SnapGraph
