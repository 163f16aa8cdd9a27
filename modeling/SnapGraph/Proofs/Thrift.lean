import Mathlib
import SnapGraph.Proofs.Polyline

/-! As few walks as possible. Where walks have been drawn until no edge remains, a closed walk has all
edges of its component, for each edge at one of its vertices is on it. So no open walk has an end in
that component, and its vertices are balanced. Conversely a component of balanced vertices has no ends
of open walks, and hence a closed walk. Any polylines through all edges have as many ends at every
vertex, and one polyline in every component. -/

namespace SnapGraph

namespace Graph

variable (g : Graph)

/-! ### Components -/

/-- Edges connect the vertices, in whatever direction they run. -/
def Linked : Int → Int → Prop := Relation.EqvGen fun x y => ∃ e < g.numEdges, g.edge e = ⟨x, y⟩

/-- As many edges leave the vertex as enter it, of undirected edges an even number. -/
def IsBalanced (v : Int) : Prop :=
  if g.options.isDirected then g.outDegree v = g.inDegree v else Even (g.outDegree v)

/-- All vertices of a component are balanced. -/
def IsBalancedAround (v : Int) : Prop := ∀ w, g.Linked v w → g.IsBalanced w

variable {g} {e : Nat} {l : List Nat} {u v x y : Int}

theorem Linked.symm (h : g.Linked x y) : g.Linked y x := Relation.EqvGen.symm _ _ h

theorem Linked.trans (h : g.Linked x y) (h' : g.Linked y v) : g.Linked x v :=
  Relation.EqvGen.trans _ _ _ h h'

theorem linked_edge (he : e < g.numEdges) : g.Linked (g.edge e).origin (g.edge e).dest :=
  .rel _ _ ⟨e, he, rfl⟩

theorem linked_of_touches (he : e < g.numEdges) (hx : (g.edge e).touches x) :
    g.Linked (g.edge e).origin x := by
  rcases Edge.touches_iff.1 hx with rfl | rfl
  · exact .refl _
  · exact linked_edge he

theorem IsBalancedAround.of_linked (h : g.IsBalancedAround x) (hlinked : g.Linked x y) :
    g.IsBalancedAround y := fun w hw => h w (hlinked.trans hw)

/-- A way stays in the component that it begins in. -/
theorem linked_of_joins (hjoins : Joins g.edge u l v) (hl : ∀ e ∈ l, e < g.numEdges)
    (hx : Visits g.edge l x) : g.Linked u x := by
  induction l generalizing u with
  | nil =>
      obtain ⟨e, he, -⟩ := hx
      exact absurd he List.not_mem_nil
  | cons e l ih =>
      obtain ⟨he, hl⟩ := List.forall_mem_cons.1 hl
      obtain ⟨rfl, hjoins⟩ := hjoins
      rcases visits_cons.1 hx with rfl | rfl | hx
      · exact .refl _
      · exact linked_edge he
      · exact (linked_edge he).trans (ih hjoins hl hx)

theorem linked_of_visits (hl : IsPolyline g.edge l) (hlt : ∀ e ∈ l, e < g.numEdges)
    (hx : Visits g.edge l x) (hy : Visits g.edge l y) : g.Linked x y := by
  obtain ⟨u, v, hjoins, -⟩ := hl.exists_joins
  exact (linked_of_joins hjoins hlt hx).symm.trans (linked_of_joins hjoins hlt hy)

end Graph

namespace Thread

variable {t : Thread} {u : Usage} {e : Nat} {l m : List Nat} {x y : Int}
  {lines others : List (List Nat)} {a : Int}

/-! ### Surplus -/

theorem surplus_eq_zero_iff (ht : t.Sound) : t.surplus x = 0 ↔ t.graph.IsBalanced x := by
  unfold surplus Graph.IsBalanced
  rw [ht.incidence, Graph.outDegree_incidence, Graph.inDegree_incidence, Nat.even_iff]
  show (if t.directed then _ else _) = _ ↔ if t.directed then _ else _
  by_cases hd : t.directed
  · rw [if_pos hd, if_pos hd]
    omega
  · rw [if_neg hd, if_neg hd]
    omega

/-- Where no walk is left to begin or end, walks have ends at a vertex exactly if it has a surplus. -/
theorem Meets.add_eq_zero_iff {begun ended : Nat} (h : t.Meets begun ended a 0) :
    begun + ended = 0 ↔ a = 0 := by
  by_cases hd : t.directed
  · simp only [Meets, hd, if_true] at h
    omega
  · simp only [Meets, hd, Bool.false_eq_true, if_false] at h
    omega

/-- No polylines of which as many begin and end agree with the surplus of a vertex have fewer ends
there. -/
theorem Meets.add_le {begun ended opened stopped : Nat} (h : t.Meets begun ended (t.surplus x) 0)
    (hagrees : t.Agrees (opened - stopped) (t.surplus x)) : begun + ended ≤ opened + stopped := by
  unfold surplus at *
  by_cases hd : t.directed
  · simp only [Meets, Agrees, hd, if_true] at h hagrees
    omega
  · simp only [Meets, Agrees, hd, Bool.false_eq_true, if_false] at h hagrees
    omega

/-! ### Lines through all edges -/

/-- Polylines use every edge, or one of every pair of siblings, once. -/
structure Covers (t : Thread) (lines : List (List Nat)) : Prop where
  polylines : ∀ l ∈ lines, IsPolyline t.graph.edge l
  perm : (t.both lines.flatten).Perm t.graph.edgeIds

theorem both_flatten_perm : (t.both lines.flatten).Perm (lines.map t.both).flatten := by
  induction lines with
  | nil =>
      rw [List.flatten_nil, both_nil]
      exact .refl _
  | cons l lines ih =>
      rw [List.flatten_cons, List.map_cons, List.flatten_cons]
      exact (both_append l lines.flatten).trans (ih.append_left _)

namespace Covers

variable (h : t.Covers lines)

include h

theorem lt_of_mem_flatten : ∀ e ∈ lines.flatten, e < t.graph.numEdges := fun _ he =>
  t.graph.mem_edgeIds.1 (h.perm.mem_iff.1 (subset_both _ he))

theorem lt (hl : l ∈ lines) : ∀ e ∈ l, e < t.graph.numEdges := fun e he =>
  h.lt_of_mem_flatten e (List.mem_flatten_of_mem hl he)

theorem mem_vertexIds (hl : l ∈ lines) (hx : Visits t.graph.edge l x) : x ∈ t.graph.vertexIds := by
  obtain ⟨e, he, hex⟩ := hx
  exact Graph.mem_vertexIds_of_touches (h.lt hl e he) hex

theorem exists_mem_both (he : e < t.graph.numEdges) : ∃ l ∈ lines, e ∈ t.both l := by
  have hmem := (both_flatten_perm.mem_iff.1 (h.perm.mem_iff.2 (t.graph.mem_edgeIds.2 he)))
  obtain ⟨_, hmap, he⟩ := List.mem_flatten.1 hmem
  obtain ⟨l, hl, rfl⟩ := List.mem_map.1 hmap
  exact ⟨l, hl, he⟩

/-- Polylines have no edges in common. -/
theorem pairwise_disjoint : lines.Pairwise fun l m => (t.both l).Disjoint (t.both m) := by
  have hnodup := (both_flatten_perm.nodup_iff.1 (h.perm.nodup_iff.2 t.graph.nodup_edgeIds))
  exact List.pairwise_map.1 (List.nodup_flatten.1 hnodup).2

theorem nodup : lines.Nodup := by
  refine h.pairwise_disjoint.imp_of_mem fun hl _ hdisjoint => ?_
  rintro rfl
  obtain ⟨e, he⟩ := List.exists_mem_of_ne_nil _ (h.polylines _ hl).ne_nil
  exact hdisjoint (subset_both _ he) (subset_both _ he)

theorem eq_of_mem_both (hl : l ∈ lines) (hm : m ∈ lines) (hel : e ∈ t.both l)
    (hem : e ∈ t.both m) : l = m := by
  have hsymm : Std.Symm fun l m : List Nat => (t.both l).Disjoint (t.both m) :=
    ⟨fun _ _ h => h.symm⟩
  by_contra hne
  exact h.pairwise_disjoint.forall hl hm hne hel hem

/-- At every vertex, lines begin and end as its surplus says. -/
theorem agrees (ht : t.Sound) (x : Int) :
    t.Agrees ((lines.countP (opensAt t.graph.edge x) : Int) - lines.countP (stopsAt t.graph.edge x))
      (t.surplus x) := by
  have hsub := countP_flatten_sub h.polylines x
  have hout : _ = t.graph.outDegree x :=
    h.perm.countP_eq fun e => (t.graph.edge e).origin == x
  have hin : _ = t.graph.inDegree x :=
    h.perm.countP_eq fun e => (t.graph.edge e).dest == x
  unfold surplus
  rw [ht.incidence, Graph.outDegree_incidence, Graph.inDegree_incidence]
  by_cases hd : t.directed
  · simp only [both, Agrees, hd, if_true] at hout hin ⊢
    omega
  · have hsiblings := countP_map_sibling ht (by simpa using hd) h.lt_of_mem_flatten x
    simp only [both, Agrees, hd, Bool.false_eq_true, if_false] at hout ⊢
    rw [List.countP_append, hsiblings] at hout
    omega

end Covers

/-! ### Closed walks and their components -/

theorem Draws.covers (h : t.Draws t.start lines u) (hremaining : u.remaining = 0) :
    t.Covers lines := ⟨h.polylines, h.spends.perm_edgeIds h.consistent hremaining⟩

namespace Drawn

/-- Of directed edges, as many walks begin and end at a vertex as its degrees differ by. -/
theorem counts_eq (ht : t.Sound) (h : t.Drawn lines u) (hd : t.directed)
    (hx : x ∈ t.graph.vertexIds) :
    lines.countP (opensAt t.graph.edge x) = t.graph.outDegree x - t.graph.inDegree x ∧
      lines.countP (stopsAt t.graph.edge x) = t.graph.inDegree x - t.graph.outDegree x := by
  have hmeets := h.meets x (Graph.mem_vertexIds.1 hx)
  rw [surplus, ht.incidence, Graph.outDegree_incidence, Graph.inDegree_incidence] at hmeets
  simp only [Meets, hd, if_true] at hmeets
  omega

section Component

variable (ht : t.Sound) (h : t.Drawn lines u) (hcovers : t.Covers lines)

include ht h hcovers

theorem ends_eq_zero_iff (hx : x ∈ t.graph.vertexIds) :
    lines.countP (endsAt t.graph.edge x) = 0 ↔ t.graph.IsBalanced x := by
  rw [countP_endsAt hcovers.polylines, (h.meets x (Graph.mem_vertexIds.1 hx)).add_eq_zero_iff,
    surplus_eq_zero_iff ht]

/-- Of undirected edges, a walk has an end at each vertex of odd degree. -/
theorem ends_eq (hd : t.directed = false) (hx : x ∈ t.graph.vertexIds) :
    lines.countP (endsAt t.graph.edge x) = t.graph.outDegree x % 2 := by
  have hmeets := h.meets x (Graph.mem_vertexIds.1 hx)
  rw [surplus, ht.incidence, Graph.outDegree_incidence] at hmeets
  simp only [Meets, hd, Bool.false_eq_true, if_false] at hmeets
  rw [countP_endsAt hcovers.polylines]
  omega

/-- A closed walk has all vertices of its component. -/
theorem visits_iff (hl : l ∈ lines) (hcloses : closes t.graph.edge l) (hxy : t.graph.Linked x y) :
    Visits t.graph.edge l x ↔ Visits t.graph.edge l y := by
  induction hxy with
  | rel x y hxy =>
      obtain ⟨e, he, hedge⟩ := hxy
      have hx : (t.graph.edge e).touches x := Edge.touches_iff.2 (.inl (by rw [hedge]))
      have hy : (t.graph.edge e).touches y := Edge.touches_iff.2 (.inr (by rw [hedge]))
      constructor
      · intro hvisits
        exact visits_of_mem_both ht (hcovers.lt hl) (h.whole l hl hcloses x hvisits e he hx) hy
      · intro hvisits
        exact visits_of_mem_both ht (hcovers.lt hl) (h.whole l hl hcloses y hvisits e he hy) hx
  | refl x => exact Iff.rfl
  | symm x y _ ih => exact ih.symm
  | trans x y z _ _ ihxy ihyz => exact ihxy.trans ihyz

/-- A closed walk has all edges of its component. -/
theorem mem_both_of_linked (hl : l ∈ lines) (hcloses : closes t.graph.edge l)
    (hx : Visits t.graph.edge l x) (he : e < t.graph.numEdges)
    (hlinked : t.graph.Linked x (t.graph.edge e).origin) : e ∈ t.both l := by
  have hvisits := (h.visits_iff ht hcovers hl hcloses hlinked).1 hx
  exact h.whole l hl hcloses _ hvisits e he (Edge.touches_iff.2 (.inl rfl))

/-- All vertices of the component of a closed walk are balanced: a walk with an end there would have
an edge in common with it. -/
theorem isBalancedAround (hl : l ∈ lines) (hcloses : closes t.graph.edge l)
    (hx : Visits t.graph.edge l x) : t.graph.IsBalancedAround x := by
  intro y hxy
  have hy := (h.visits_iff ht hcovers hl hcloses hxy).1 hx
  refine (h.ends_eq_zero_iff ht hcovers (hcovers.mem_vertexIds hl hy)).1 ?_
  rw [List.countP_eq_zero]
  intro m hm hends
  obtain ⟨hopen, f, hf, hfy⟩ := (hcovers.polylines m hm).of_endsAt hends
  have hmem := h.whole l hl hcloses y hy f (hcovers.lt hm f hf) hfy
  have hlm := hcovers.eq_of_mem_both hl hm hmem (subset_both m hf)
  exact hopen (hlm ▸ hcloses)

/-- A walk in a component of balanced vertices is closed. -/
theorem closes_of_isBalancedAround (hl : l ∈ lines) (hx : Visits t.graph.edge l x)
    (hbalanced : t.graph.IsBalancedAround x) : closes t.graph.edge l := by
  by_contra hopen
  have hpolyline := hcovers.polylines l hl
  obtain ⟨a, b, hjoins, hends⟩ := hpolyline.exists_joins
  obtain ⟨ha, -⟩ := hjoins.visits hpolyline.ne_nil
  have hlinked := Graph.linked_of_visits hpolyline (hcovers.lt hl) hx ha
  have hzero := (h.ends_eq_zero_iff ht hcovers (hcovers.mem_vertexIds hl ha)).2
    (hbalanced a hlinked)
  refine List.countP_eq_zero.1 hzero l hl ((endsAt_iff hends).2 ⟨fun hab => ?_, .inl rfl⟩)
  exact hopen ((closes_iff hends).2 hab)

/-- There is one closed walk in every component of balanced vertices. -/
theorem existsUnique_closes (he : e < t.graph.numEdges)
    (hbalanced : t.graph.IsBalancedAround (t.graph.edge e).origin) :
    ∃! l, l ∈ lines ∧ closes t.graph.edge l ∧
      ∃ f ∈ l, t.graph.Linked (t.graph.edge e).origin (t.graph.edge f).origin := by
  obtain ⟨l, hl, hmem⟩ := hcovers.exists_mem_both he
  have hvisits := visits_of_mem_both ht (hcovers.lt hl) hmem (Edge.touches_iff.2 (.inl rfl))
  have hcloses := h.closes_of_isBalancedAround ht hcovers hl hvisits hbalanced
  obtain ⟨f, hf, hfx⟩ := hvisits
  refine ⟨l, ⟨hl, hcloses, f, hf, ?_⟩, ?_⟩
  · exact (Graph.linked_of_touches (hcovers.lt hl f hf) hfx).symm
  · rintro m ⟨hm, hmcloses, f', hf', hlinked⟩
    have hvisits' : Visits t.graph.edge m (t.graph.edge f').origin :=
      ⟨f', hf', Edge.touches_iff.2 (.inl rfl)⟩
    exact hcovers.eq_of_mem_both hm hl
      (h.mem_both_of_linked ht hcovers hm hmcloses hvisits' he hlinked.symm) hmem

/-! ### The least number -/

section Least

variable (hothers : t.Covers others) {settled : List Nat → Bool}
  (hsettled : ∀ m ∈ others, ∀ x, Visits t.graph.edge m x →
    (settled m ↔ t.graph.IsBalancedAround x))

include hothers hsettled

/-- Other polylines have no fewer ends at any vertex. -/
theorem openEnds_subperm : (lines.flatMap (openEnds t.graph.edge)).Subperm
    ((others.filter fun m => !settled m).flatMap (openEnds t.graph.edge)) := by
  refine List.subperm_ext_iff.2 fun x hx => ?_
  have hfilter : ∀ m ∈ others.filter fun m => !settled m, IsPolyline t.graph.edge m := fun m hm =>
    hothers.polylines m (List.mem_of_mem_filter hm)
  have hpos := List.count_pos_iff.2 hx
  rw [count_flatMap_openEnds hcovers.polylines] at hpos ⊢
  obtain ⟨l, hl, hends⟩ := List.countP_pos_iff.1 hpos
  have hvertex := hcovers.mem_vertexIds hl ((hcovers.polylines l hl).of_endsAt hends).2
  have hunbalanced : ¬t.graph.IsBalancedAround x := by
    intro hbalanced
    have hzero := (h.ends_eq_zero_iff ht hcovers hvertex).2 (hbalanced x (.refl x))
    omega
  have hcount : (others.filter fun m => !settled m).countP (endsAt t.graph.edge x) =
      others.countP (endsAt t.graph.edge x) := by
    rw [List.countP_filter]
    refine List.countP_congr fun m hm => ?_
    rw [Bool.and_eq_true, and_iff_left_iff_imp]
    intro hends
    have hvisits := ((hothers.polylines m hm).of_endsAt hends).2
    rw [Bool.not_eq_true', ← Bool.not_eq_true, hsettled m hm x hvisits]
    exact hunbalanced
  rw [count_flatMap_openEnds hfilter, hcount, countP_endsAt hcovers.polylines,
    countP_endsAt hothers.polylines]
  exact (h.meets x (Graph.mem_vertexIds.1 hvertex)).add_le (hothers.agrees ht x)

theorem countP_open_le : (lines.countP fun l => !closes t.graph.edge l) ≤
    (others.filter fun m => !settled m).length := by
  have hfilter : ∀ m ∈ others.filter fun m => !settled m, IsPolyline t.graph.edge m := fun m hm =>
    hothers.polylines m (List.mem_of_mem_filter hm)
  have hlength := (h.openEnds_subperm ht hcovers hothers hsettled).length_le
  rw [length_flatMap_openEnds hcovers.polylines, length_flatMap_openEnds hfilter] at hlength
  have hopen := List.countP_le_length (p := fun m => !closes t.graph.edge m)
    (l := others.filter fun m => !settled m)
  omega

/-- Other polylines have one in every component that has a closed walk. -/
theorem countP_closes_le : lines.countP (closes t.graph.edge) ≤ (others.filter settled).length := by
  have hexists : ∀ l ∈ lines.filter (closes t.graph.edge), ∃ m ∈ others.filter settled,
      ∃ x, Visits t.graph.edge l x ∧ Visits t.graph.edge m x := by
    intro l hl
    obtain ⟨hl, hcloses⟩ := List.mem_filter.1 hl
    obtain ⟨e, he⟩ := List.exists_mem_of_ne_nil _ (hcovers.polylines l hl).ne_nil
    have horigin : (t.graph.edge e).touches (t.graph.edge e).origin :=
      Edge.touches_iff.2 (.inl rfl)
    obtain ⟨m, hm, hmem⟩ := hothers.exists_mem_both (hcovers.lt hl e he)
    have hvisits := visits_of_mem_both ht (hothers.lt hm) hmem horigin
    refine ⟨m, List.mem_filter.2 ⟨hm, (hsettled m hm _ hvisits).2 ?_⟩, _, ⟨e, he, horigin⟩, hvisits⟩
    exact h.isBalancedAround ht hcovers hl hcloses ⟨e, he, horigin⟩
  choose! partner hmem point hpoint hpoint' using hexists
  have hinj : ∀ l ∈ lines.filter (closes t.graph.edge), ∀ m ∈ lines.filter (closes t.graph.edge),
      partner l = partner m → l = m := by
    intro l hl m hm heq
    have hsame := hpoint' m hm
    rw [← heq] at hsame
    have hpartner := List.mem_of_mem_filter (hmem l hl)
    have hlinked := Graph.linked_of_visits (hothers.polylines _ hpartner) (hothers.lt hpartner)
      (hpoint' l hl) hsame
    obtain ⟨hl', hcloses⟩ := List.mem_filter.1 hl
    obtain ⟨hm', -⟩ := List.mem_filter.1 hm
    have hvisits := (h.visits_iff ht hcovers hl' hcloses hlinked).1 (hpoint l hl)
    -- The closed walk `l` visits a point of `m`, so an edge of `m` there is on both.
    obtain ⟨f, hf, hfx⟩ := hpoint m hm
    have hboth := h.whole l hl' hcloses _ hvisits f (hcovers.lt hm' f hf) hfx
    exact hcovers.eq_of_mem_both hl' hm' hboth (subset_both m hf)
  have hnodup : ((lines.filter (closes t.graph.edge)).map partner).Nodup :=
    (hcovers.nodup.filter _).map_on hinj
  have hsubset : (lines.filter (closes t.graph.edge)).map partner ⊆ others.filter settled := by
    intro m hm
    obtain ⟨l, hl, rfl⟩ := List.mem_map.1 hm
    exact hmem l hl
  have hlength := (List.subperm_of_subset hnodup hsubset).length_le
  rwa [List.length_map, ← List.countP_eq_length_filter] at hlength

end Least

/-- No polylines through all edges are fewer. -/
theorem length_le (hothers : t.Covers others) : lines.length ≤ others.length := by
  classical
  let settled : List Nat → Bool := fun m =>
    decide (∃ x, Visits t.graph.edge m x ∧ t.graph.IsBalancedAround x)
  have hsettled : ∀ m ∈ others, ∀ x, Visits t.graph.edge m x →
      (settled m ↔ t.graph.IsBalancedAround x) := by
    intro m hm x hx
    rw [decide_eq_true_iff]
    constructor
    · rintro ⟨y, hy, hbalanced⟩
      exact hbalanced.of_linked (Graph.linked_of_visits (hothers.polylines m hm) (hothers.lt hm) hy hx)
    · intro hbalanced
      exact ⟨x, hx, hbalanced⟩
  have hopen := h.countP_open_le ht hcovers hothers hsettled
  have hclosed := h.countP_closes_le ht hcovers hothers hsettled
  have hlines := List.length_eq_countP_add_countP (closes t.graph.edge) (l := lines)
  have hfilter := List.length_eq_length_filter_add (l := others) settled
  simp only [Bool.not_eq_true, Bool.decide_eq_false] at hlines
  omega

end Component

end Drawn

end Thread

namespace Graph

variable (g : Graph)

/-- What walks promise: they thread the graph, open ones begin and end only where degrees demand it,
closed ones are the components of balanced vertices, and no other polylines are fewer. -/
structure IsThrifty (lines : List (List Nat)) : Prop where
  threaded : g.AreThreaded lines
  opens : g.options.isDirected → ∀ v ∈ g.vertexIds,
    lines.countP (opensAt g.edge v) = g.outDegree v - g.inDegree v
  stops : g.options.isDirected → ∀ v ∈ g.vertexIds,
    lines.countP (stopsAt g.edge v) = g.inDegree v - g.outDegree v
  odd : g.options.isUndirected → ∀ v ∈ g.vertexIds,
    lines.countP (endsAt g.edge v) = g.outDegree v % 2
  balanced : ∀ l ∈ lines, closes g.edge l → ∀ e ∈ l, g.IsBalancedAround (g.edge e).origin
  whole : g.options.isDirected → ∀ l ∈ lines, closes g.edge l → ∀ e ∈ l, ∀ f < g.numEdges,
    g.Linked (g.edge e).origin (g.edge f).origin → f ∈ l
  single : ∀ e < g.numEdges, g.IsBalancedAround (g.edge e).origin →
    ∃! l, l ∈ lines ∧ closes g.edge l ∧ ∃ f ∈ l, g.Linked (g.edge e).origin (g.edge f).origin
  nodup : lines.Nodup
  least : ∀ others, g.AreThreaded others → lines.length ≤ others.length

variable {g} {lines lines' : List (List Nat)} {u : Usage}

theorem getD_of_getElem?_map_ofNat {ids : List Nat} {e s : Nat}
    (h : (ids.map Int.ofNat)[e]? = some (Int.ofNat s)) : ids.getD e 0 = s := by
  rw [List.getElem?_map, Option.map_eq_some_iff] at h
  obtain ⟨s', hs', heq⟩ := h
  rw [List.getD_eq_getElem?_getD, hs']
  exact Int.ofNat.inj heq

theorem AreThreaded.covers {t : Thread} (h : t.graph.AreThreaded lines) (ht : t.Sound)
    (hsibling : t.graph.options.isUndirected → t.sibling = fun e => t.graph.inEdgeIds.getD e 0)
    (hdegenerates : t.graph.options.degenerates = .discard) : t.Covers lines := by
  refine ⟨h.polylines, ?_⟩
  have hlt : ∀ e ∈ lines.flatten, e < t.graph.numEdges := by
    intro e he
    obtain ⟨l, hl, he⟩ := List.mem_flatten.1 he
    exact h.lt l hl e he
  by_cases hd : t.directed
  · rw [Thread.both, if_pos hd]
    exact h.directed hd
  · have hd : t.directed = false := by simpa using hd
    have hundirected : t.graph.options.isUndirected := (Options.isUndirected_iff _).2 hd
    have hpairs := ht.pairs hd
    obtain ⟨siblings, hmap, hcount⟩ := h.undirected hundirected
    cases hmap.symm.trans (t.graph.siblingMap_undirected hundirected hdegenerates)
    rw [Thread.both, if_neg (by simp [hd]), List.perm_iff_count]
    intro e
    by_cases he : e < t.graph.numEdges
    · obtain ⟨s, hs, -, -, hone⟩ := hcount e he
      have hs : t.sibling e = s := by
        rw [hsibling hundirected]
        exact getD_of_getElem?_map_ofNat hs
      rw [List.count_append, hpairs.count_map hlt he, hs, hone]
      exact (List.count_eq_one_of_mem t.graph.nodup_edgeIds (t.graph.mem_edgeIds.2 he)).symm
    · rw [List.count_eq_zero.2 fun hmem => he (t.graph.mem_edgeIds.1 hmem), List.count_eq_zero]
      intro hmem
      rcases List.mem_append.1 hmem with hmem | hmem
      · exact he (hlt e hmem)
      · obtain ⟨f, hf, rfl⟩ := List.mem_map.1 hmem
        exact he (hpairs.lt f (hlt f hf))

/-- The order of the walks does not matter. -/
theorem IsThrifty.perm (h : g.IsThrifty lines) (hperm : lines.Perm lines')
    (hthreaded : g.AreThreaded lines') : g.IsThrifty lines' where
  threaded := hthreaded
  opens hd v hv := hperm.countP_eq _ ▸ h.opens hd v hv
  stops hd v hv := hperm.countP_eq _ ▸ h.stops hd v hv
  odd hd v hv := hperm.countP_eq _ ▸ h.odd hd v hv
  balanced l hl := h.balanced l (hperm.mem_iff.2 hl)
  whole hd l hl := h.whole hd l (hperm.mem_iff.2 hl)
  single e he hbalanced := by
    simp only [← hperm.mem_iff]
    exact h.single e he hbalanced
  nodup := hperm.nodup_iff.1 h.nodup
  least others hothers := hperm.length_eq ▸ h.least others hothers

theorem isThrifty_of_drawn {t : Thread} (ht : t.Sound)
    (hsibling : t.graph.options.isUndirected → t.sibling = fun e => t.graph.inEdgeIds.getD e 0)
    (hdegenerates : t.graph.options.degenerates = .discard) (h : t.Drawn lines u)
    (hremaining : u.remaining = 0) : t.graph.IsThrifty lines := by
  have hcovers := h.draws.covers hremaining
  refine ⟨areThreaded ht rfl hsibling hdegenerates hcovers.polylines hcovers.perm,
    fun hd v hv => (h.counts_eq ht hd hv).1, fun hd v hv => (h.counts_eq ht hd hv).2,
    fun hundirected v hv => ?_, fun l hl hcloses e he => ?_,
    fun hd l hl hcloses e he f hf hlinked => ?_,
    fun e he => h.existsUnique_closes ht hcovers he, hcovers.nodup,
    fun others hothers => h.length_le ht hcovers (hothers.covers ht hsibling hdegenerates)⟩
  · exact h.ends_eq ht hcovers ((Options.isUndirected_iff _).1 hundirected) hv
  · exact h.isBalancedAround ht hcovers hl hcloses ⟨e, he, Edge.touches_iff.2 (.inl rfl)⟩
  · have hd : t.directed := hd
    have hmem := h.mem_both_of_linked ht hcovers hl hcloses
      ⟨e, he, Edge.touches_iff.2 (.inl rfl)⟩ hf hlinked
    rwa [Thread.both, if_pos hd] at hmem

/-- Walks through a graph without degenerate edges, each of whose undirected edges occurs as often as
its reverse. -/
theorem polylines_isThrifty (g : Graph) (hinputs : g.KnowsInputs)
    (hdegenerates : g.options.degenerates = .discard)
    (hsiblings : g.options.siblings = .discard ∨ g.options.siblings = .keep)
    (hproper : ∀ e < g.numEdges, (g.edge e).isDegenerate = false)
    (hpaired : g.options.isUndirected →
      ∀ e : Edge, g.edges.toList.count e = g.edges.toList.count e.reverse) :
    ∃ lines, g.polylines .walk = .ok lines ∧ g.IsThrifty lines := by
  obtain ⟨t, hthread, ht, rfl, hsibling⟩ := g.exists_thread hinputs hdegenerates hproper hpaired
  obtain ⟨chains, u, hwalks, hdrawn, hremaining⟩ := Thread.exists_drawn ht
  have hadmitted : ¬(t.graph.options.degenerates ≠ .discard ∨
      t.graph.options.siblings.pairsUp = true) := by
    rintro (h | h)
    · exact h hdegenerates
    · rcases hsiblings with hs | hs
      all_goals
        rw [hs] at h
        cases h
  have hthrifty := isThrifty_of_drawn ht hsibling hdegenerates hdrawn hremaining
  have hcovers := hdrawn.draws.covers hremaining
  have horder := orderChains_perm t.key chains
  refine ⟨orderChains t.key chains, ?_, hthrifty.perm horder.symm ?_⟩
  · rw [polylines, if_neg hadmitted, hthread]
    show (t.walks >>= _) = _
    rw [hwalks]
    rfl
  · exact areThreaded ht rfl hsibling hdegenerates
      (fun l hl => hcovers.polylines l (horder.mem_iff.1 hl))
      ((Thread.both_perm horder.flatten).trans hcovers.perm)

/-- An edge, and a triangle apart from it. -/
def edgeAndTriangle : Graph where
  options := { edgeType := .undirected, degenerates := .discard, siblings := .discard }
  vertices := #[default, default, default, default, default]
  edges := #[⟨0, 1⟩, ⟨1, 0⟩, ⟨2, 3⟩, ⟨2, 4⟩, ⟨3, 2⟩, ⟨3, 4⟩, ⟨4, 2⟩, ⟨4, 3⟩]
  inputHandles := #[0, 0, 1, 2, 1, 3, 2, 3]
  inputSets := .empty
  labelHandles := #[]
  labelSets := .empty
  valid := rfl

theorem polylines_isThrifty_edgeAndTriangle :
    ∃ lines, edgeAndTriangle.polylines .walk = .ok lines ∧ edgeAndTriangle.IsThrifty lines :=
  polylines_isThrifty edgeAndTriangle (knowsInputs_of_singles (by decide)) rfl (.inl rfl) (by decide)
    fun _ => edgeAndTriangle.map_reverse_perm_iff.1 (by decide)

end Graph

end SnapGraph
