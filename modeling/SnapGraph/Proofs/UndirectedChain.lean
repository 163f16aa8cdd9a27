import Mathlib
import SnapGraph.Proofs.Maximal
import SnapGraph.Proofs.Verbatim

/-! An undirected chain of different vertices. At each of its inner vertices a path has one way on, so the
chain is one path, from whichever end it is begun. Paths begin in input order, and there the reversed edges,
which no input edge was snapped to, come first: it is begun at its last vertex. -/

namespace SnapGraph

/-! ### One way on -/

namespace Thread

variable {t : Thread} {u : Usage} {e f : Nat} {l : List Nat} {v w : Int}

section Undirected

variable (ht : t.Sound) (hd : t.directed = false)

include ht hd

/-- An edge that enters an interior vertex leaves one other edge to go on by, once it is used. -/
theorem filter_outIds_eq_singleton (he : e < t.graph.numEdges) (hinterior : t.isInterior (t.dest e))
    (hf : f < t.graph.numEdges) (horigin : t.origin f = t.dest e) (hfree : u.isFree f)
    (hused : ¬u.isFree (t.sibling e)) :
    (t.incidence.outIds (t.dest e)).filter u.isFree = [f] := by
  have hpairs := ht.pairs hd
  have hdegree : (t.incidence.outIds (t.dest e)).length = 2 := by
    rw [isInterior, if_neg (by simp [hd]), beq_iff_eq] at hinterior
    rw [← hinterior, Incidence.outDegree_eq_length]
  have hmem : ∀ x, x ∈ t.incidence.outIds (t.dest e) ↔
      x < t.graph.numEdges ∧ t.origin x = t.dest e := by
    intro x
    rw [ht.incidence, Graph.outIds_incidence, List.mem_filter, Graph.mem_edgeIds, beq_iff_eq]
    rfl
  have hsibling : t.origin (t.sibling e) = t.dest e := by
    rw [origin, hpairs.edge e he]
    rfl
  have hne : t.sibling e ≠ f := fun hsame => hused (hsame ▸ hfree)
  have hsub : [t.sibling e, f].Subperm (t.incidence.outIds (t.dest e)) := by
    refine List.subperm_of_subset (by simpa using hne) fun x hx => ?_
    rcases List.mem_pair.1 hx with rfl | rfl
    · exact (hmem _).2 ⟨hpairs.lt e he, hsibling⟩
    · exact (hmem _).2 ⟨hf, horigin⟩
  have hperm := (hsub.perm_of_length_le (by rw [hdegree]; rfl)).filter u.isFree
  rw [List.filter_cons_of_neg hused, List.filter_cons_of_pos hfree, List.filter_nil] at hperm
  exact (List.singleton_perm.1 hperm).symm

/-- From its first edge on, a path follows free edges through interior vertices. -/
theorem exists_path_eq (start : Int) (hu : t.Consistent u) (hfree : ∀ f ∈ e :: l, u.isFree f)
    (hnodup : (t.both (e :: l)).Nodup) (hjoins : Joins t.graph.edge v (e :: l) w)
    (hinner : ∀ x ∈ inner t.graph.edge (e :: l), t.isInterior x ∧ x ≠ start)
    (hw : ¬t.isInterior w) :
    ∃ u', t.path start u e = .ok (e :: l, u') ∧ t.Consistent u' ∧ t.Spends u (e :: l) u' := by
  induction l generalizing u e v with
  | nil =>
      obtain ⟨u', hmark, hu', hspends, -⟩ := exists_mark ht hu (hfree e List.mem_cons_self)
      obtain rfl : t.dest e = w := hjoins.2
      refine ⟨u', ?_, hu', hspends⟩
      rw [path_eq, hmark]
      exact if_pos (by simp [hw])
  | cons f l ih =>
      obtain ⟨u₁, hmark, hu₁, hspends, -⟩ := exists_mark ht hu (hfree e List.mem_cons_self)
      have hboth := (both_append [e] (f :: l)).nodup_iff.1 hnodup
      obtain ⟨-, hrest, hdisjoint⟩ := List.nodup_append.1 hboth
      have hfree₁ : ∀ x ∈ f :: l, u₁.isFree x := by
        intro x hx
        have hxe := hfree x (List.mem_cons_of_mem e hx)
        rcases List.mem_append.1 (hspends.mem_iff.1 (mem_freeIds.2 ⟨hu.lt hxe, hxe⟩)) with hx' | hx'
        · exact absurd rfl (hdisjoint x hx' x (subset_both _ hx))
        · exact (mem_freeIds.1 hx').2
      have hused : ¬u₁.isFree (t.sibling e) := by
        rw [hu₁.paired hd e (hu.lt (hfree e List.mem_cons_self))]
        exact hspends.not_isFree List.mem_cons_self
      obtain ⟨hdest, hinner⟩ := List.forall_mem_cons.1 hinner
      obtain ⟨hinterior, hstart⟩ : t.isInterior (t.dest e) ∧ t.dest e ≠ start := hdest
      obtain ⟨u', hpath, hu', hspends'⟩ := ih hu₁ hfree₁ hrest hjoins.2 hinner
      refine ⟨u', ?_, hu', hspends.trans hspends'⟩
      have hnext := filter_outIds_eq_singleton ht hd (hu.lt (hfree e List.mem_cons_self)) hinterior
        (hu₁.lt (hfree₁ f List.mem_cons_self)) hjoins.2.1 (hfree₁ f List.mem_cons_self) hused
      rw [path_eq, hmark]
      show (if _ then _ else _) = _
      rw [if_neg (by simpa [hinterior] using hstart), hnext]
      show (t.path start u₁ f).map _ = _
      rw [hpath]
      rfl

end Undirected

/-! ### One chain -/

/-- Edges that leave interior vertices begin no open path. -/
theorem openPaths_append (h : ∀ e ∈ l, t.isInterior (t.origin e)) (edges : List Nat) :
    t.openPaths u (l ++ edges) = t.openPaths u edges := by
  induction l with
  | nil => rfl
  | cons e l ih =>
      obtain ⟨he, hl⟩ := List.forall_mem_cons.1 h
      rw [List.cons_append, openPaths, if_neg (by simp [he]), ih hl]

theorem openPaths_of_remaining_eq_zero (hu : t.Consistent u) (h : u.remaining = 0)
    (edges : List Nat) : t.openPaths u edges = .ok ([], u) := by
  induction edges with
  | nil => rfl
  | cons e edges ih => rw [openPaths, if_neg (by simp [hu.not_isFree h]), ih]

theorem closedPaths_of_remaining_eq_zero (h : u.remaining = 0) (edges : List Nat) :
    t.closedPaths u edges = .ok ([], u) := by
  cases edges with
  | nil => rfl
  | cons e edges => rw [closedPaths, if_pos h]

/-- Edges that make up an undirected graph and lead through interior vertices between two others are the
only path, if they begin with the edge that comes first in input order and leaves no interior vertex. -/
theorem paths_eq_singleton (ht : t.Sound) (hd : t.directed = false)
    (hall : (t.both (e :: l)).Perm t.graph.edgeIds) (hjoins : Joins t.graph.edge v (e :: l) w)
    (hinner : ∀ x ∈ inner t.graph.edge (e :: l), t.isInterior x) (hv : ¬t.isInterior v)
    (hw : ¬t.isInterior w) {before after : List Nat} (horder : t.inputOrder = before ++ e :: after)
    (hbefore : ∀ f ∈ before, t.isInterior (t.origin f)) : t.paths = .ok [e :: l] := by
  have hfree : ∀ f ∈ e :: l, t.start.isFree f := by
    intro f hf
    rw [isFree_start, decide_eq_true_eq]
    exact t.graph.mem_edgeIds.1 (hall.mem_iff.1 (subset_both _ hf))
  obtain rfl : t.origin e = v := hjoins.1
  obtain ⟨u, hpath, hu, hspends⟩ := exists_path_eq ht hd (t.origin e) (consistent_start ht) hfree
    (hall.nodup_iff.2 t.graph.nodup_edgeIds) hjoins
    (fun x hx => ⟨hinner x hx, fun hstart => hv (hstart ▸ hinner x hx)⟩) hw
  have hremaining : u.remaining = 0 := by
    have hlen := hspends.length_eq
    rw [freeIds_start, List.length_append, hall.length_eq] at hlen
    refine hu.remaining_eq_zero fun f hf hused => ?_
    have hmem := mem_freeIds.2 ⟨hf, hused⟩
    rw [List.length_eq_zero_iff.1 (Nat.add_eq_left.1 hlen.symm)] at hmem
    cases hmem
  have hbegins : (t.start.isFree e && !t.isInterior (t.origin e)) = true := by
    simp [hfree e List.mem_cons_self, hv]
  rw [paths, horder, openPaths_append hbefore, openPaths, if_pos hbegins, hpath]
  show ((t.openPaths u after >>= _) >>= _) = _
  rw [openPaths_of_remaining_eq_zero hu hremaining]
  show (t.closedPaths u _ >>= _) = _
  rw [closedPaths_of_remaining_eq_zero hremaining]
  exact if_pos hremaining

/-- Where the edges of an undirected graph lead along different vertices, those between the two ends are
the interior ones. -/
theorem isInterior_iff_mem_inner (ht : t.Sound) (hd : t.directed = false)
    (hall : (t.both l).Perm t.graph.edgeIds) (hl : l ≠ []) (hjoins : Joins t.graph.edge v l w)
    (hnodup : (vertices t.graph.edge l).Nodup) (x : Int) :
    t.isInterior x ↔ x ∈ inner t.graph.edge l := by
  have hcovers : t.Covers [l] := by
    refine ⟨fun m hm => ?_, by rwa [List.flatten_singleton]⟩
    rw [List.mem_singleton.1 hm]
    exact ⟨hl, hjoins.isChain⟩
  have hdegree := hcovers.incidences_flatten ht x
  have hcount := List.nodup_iff_count_le_one.1 hnodup x
  rw [List.flatten_singleton, if_neg (by simp [hd]), hjoins.incidences_eq hl] at hdegree
  rw [hjoins.count_vertices hl] at hcount
  rw [isInterior_iff ht, Graph.IsInterior, if_neg (by simpa [directed] using hd), ← hdegree,
    ← List.count_pos_iff]
  omega

end Thread

/-! ### Steps through different vertices -/

theorem steps_concat_concat (path : List Int) (v w : Int) :
    steps (path ++ [v] ++ [w]) = steps (path ++ [v]) ++ [⟨v, w⟩] := by
  induction path with
  | nil => rfl
  | cons u path ih =>
      cases path with
      | nil => rfl
      | cons x path => exact congrArg (List.cons _) ih

/-- The way back takes the steps of the way there in reverse. -/
theorem steps_reverse (path : List Int) :
    steps path.reverse = ((steps path).map Edge.reverse).reverse := by
  induction path with
  | nil => rfl
  | cons v path ih =>
      cases path with
      | nil => rfl
      | cons w path =>
          have hsteps : steps (v :: w :: path) = ⟨v, w⟩ :: steps (w :: path) := rfl
          rw [hsteps, List.map_cons, List.reverse_cons (a := Edge.reverse _), ← ih,
            List.reverse_cons, List.reverse_cons, steps_concat_concat]
          rfl

theorem mem_steps_reverse {path : List Int} {e : Edge} :
    e ∈ steps path.reverse ↔ e.reverse ∈ steps path := by
  rw [steps_reverse, List.mem_reverse, List.mem_map]
  constructor
  · rintro ⟨f, hf, rfl⟩
    rwa [Edge.reverse_reverse]
  · exact fun he => ⟨_, he, Edge.reverse_reverse e⟩

section Nodup

variable {path : List Int} (hnodup : path.Nodup)

include hnodup

theorem nodup_steps : (steps path).Nodup := by
  induction path with
  | nil => exact List.nodup_nil
  | cons v path ih =>
      obtain ⟨hv, hpath⟩ := List.nodup_cons.1 hnodup
      cases path with
      | nil => exact List.nodup_nil
      | cons w path =>
          refine List.nodup_cons.2 ⟨fun hmem => hv (mem_of_mem_steps hmem).1, ih hpath⟩

/-- No step is taken in both directions. -/
theorem reverse_not_mem_steps {e : Edge} (he : e ∈ steps path) : e.reverse ∉ steps path := by
  induction path with
  | nil => cases he
  | cons v path ih =>
      obtain ⟨hv, hpath⟩ := List.nodup_cons.1 hnodup
      cases path with
      | nil => cases he
      | cons w path =>
          have hdest : ∀ f ∈ steps (w :: path), f.dest ≠ v := fun f hf hfv =>
            hv (hfv ▸ (mem_of_mem_steps hf).2)
          intro hreverse
          rcases List.mem_cons.1 he with rfl | he
          · rcases List.mem_cons.1 hreverse with hsame | hreverse
            · have hwv : w = v := congrArg Edge.origin hsame
              exact hv (hwv ▸ List.mem_cons_self)
            · exact hdest _ hreverse rfl
          · rcases List.mem_cons.1 hreverse with hsame | hreverse
            · exact hdest e he (congrArg Edge.origin hsame)
            · exact ih hpath he hreverse

theorem isDegenerate_of_mem_steps {e : Edge} (he : e ∈ steps path) : e.isDegenerate = false := by
  rw [← Bool.not_eq_true, Edge.isDegenerate_iff]
  intro hsame
  have hreverse : e.reverse = e := Edge.ext_iff'.2 ⟨hsame.symm, hsame⟩
  exact reverse_not_mem_steps hnodup he (hreverse.symm ▸ he)

end Nodup

/-- Edges that are the steps of a path lead along it. -/
theorem exists_joins_of_map_eq_steps {edge : Nat → Edge} {l : List Nat} {v : Int} {path : List Int}
    (h : l.map edge = steps (v :: path)) :
    ∃ w, Joins edge v l w ∧ l.map (fun e => (edge e).dest) = path := by
  induction path generalizing l v with
  | nil =>
      rw [List.map_eq_nil_iff.1 h]
      exact ⟨v, rfl, rfl⟩
  | cons w path ih =>
      obtain ⟨e, l, rfl, he, hl⟩ := List.map_eq_cons_iff.1 h
      obtain ⟨x, hjoins, hdests⟩ := ih hl
      refine ⟨x, ⟨by rw [he], by rwa [he]⟩, ?_⟩
      rw [List.map_cons, hdests, he]

/-! ### Undirected input edges -/

namespace Graph

/-- Edges with single input ids have these as their least ones, and edges without any the placeholder. -/
theorem exists_minInputIds_of_singles {g : Graph}
    (h : ∀ handle ∈ g.inputHandles.toList, 0 ≤ handle ∨ handle = IdSets.emptyId) :
    ∃ ids, g.minInputIds = .ok ids ∧
      ∀ e < g.numEdges, ids.getD e noInput = max (g.inputHandles.getD e noInput) noInput := by
  have hmin : ∀ e ∈ g.edgeIds, g.minInputId e = .ok (max (g.inputHandles.getD e noInput) noInput) := by
    intro e he
    have hsize : e < g.inputHandles.size := by
      rw [g.size_inputHandles]
      exact g.mem_edgeIds.1 he
    unfold minInputId inputIds IdSets.find
    rw [Array.getD_eq_getD_getElem?, Array.getD_eq_getD_getElem?, Array.getElem?_eq_getElem hsize,
      Option.getD_some, Option.getD_some]
    rcases h _ (Array.mem_toList_iff.2 (Array.getElem_mem hsize)) with hsingle | hempty
    · rw [if_pos hsingle, max_eq_left (le_trans (by decide) hsingle)]
      rfl
    · rw [hempty]
      rfl
  refine ⟨_, by rw [minInputIds, mapM_eq_ok hmin]; rfl, fun e he => ?_⟩
  simp [edgeIds, he]

/-- The graph of undirected edges that are kept as they come: each with its own input id, and once more in
reverse with none. -/
structure IsDoubled (g : Graph) (t : Thread) (inputs : List Edge) : Prop where
  sound : t.Sound
  graph : t.graph = g
  thread : g.thread = .ok t
  undirected : t.directed = false
  degenerates : g.options.degenerates = .discard
  siblings : g.options.siblings = .keep
  count : ∀ e, g.edges.toList.count e = inputs.count e + inputs.count e.reverse
  key : ∀ e < g.numEdges, g.edge e ∈ inputs ∧ 0 ≤ t.key e ∨
    (g.edge e).reverse ∈ inputs ∧ t.key e = noInput

section Rows

variable {g : Graph} {inputs : List Edge}
  (hrows : (g.edgeIds.map fun e => ⟨g.edge e, g.inputHandles.getD e noInput⟩).Perm
    (Layer.inputRows true 0 inputs))

include hrows

theorem count_edges_of_rows (e : Edge) :
    g.edges.toList.count e = inputs.count e + inputs.count e.reverse := by
  have hcount := (hrows.map Tagged.edge).count_eq e
  rw [List.map_map, Layer.count_inputRows] at hcount
  rw [← g.map_edge_edgeIds]
  exact hcount

theorem mem_or_reverse_mem_of_rows {e : Nat} (he : e < g.numEdges) :
    g.edge e ∈ inputs ∧ 0 ≤ g.inputHandles.getD e noInput ∨
      (g.edge e).reverse ∈ inputs ∧ g.inputHandles.getD e noInput = IdSets.emptyId := by
  have hrow := hrows.mem_iff.1 (List.mem_map_of_mem (g.mem_edgeIds.2 he))
  rcases Layer.mem_inputRows_iff.1 hrow with ⟨i, hi, hitem⟩ | ⟨-, hreverse, hitem⟩
  · exact .inl ⟨List.mem_of_getElem? hi, (Int.natCast_nonneg i).trans hitem.ge⟩
  · exact .inr ⟨hreverse, hitem⟩

theorem singles_of_rows : ∀ handle ∈ g.inputHandles.toList, 0 ≤ handle ∨ handle = IdSets.emptyId := by
  intro handle hhandle
  obtain ⟨e, he, rfl⟩ := List.mem_iff_getElem.1 hhandle
  rw [Array.length_toList] at he
  have hrow := mem_or_reverse_mem_of_rows hrows (g.size_inputHandles ▸ he)
  rw [Array.getD_eq_getD_getElem?, Array.getElem?_eq_getElem he] at hrow
  exact hrow.imp And.right And.right

theorem exists_isDoubled_of_rows (hundirected : g.options.isUndirected)
    (hdegenerates : g.options.degenerates = .discard) (hsiblings : g.options.siblings = .keep)
    (hproper : ∀ e ∈ inputs, e.isDegenerate = false) : ∃ t, g.IsDoubled t inputs := by
  have hedge : ∀ e < g.numEdges, (g.edge e).isDegenerate = false := by
    intro e he
    rcases mem_or_reverse_mem_of_rows hrows he with ⟨hforth, -⟩ | ⟨hreverse, -⟩
    · exact hproper _ hforth
    · rw [← Edge.isDegenerate_reverse, hproper _ hreverse]
  obtain ⟨t, hthread, ht, hgraph, -⟩ := g.exists_thread (knowsInputs_of_singles (singles_of_rows hrows))
    hdegenerates hedge fun _ e => by
      rw [count_edges_of_rows hrows, count_edges_of_rows hrows, Edge.reverse_reverse, Nat.add_comm]
  obtain ⟨ids, hids, hkeys⟩ := exists_minInputIds_of_singles (singles_of_rows hrows)
  obtain rfl : t.ids = ids := Except.ok.inj ((minInputIds_of_thread hthread).symm.trans hids)
  refine ⟨t, ht, hgraph, hthread, ?_, hdegenerates, hsiblings, count_edges_of_rows hrows, fun e he => ?_⟩
  · rw [Thread.directed, hgraph]
    exact (Options.isUndirected_iff _).1 hundirected
  · rw [Thread.key, hkeys e he]
    rcases mem_or_reverse_mem_of_rows hrows he with ⟨hforth, hnonneg⟩ | ⟨hreverse, hitem⟩
    · exact .inl ⟨hforth, le_max_of_le_left hnonneg⟩
    · refine .inr ⟨hreverse, ?_⟩
      rw [hitem]
      rfl

end Rows

end Graph

theorem properRows_inputRows {u : Bool} {inputs : List Edge}
    (hproper : ∀ e ∈ inputs, e.isDegenerate = false) :
    properRows (Layer.inputRows u 0 inputs) = Layer.inputRows u 0 inputs := by
  refine List.filter_eq_self.2 fun s hs => ?_
  rcases Layer.mem_inputRows_iff.1 hs with ⟨i, hi, -⟩ | ⟨-, hreverse, -⟩
  · rw [hproper _ (List.mem_of_getElem? hi)]
    rfl
  · rw [← s.edge.isDegenerate_reverse, hproper _ hreverse]
    rfl

theorem exists_isDoubled {o : Options} {vertices : Array Point} {inputs : List Edge}
    (ho : o.KeepsInputs inputs) (hundirected : o.isUndirected)
    (hrange : ∀ e ∈ inputs, e.inRange vertices.size)
    (hproper : ∀ e ∈ inputs, e.isDegenerate = false) :
    ∃ layer g t, Layer.build o vertices inputs [] = .ok layer ∧ layer.graph = .ok g ∧
      g.IsDoubled t inputs := by
  obtain ⟨layer, kept, hbuild, hcheck, hoptions, -, hedges, hhandles, hperm⟩ := exists_build ho hrange
  rw [hundirected, properRows_inputRows hproper] at hperm
  let g : Graph := ⟨layer, hcheck⟩
  have hoptions : g.options = o := hoptions
  obtain ⟨t, h⟩ := Graph.exists_isDoubled_of_rows (g.map_edgeIds hedges hhandles ▸ hperm)
    (hoptions ▸ hundirected) (hoptions ▸ ho.degenerates) (hoptions ▸ ho.siblings) hproper
  exact ⟨layer, g, t, hbuild, Layer.graph_eq hcheck, h⟩

/-! ### The steps as a path -/

theorem Graph.exists_map_edge_eq {g : Graph} {edges : List Edge} (h : ∀ e ∈ edges, e ∈ g.edges.toList) :
    ∃ l : List Nat, l.map g.edge = edges ∧ ∀ e ∈ l, e < g.numEdges := by
  induction edges with
  | nil => exact ⟨[], rfl, List.forall_mem_nil _⟩
  | cons e edges ih =>
      obtain ⟨he, hedges⟩ := List.forall_mem_cons.1 h
      obtain ⟨l, hl, hlt⟩ := ih hedges
      rw [← g.map_edge_edgeIds] at he
      obtain ⟨i, hi, rfl⟩ := List.mem_map.1 he
      exact ⟨i :: l, by rw [List.map_cons, hl], List.forall_mem_cons.2 ⟨g.mem_edgeIds.1 hi, hlt⟩⟩

namespace Graph.IsDoubled

variable {g : Graph} {t : Thread} {path : List Int} (h : g.IsDoubled t (steps path))
  (hnodup : path.Nodup)

include h hnodup

theorem nodup_edges : g.edges.toList.Nodup := by
  refine List.nodup_iff_count_le_one.2 fun e => ?_
  have hone := List.nodup_iff_count_le_one.1 (nodup_steps hnodup)
  rw [h.count]
  by_cases he : e ∈ steps path
  · rw [List.count_eq_zero.2 (reverse_not_mem_steps hnodup he)]
    exact hone e
  · rw [List.count_eq_zero.2 he, Nat.zero_add]
    exact hone e.reverse

/-- The steps of the way back are edges, and with their siblings they are all edges. -/
theorem exists_wayBack : ∃ l, l.map g.edge = steps path.reverse ∧ (t.both l).Perm g.edgeIds := by
  have hback : ∀ e, (steps path.reverse).count e = (steps path).count e.reverse := by
    intro e
    rw [steps_reverse, List.count_reverse, Edge.count_map_reverse]
  have hmem : ∀ e ∈ steps path.reverse, e ∈ g.edges.toList := by
    intro e he
    have hpos := List.count_pos_iff.2 he
    rw [hback] at hpos
    rw [← List.count_pos_iff, h.count]
    omega
  obtain ⟨l, hl, hlt⟩ := exists_map_edge_eq hmem
  have hpairs : g.Pairs t.sibling := h.graph ▸ h.sound.pairs h.undirected
  have hboth : t.both l = l ++ l.map t.sibling := if_neg (by simp [h.undirected])
  have hperm : ((t.both l).map g.edge).Perm g.edges.toList := by
    have hsiblings : (l.map t.sibling).map g.edge = (steps path.reverse).map Edge.reverse := by
      rw [← hl, List.map_map, List.map_map]
      exact List.map_congr_left fun e he => hpairs.edge e (hlt e he)
    refine List.perm_iff_count.2 fun e => ?_
    rw [hboth, List.map_append, hl, hsiblings, List.count_append, Edge.count_map_reverse, hback, hback,
      Edge.reverse_reverse, h.count, Nat.add_comm]
  refine ⟨l, hl, ?_⟩
  have hids : (t.both l).Nodup := .of_map _ (hperm.nodup_iff.2 (h.nodup_edges hnodup))
  refine (List.subperm_of_subset hids fun e he => ?_).perm_of_length_le ?_
  · rw [hboth] at he
    rcases List.mem_append.1 he with he | he
    · exact g.mem_edgeIds.2 (hlt e he)
    · obtain ⟨f, hf, rfl⟩ := List.mem_map.1 he
      exact g.mem_edgeIds.2 (hpairs.lt f (hlt f hf))
  · have hlen := hperm.length_eq
    rw [List.length_map, ← g.map_edge_edgeIds, List.length_map] at hlen
    exact hlen.ge

/-- An edge that comes before the first step back in input order leaves an inner vertex. -/
theorem origin_mem_inner {e f : Nat} {l : List Nat} {v w : Int}
    (hl : (e :: l).map g.edge = steps path.reverse) (hjoins : Joins g.edge v (e :: l) w)
    (he : e < g.numEdges) (hf : f < g.numEdges) (hne : f ≠ e) (hkey : t.key f ≤ t.key e) :
    (g.edge f).origin ∈ inner g.edge (e :: l) := by
  have hefirst : t.key e = noInput := by
    have hback : g.edge e ∈ steps path.reverse := hl ▸ List.mem_map_of_mem List.mem_cons_self
    rcases h.key e he with ⟨hforth, -⟩ | ⟨-, hnone⟩
    · exact absurd (mem_steps_reverse.1 hback) (reverse_not_mem_steps hnodup hforth)
    · exact hnone
  -- The other edge has no input id either, so it is a step back too, and not the first one.
  have hback : g.edge f ∈ (e :: l).map g.edge := by
    rw [hl, mem_steps_reverse]
    rcases h.key f hf with ⟨-, hnonneg⟩ | ⟨hreverse, -⟩
    · rw [hefirst] at hkey
      exact absurd (hnonneg.trans hkey) (by decide)
    · exact hreverse
  have horigins := hjoins.map_origin_eq (List.cons_ne_nil e l)
  rw [List.map_cons, List.cons.injEq] at horigins
  rw [← horigins.2]
  obtain ⟨x, hx, hxf⟩ := List.mem_map.1 hback
  rcases List.mem_cons.1 hx with rfl | hx
  · have hinj : (g.edgeIds.map g.edge).Nodup := g.map_edge_edgeIds ▸ h.nodup_edges hnodup
    exact absurd (List.inj_on_of_nodup_map hinj (g.mem_edgeIds.2 hf) (g.mem_edgeIds.2 he) hxf.symm) hne
  · rw [← hxf]
    exact List.mem_map_of_mem hx

/-- The way back is the only path. -/
theorem paths_eq (htwo : 2 ≤ path.length) {l : List Nat} (hl : l.map g.edge = steps path.reverse)
    (hall : (t.both l).Perm g.edgeIds) : t.paths = .ok [l] := by
  obtain rfl := h.graph
  obtain ⟨v, w, rest, hback⟩ : ∃ v w rest, path.reverse = v :: w :: rest := by
    have hlen : 2 ≤ path.reverse.length := by rwa [List.length_reverse]
    match path.reverse, hlen with
    | v :: w :: rest, _ => exact ⟨v, w, rest, rfl⟩
  have hsteps : steps path.reverse = ⟨v, w⟩ :: steps (w :: rest) := by
    rw [hback]
    rfl
  obtain ⟨e, l, rfl, -, -⟩ := List.map_eq_cons_iff.1 (hl.trans hsteps)
  obtain ⟨x, hjoins, hdests⟩ := exists_joins_of_map_eq_steps (hback ▸ hl)
  have hvertices : vertices t.graph.edge (e :: l) = path.reverse := by
    rw [vertices, hdests, hjoins.1, hback]
  have hdistinct : (vertices t.graph.edge (e :: l)).Nodup := by
    rw [hvertices]
    exact List.nodup_reverse.2 hnodup
  have hinterior := Thread.isInterior_iff_mem_inner h.sound h.undirected hall (List.cons_ne_nil e l)
    hjoins hdistinct
  rw [hjoins.vertices_eq (List.cons_ne_nil e l)] at hdistinct
  obtain ⟨hv, hdistinct⟩ := List.nodup_cons.1 hdistinct
  have hx : x ∉ inner t.graph.edge (e :: l) := fun hx =>
    (List.nodup_append.1 hdistinct).2.2 x hx x (List.mem_singleton_self x) rfl
  have he : e < t.graph.numEdges :=
    t.graph.mem_edgeIds.1 (hall.mem_iff.1 (Thread.subset_both _ List.mem_cons_self))
  obtain ⟨before, after, horder⟩ := List.append_of_mem ((Thread.mem_inputOrder h.sound).2 he)
  refine Thread.paths_eq_singleton h.sound h.undirected hall hjoins (fun y hy => (hinterior y).2 hy)
    (fun hv' => hv (List.mem_append_left _ ((hinterior v).1 hv'))) (mt (hinterior x).1 hx) horder
    fun f hf => ?_
  have hsorted := t.pairwise_inputOrder
  have hids := (Thread.inputOrder_perm h.sound).nodup_iff.2 t.graph.nodup_edgeIds
  have hmem : f < t.graph.numEdges := (Thread.mem_inputOrder h.sound).1 (horder ▸ List.mem_append_left _ hf)
  rw [horder] at hsorted hids
  refine (hinterior _).2 (h.origin_mem_inner hnodup hl hjoins he hmem ?_ ?_)
  · exact (List.nodup_append.1 hids).2.2 f hf e List.mem_cons_self
  · exact ((List.pairwise_append.1 hsorted).2.2 f hf e List.mem_cons_self).1

end Graph.IsDoubled

/-- The undirected steps of a chain of different vertices are one path, and it leads along the chain from
its last vertex to its first. -/
theorem exists_path_steps (allowVertexFiltering : Bool) (vertices : Array Point) {path : List Int}
    (hpath : ∀ v ∈ path, 0 ≤ v ∧ v < vertices.size) (hnodup : path.Nodup) (htwo : 2 ≤ path.length) :
    ∃ layer g l, Layer.build { Options.verbatim allowVertexFiltering with edgeType := .undirected }
        vertices (steps path) [] = .ok layer ∧
      layer.graph = .ok g ∧ g.polylines .path = .ok [l] ∧ l.map g.edge = steps path.reverse := by
  have hrange : ∀ e ∈ steps path, e.inRange vertices.size := by
    intro e he
    obtain ⟨horigin, hdest⟩ := mem_of_mem_steps he
    simp [Edge.inRange, hpath _ horigin, hpath _ hdest]
  obtain ⟨layer, g, t, hbuild, hgraph, h⟩ :=
    exists_isDoubled (o := { Options.verbatim allowVertexFiltering with edgeType := .undirected })
      ⟨rfl, rfl, .inl rfl⟩ rfl hrange fun e he => isDegenerate_of_mem_steps hnodup he
  obtain ⟨l, hl, hall⟩ := h.exists_wayBack hnodup
  refine ⟨layer, g, l, hbuild, hgraph, ?_, hl⟩
  rw [Graph.polylines_path_eq h.degenerates (.inr h.siblings) h.thread (h.paths_eq hnodup htwo hl hall),
    List.perm_singleton.1 (orderChains_perm t.key [l])]

theorem exists_path_steps_twoSteps :
    (∀ v ∈ [0, 2, 1], 0 ≤ v ∧ v < (3 : Int)) ∧ [(0 : Int), 2, 1].Nodup ∧
    ∃ layer g l, Layer.build { Options.verbatim true with edgeType := .undirected }
        #[default, default, default] (steps [0, 2, 1]) [] = .ok layer ∧
      layer.graph = .ok g ∧ g.polylines .path = .ok [l] ∧ l.map g.edge = [⟨1, 2⟩, ⟨2, 0⟩] := by
  have hpath : ∀ v ∈ [0, 2, 1], 0 ≤ v ∧ v < (3 : Int) := by decide
  have hnodup : [(0 : Int), 2, 1].Nodup := by decide
  exact ⟨hpath, hnodup, exists_path_steps true #[default, default, default] hpath hnodup (by decide)⟩

/-- Undirected chains do not keep their input direction. -/
theorem not_exists_path_steps_forward :
    (∀ v ∈ [0, 1, 2], 0 ≤ v ∧ v < (3 : Int)) ∧ [(0 : Int), 1, 2].Nodup ∧
    ¬∃ layer g l, Layer.build { Options.verbatim true with edgeType := .undirected }
        #[default, default, default] (steps [0, 1, 2]) [] = .ok layer ∧
      layer.graph = .ok g ∧ g.polylines .path = .ok [l] ∧ l.map g.edge = steps [0, 1, 2] := by
  refine ⟨by decide, by decide, ?_⟩
  rintro ⟨layer, g, l, hbuild, hgraph, hpolylines, hforward⟩
  have hback : (do
      let layer ← Layer.build { Options.verbatim true with edgeType := .undirected }
        #[default, default, default] (steps [0, 1, 2]) []
      let g ← liftFault layer.graph
      let lines ← liftFault (g.polylines .path)
      return g.asEdges lines) = .ok [[⟨2, 1⟩, ⟨1, 0⟩]] := by cbv
  rw [hbuild, ok_bind, hgraph, liftFault_ok, ok_bind, hpolylines, liftFault_ok, ok_bind] at hback
  have hback : [l.map g.edge] = [[⟨2, 1⟩, ⟨1, 0⟩]] := Except.ok.inj hback
  rw [hforward] at hback
  exact absurd hback (by decide)

end SnapGraph
