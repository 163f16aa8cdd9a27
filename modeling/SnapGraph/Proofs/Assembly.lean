import Mathlib
import SnapGraph.Workspace
import SnapGraph.Proofs.RenumberedThread
import SnapGraph.Proofs.Complement

/-! Compaction is invisible to assembly. Vertices that nothing touches are dropped and the others
renumbered in order, so edges keep their ids, their order and their directions around a vertex, and walks
are cut where they were, though the table of places has become smaller. Whatever is assembled afterwards
is what was assembled before, edge by edge, and an error that names a vertex names it by its new number. -/

namespace SnapGraph

variable {f : Int → Int}

/-! ### Cutting into loops -/

section Congr

variable {α : Type} {p q : α → Bool} {l : List α}

theorem takeWhile_congr (h : ∀ a ∈ l, p a = q a) : l.takeWhile p = l.takeWhile q := by
  induction l with
  | nil => rfl
  | cons a l ih =>
      obtain ⟨ha, hl⟩ := List.forall_mem_cons.1 h
      rw [List.takeWhile_cons, List.takeWhile_cons, ha, ih hl]

theorem dropWhile_congr (h : ∀ a ∈ l, p a = q a) : l.dropWhile p = l.dropWhile q := by
  induction l with
  | nil => rfl
  | cons a l ih =>
      obtain ⟨ha, hl⟩ := List.forall_mem_cons.1 h
      rw [List.dropWhile_cons, List.dropWhile_cons, ha, ih hl]

end Congr

section Loops

variable {edge edge' : Nat → Edge} (hf : Function.Injective f)

include hf

/-- A walk is cut where it was, as its edges meet where they did. -/
theorem peelLoops_congr {path walk : List Nat} (h : ∀ e ∈ path ++ walk, edge e = (edge' e).map f) :
    peelLoops edge path walk = peelLoops edge' path walk := by
  induction walk generalizing path with
  | nil => rfl
  | cons e walk ih =>
      have hlonger : ∀ d ∈ e :: path, edge d = (edge' d).map f := by
        intro d hd
        refine h d ?_
        rcases List.mem_cons.1 hd with rfl | hd
        · exact List.mem_append_right _ List.mem_cons_self
        · exact List.mem_append_left _ hd
      have hwalk : ∀ d ∈ walk, edge d = (edge' d).map f := fun d hd =>
        h d (List.mem_append_right _ (List.mem_cons_of_mem _ hd))
      have honward : ∀ d ∈ e :: path, ((edge d).origin != (edge e).dest) =
          ((edge' d).origin != (edge' e).dest) := by
        intro d hd
        rw [hlonger d hd, hlonger e List.mem_cons_self, Edge.map_origin, Edge.map_dest,
          Bool.eq_iff_iff, bne_iff_ne, bne_iff_ne, hf.ne_iff]
      rw [peelLoops, peelLoops, dropWhile_congr honward, takeWhile_congr honward]
      cases hrest : (e :: path).dropWhile fun d => (edge' d).origin != (edge' e).dest with
      | nil => exact ih (List.forall_mem_append.2 ⟨hlonger, hwalk⟩)
      | cons first rest =>
          have hsub : (first :: rest).Sublist (e :: path) := hrest ▸ List.dropWhile_sublist _
          refine congrArg (List.cons _) (ih (List.forall_mem_append.2 ⟨fun d hd => ?_, hwalk⟩))
          exact hlonger d (hsub.subset (List.mem_cons_of_mem _ hd))

theorem loops_congr (kind : LoopKind) {circuit : List Nat}
    (h : ∀ e ∈ circuit, edge e = (edge' e).map f) : kind.loops edge circuit = kind.loops edge' circuit := by
  cases kind with
  | simple => exact peelLoops_congr hf h
  | circuit => rfl

end Loops

/-! ### The circuits of a search -/

namespace Turns

/-- What has been explored are cycles of the turns, whatever the siblings are. -/
theorem Closed.takes_exploreSides {turns : Turns} {sibling : Nat → Nat} {sides : Sides}
    {frontier : List (Nat × Bool)} (h : turns.Closed) :
    ∀ x, turns.exploreSides sibling sides frontier = .ok x →
      turns.Takes (x.circuits.map Prod.snd) x.turns := by
  fun_induction exploreSides sibling turns sides frontier with
  | case1 =>
      rintro x ⟨⟩
      exact .nil h
  | case2 turns sides start side frontier hnone ih => exact ih h
  | case3 => rintro x ⟨⟩
  | case4 => rintro x ⟨⟩
  | case5 turns sides start side frontier f hf circuit found after hclaim onward y hy ih =>
      rintro x ⟨⟩
      exact (h.takes_circuit hf).append (ih (h.closed_left hf) y hy)

/-- Exploring fails where an edge shares a side with its sibling. -/
theorem of_exploreSides_eq_error {turns : Turns} {sibling : Nat → Nat} {sides : Sides}
    {frontier : List (Nat × Bool)} {err : BuildError}
    (h : turns.exploreSides sibling sides frontier = .error err) :
    ∃ e : Nat, err = .siblingInSameComplement e := by
  fun_induction exploreSides sibling turns sides frontier with
  | case1 => cases h
  | case2 turns sides start side frontier hnone ih => exact ih h
  | case3 turns sides start side frontier f hf circuit err' hclaim =>
      cases h
      obtain ⟨e, -, heq, -⟩ := Sides.of_claim_eq_error hclaim
      exact ⟨e, heq⟩
  | case4 turns sides start side frontier f hf circuit found after hclaim onward err' herr ih =>
      cases h
      exact ih herr
  | case5 => cases h

end Turns

theorem Complements.isCycle_of_mem_circuits {turns : Turns} {sibling : Nat → Nat} {sides : Sides}
    {starts : List Nat} (h : turns.Closed) :
    ∀ component ∈ (circuits sibling turns sides starts).value, ∀ p ∈ component,
      turns.IsCycle p.2 := by
  fun_induction circuits sibling turns sides starts with
  | case1 => exact List.forall_mem_nil _
  | case2 turns sides start starts hnone ih => exact ih h
  | case3 => exact List.forall_mem_nil _
  | case4 turns sides start starts f hf x hx others ih =>
      have htakes := h.takes_exploreSides x hx
      refine List.forall_mem_cons.2 ⟨fun p hp => htakes.isCycle p.2 (List.mem_map_of_mem hp), ?_⟩
      intro component hcomponent p hp
      obtain ⟨hne, hnodup, hchain⟩ := ih htakes.closed component hcomponent p hp
      exact ⟨hne, hnodup, hchain.imp fun a b hab => (htakes.next?_eq_some_iff.1 hab).2⟩

theorem Complements.of_error?_circuits {turns : Turns} {sibling : Nat → Nat} {sides : Sides}
    {starts : List Nat} {err : BuildError}
    (h : (circuits sibling turns sides starts).error? = some err) :
    ∃ e : Nat, err = .siblingInSameComplement e := by
  fun_induction circuits sibling turns sides starts with
  | case1 => cases h
  | case2 turns sides start starts hnone ih => exact ih h
  | case3 turns sides start starts f hf err' herr =>
      cases h
      exact Turns.of_exploreSides_eq_error herr
  | case4 turns sides start starts f hf x hx others ih => exact ih h

/-! ### Steps up to the numbers of vertices -/

/-- The same failure, with the vertex that it names renumbered. -/
def Failure.renumber (new : Int → Int) : Failure → Failure
  | .fault f => .fault f
  | .error e => .error (e.renumber new)

/-- The same step, with the vertex that its error names renumbered. -/
def Workspace.Step.renumber (new : Int → Int) (s : Workspace.Step) : Workspace.Step :=
  s.map fun r => (r.1, r.2.map (BuildError.renumber new))

/-- What is assembled of the first graph is assembled of the second, edge by edge; only a vertex that an
error names has its new number. -/
structure Graph.AssemblesAlike (new : Int → Int) (g g' : Graph) : Prop where
  inEdgeIds : g'.inEdgeIds = g.inEdgeIds
  turns (sort : ComparisonSort Spoke) (w : Workspace) (inIds : Option (List Int)) :
    w.routeLeft g' inIds sort = (w.routeLeft g inIds sort).renumber new
  loops (sort : ComparisonSort Spoke) (w : Workspace) (kind : LoopKind) :
    w.addLoops g' kind sort = (w.addLoops g kind sort).renumber new
  directed (sort : ComparisonSort Spoke) (w : Workspace) (filaments : FilamentPolicy) :
    w.addDirected g' filaments sort = (w.addDirected g filaments sort).renumber new
  undirected (sort : ComparisonSort Spoke) (w : Workspace) (kind : LoopKind) :
    w.addUndirected g' kind sort = (w.addUndirected g kind sort).renumber new
  polylines (kind : PolylineKind) : g'.polylines kind = g.polylines kind

section Steps

variable {old new : Int → Int} {g g' : Graph} (h : g.toLayer.Renumbers old g'.toLayer)

include h

theorem Layer.Renumbers.map_loops_eq (kind : LoopKind) {circuits : List (List Nat)}
    (hlt : ∀ c ∈ circuits, ∀ e ∈ c, e < g.numEdges) :
    circuits.map (kind.loops g'.edge) = circuits.map (kind.loops g.edge) := by
  refine List.map_congr_left fun c hc => ?_
  exact (loops_congr h.strictMono.injective kind fun e he => h.edge (hlt c hc e he)).symm

theorem Layer.Renumbers.split_eq (kind : LoopKind) (key : Nat → Int)
    {component : List (Bool × List Nat)} (hlt : ∀ p ∈ component, ∀ e ∈ p.2, e < g.numEdges) :
    Complements.split kind g'.edge key component = Complements.split kind g.edge key component := by
  have hside : ∀ side : Bool,
      ((component.filter fun c => c.1 == side).flatMap fun c => kind.loops g'.edge c.2) =
        (component.filter fun c => c.1 == side).flatMap fun c => kind.loops g.edge c.2 := by
    intro side
    have hown : ∀ c ∈ Complements.sideOf side component, ∀ e ∈ c, e < g.numEdges := by
      intro c hc e he
      exact hlt _ (Complements.mem_sideOf.1 hc) e he
    have hloops := congrArg List.flatten (h.map_loops_eq kind hown)
    rw [← List.flatMap_def, ← List.flatMap_def, Complements.sideOf, List.flatMap_map,
      List.flatMap_map] at hloops
    exact hloops
  unfold Complements.split
  simp only [hside]

variable (hnew : ∀ v ∈ g'.vertexIds, new (old v) = v) (sort : ComparisonSort Spoke)

include hnew

theorem Layer.Renumbers.leftTurns_eq :
    g'.leftTurns sort = (g.leftTurns sort).map (Outcome.renumber new) := by
  rw [Graph.leftTurns, Graph.leftTurns, h.inEdgeIds]
  exact h.route_eq hnew sort fun e he => g.inOrder_inEdgeIds.mem_iff.1 he

theorem Layer.Renumbers.leftTurnsFrom_eq (inIds : List Int) :
    g'.leftTurnsFrom sort inIds = (g.leftTurnsFrom sort inIds).map (Outcome.renumber new) := by
  rw [Graph.leftTurnsFrom, Graph.leftTurnsFrom, h.numEdges]
  split
  · rfl
  · cases hids : (inIds.take g.numEdges).mapM (indexOf g.numEdges) with
    | error f => rfl
    | ok ids =>
        refine h.route_eq hnew sort fun e he => ?_
        obtain ⟨_, -, hindex⟩ := exists_of_mem_mapM hids e he
        exact (lt_of_indexOf hindex).1

/-- Both graphs have the same routing, and the cycles of the first are those of the second. -/
theorem Layer.Renumbers.isRouting_renumber {r : Outcome Turns} (hroute : g.leftTurns sort = .ok r) :
    g'.leftTurns sort = .ok (r.renumber new) ∧ g'.IsRouting (r.renumber new) := by
  have hroute' := h.leftTurns_eq hnew sort
  rw [hroute] at hroute'
  exact ⟨hroute', Graph.isRouting_leftTurns hroute'⟩

theorem Layer.Renumbers.cutAll_eq {r : Outcome Turns} (hroute : g.leftTurns sort = .ok r)
    (kind : LoopKind) {circuits : List (List Nat)} (hcycles : ∀ c ∈ circuits, r.value.IsCycle c) :
    kind.cutAll g'.edge g'.noPlaces circuits =
      .ok (circuits.map (kind.loops g.edge), g'.noPlaces) := by
  have hrouting := Graph.isRouting_leftTurns hroute
  rw [(h.isRouting_renumber hnew sort hroute).2.cutAll_eq kind hcycles,
    h.map_loops_eq kind fun c hc e he => hrouting.lt_of_isCycle (hcycles c hc) he]

theorem Layer.Renumbers.ofComponents_eq {r : Outcome Turns} (hroute : g.leftTurns sort = .ok r)
    (kind : LoopKind) (key : Nat → Int) {found : List (List (Bool × List Nat))}
    (hcycles : ∀ c ∈ found, ∀ p ∈ c, r.value.IsCycle p.2) :
    Complements.ofComponents kind g'.edge key g'.noPlaces found =
      Complements.ofComponents kind g.edge key g.noPlaces found := by
  have hrouting := Graph.isRouting_leftTurns hroute
  rw [(h.isRouting_renumber hnew sort hroute).2.ofComponents_eq kind key hcycles,
    hrouting.ofComponents_eq kind key hcycles]
  refine congrArg Except.ok (List.map_congr_left fun c hc => ?_)
  exact h.split_eq kind key fun p hp e he => hrouting.lt_of_isCycle (hcycles c hc p hp) he

theorem Layer.Renumbers.directedLoops_eq (kind : LoopKind) :
    g'.directedLoops sort kind = (g.directedLoops sort kind).mapError (Failure.renumber new) := by
  rw [Graph.directedLoops, Graph.directedLoops, h.options, h.leftTurns_eq hnew]
  split
  · rfl
  cases hroute : g.leftTurns sort with
  | error f => rfl
  | ok r =>
      have hrouting := Graph.isRouting_leftTurns hroute
      obtain ⟨turns, error?⟩ := r
      cases error? with
      | some err => rfl
      | none =>
          have hcycles := ((hrouting.closed rfl).exhausts g.edgeIds).isCycle
          dsimp only [bind, Except.bind, liftFault, Except.map, Outcome.renumber, Option.map_none]
          rw [h.minInputIds, h.edgeIds, h.cutAll_eq hnew sort hroute kind hcycles,
            hrouting.cutAll_eq kind hcycles]
          cases g.minInputIds with
          | error f => rfl
          | ok ids => rfl

theorem Layer.Renumbers.directedComponents_eq (filaments : FilamentPolicy) :
    g'.directedComponents sort filaments =
      (g.directedComponents sort filaments).mapError (Failure.renumber new) := by
  rw [Graph.directedComponents, Graph.directedComponents, h.options, h.leftTurns_eq hnew]
  split
  · rfl
  cases g.leftTurns sort with
  | error f => rfl
  | ok r =>
      obtain ⟨turns, error?⟩ := r
      cases error? with
      | some err => rfl
      | none =>
          dsimp only [bind, Except.bind, liftFault, Except.map, Outcome.renumber, Option.map_none]
          rw [h.siblingOf, h.minInputIds, h.edgeIds, h.numEdges]
          cases g.siblingOf with
          | error f => rfl
          | ok sibling =>
              cases g.minInputIds with
              | error f => rfl
              | ok ids =>
                  cases filaments with
                  | keep => rfl
                  | discard =>
                      dsimp only
                      cases Pruning.components sibling (Array.replicate g.numEdges none)
                        (turns.components sibling g.edgeIds) with
                      | error f => rfl
                      | ok kept => rfl

theorem Layer.Renumbers.undirectedComponents_eq (kind : LoopKind) :
    g'.undirectedComponents sort kind =
      (g.undirectedComponents sort kind).map (Outcome.renumber new) := by
  rw [Graph.undirectedComponents, Graph.undirectedComponents, h.options, h.leftTurns_eq hnew]
  split
  · rfl
  cases hroute : g.leftTurns sort with
  | error f => rfl
  | ok r =>
      have hrouting := Graph.isRouting_leftTurns hroute
      obtain ⟨turns, error?⟩ := r
      cases error? with
      | some err => rfl
      | none =>
          dsimp only [bind, Except.bind, Except.map, Outcome.renumber, Option.map_none]
          rw [h.siblingOf, h.minInputIds, h.edgeIds, h.numEdges]
          cases g.siblingOf with
          | error f => rfl
          | ok sibling =>
              cases g.minInputIds with
              | error f => rfl
              | ok ids =>
                  have hcycles : ∀ c ∈ (g.search turns sibling).value, ∀ p ∈ c,
                      turns.IsCycle p.2 :=
                    Complements.isCycle_of_mem_circuits (hrouting.closed rfl)
                  dsimp only
                  rw [← Graph.search, h.ofComponents_eq hnew sort hroute kind _ hcycles]
                  cases Complements.ofComponents kind g.edge (fun e => ids.getD e noInput) g.noPlaces
                    (g.search turns sibling).value with
                  | error f => rfl
                  | ok components =>
                      cases herr : (g.search turns sibling).error? with
                      | none => rfl
                      | some err =>
                          -- the search reports an edge only, which renumbering leaves alone
                          obtain ⟨e, rfl⟩ := Complements.of_error?_circuits herr
                          rfl

/-- Renumbering changes nothing that is assembled. -/
theorem Layer.Renumbers.assemblesAlike : g.AssemblesAlike new g' where
  inEdgeIds := h.inEdgeIds
  turns sort w inIds := by
    cases inIds with
    | none =>
        rw [Workspace.routeLeft, Workspace.routeLeft]
        dsimp only
        rw [h.leftTurns_eq hnew]
        cases g.leftTurns sort with
        | error f => rfl
        | ok turns => rfl
    | some ids =>
        rw [Workspace.routeLeft, Workspace.routeLeft]
        dsimp only
        rw [h.leftTurnsFrom_eq hnew]
        cases g.leftTurnsFrom sort ids with
        | error f => rfl
        | ok turns => rfl
  loops sort w kind := by
    rw [Workspace.addLoops, Workspace.addLoops, h.directedLoops_eq hnew]
    rcases g.directedLoops sort kind with (f | err) | loops
    · rfl
    · rfl
    · rfl
  directed sort w filaments := by
    rw [Workspace.addDirected, Workspace.addDirected, h.directedComponents_eq hnew]
    rcases g.directedComponents sort filaments with (f | err) | components
    · rfl
    · rfl
    · rfl
  undirected sort w kind := by
    rw [Workspace.addUndirected, Workspace.addUndirected, h.undirectedComponents_eq hnew]
    cases g.undirectedComponents sort kind with
    | error f => rfl
    | ok found => rfl
  polylines kind := (h.polylines_eq kind).symm

end Steps

/-! ### Compaction -/

theorem Layer.edges_of_compact {l l' : Layer} {scratch table : Array Int}
    (hfiltering : l.options.allowVertexFiltering) (h : l.compact scratch = .ok (l', table)) :
    l'.edges = l.edges.map (Edge.renumber table) := by
  rw [compact, if_pos hfiltering] at h
  obtain ⟨c, hc, h⟩ := bind_eq_ok_iff.1 h
  cases h
  obtain ⟨used, -, hused⟩ := bind_eq_ok_iff.1 hc
  cases hused
  rfl

/-- The graph of a layer that was built and the graph of the layer compacted assemble alike, whatever the
scratch table held: errors name vertices by the numbers in the table that compaction leaves, which edges
have been renumbered by. -/
theorem Layer.compact_assemblesAlike {o : Options} {vertices : Array Point} {inputs : List Edge}
    {labels : List (List Int)} {l : Layer} (hbuild : build o vertices inputs labels = .ok l)
    (hfiltering : l.options.allowVertexFiltering) (scratch : Array Int) :
    ∃ l' table g g', l.compact scratch = .ok (l', table) ∧
      l'.edges = l.edges.map (Edge.renumber table) ∧ l.graph = .ok g ∧ l'.graph = .ok g' ∧
        g.AssemblesAlike (fun v => table.getD v.toNat 0) g' := by
  obtain ⟨-, c, hbuilt⟩ := exists_isBuilt_of_build hbuild
  obtain ⟨old, l', table, hcompact, hrenumbers, htable⟩ := exists_compact hbuilt.check scratch
  have hcheck := hrenumbers.check hbuilt.check
  let g : Graph := ⟨l, hbuilt.check⟩
  let g' : Graph := ⟨l', hcheck⟩
  have hgraphs : g.toLayer.Renumbers old g'.toLayer := hrenumbers
  refine ⟨l', table, g, g', hcompact, edges_of_compact hfiltering hcompact, graph_eq hbuilt.check,
    graph_eq hcheck, ?_⟩
  refine hgraphs.assemblesAlike fun v hv => ?_
  obtain ⟨hnonneg, hlt⟩ := Graph.mem_vertexIds.1 hv
  exact htable hfiltering v hnonneg hlt

/-- Edges that form no loop, between vertices that nothing touches. -/
theorem Layer.compact_assemblesAlike_openChain : ∃ l,
    build {} #[default, default, default, default, default] [⟨1, 3⟩, ⟨3, 4⟩] [] = .ok l ∧
      l.options.allowVertexFiltering ∧ ∀ scratch, ∃ l' table g g',
        l.compact scratch = .ok (l', table) ∧ l'.edges = l.edges.map (Edge.renumber table) ∧
          l.graph = .ok g ∧ l'.graph = .ok g' ∧
            g.AssemblesAlike (fun v => table.getD v.toNat 0) g' := by
  have hrange : ∀ e ∈ ([⟨1, 3⟩, ⟨3, 4⟩] : List Edge),
      e.inRange (#[default, default, default, default, default] : Array Point).size := by decide
  have hpresent : ¬({} : Options).MissesSiblings [⟨1, 3⟩, ⟨3, 4⟩] := fun h => nomatch h.1
  obtain ⟨l, c, hbuild, hbuilt⟩ := exists_isBuilt hrange hpresent (List.forall_mem_nil _)
  have hfiltering : l.options.allowVertexFiltering := by
    rw [hbuilt.options_eq]
    rfl
  exact ⟨l, hbuild, hfiltering, compact_assemblesAlike hbuild hfiltering⟩

example : (do
    let l ← Layer.build {} #[default, default, default, default, default] [⟨1, 3⟩, ⟨3, 4⟩] []
    let (l', _) ← liftFault (l.compact #[7, 7])
    let g ← liftFault l.graph
    let g' ← liftFault l'.graph
    let r ← liftFault (g.leftTurns .standard)
    let r' ← liftFault (g'.leftTurns .standard)
    return (r.error?, r'.error?)) =
    .ok (some (.unmatchedEdge 1 4), some (.unmatchedEdge 1 2)) := by cbv

end SnapGraph
