import Mathlib
import SnapGraph.Workspace
import SnapGraph.Proofs.Loop
import SnapGraph.Proofs.Sides

/-! Components of undirected edges. The circuits of a component are split by their sides, and since
siblings are on opposite sides, so are the edges of the loops they are cut into. The components found
before an error are whole, so all of this holds of them too; without an error they use up all edges.

The table of places goes from one component to the next. It comes back empty, so each component is cut as
if it were the only one. -/

namespace SnapGraph

namespace Complements

/-- All edges of a component. -/
def edges (d : Complements) : List Nat := (d.first ++ d.second).flatten

/-- The circuits of one side. -/
def sideOf (side : Bool) (component : List (Bool × List Nat)) : List (List Nat) :=
  (component.filter fun p => p.1 == side).map Prod.snd

theorem mem_sideOf {side : Bool} {component : List (Bool × List Nat)} {c : List Nat} :
    c ∈ sideOf side component ↔ (side, c) ∈ component := by
  simp [sideOf]

theorem mem_flatten_sideOf {side : Bool} {component : List (Bool × List Nat)} {e : Nat} :
    e ∈ (sideOf side component).flatten ↔ ∃ p ∈ component, p.1 = side ∧ e ∈ p.2 := by
  rw [List.mem_flatten]
  constructor
  · rintro ⟨c, hc, he⟩
    exact ⟨(side, c), mem_sideOf.1 hc, rfl, he⟩
  · rintro ⟨⟨_, c⟩, hp, rfl, he⟩
    exact ⟨c, mem_sideOf.2 hp, he⟩

/-- Either side of a component has the sibling of some edge. -/
theorem IsSided.exists_mem_sideOf {sibling : Nat → Nat} {component : List (Bool × List Nat)}
    (h : IsSided sibling component) (hne : ∀ p ∈ component, p.2 ≠ []) (side : Bool) :
    ∃ e, e ∈ (sideOf side component).flatten := by
  obtain ⟨p, hp⟩ := List.exists_mem_of_ne_nil _ h.ne_nil
  obtain ⟨e, he⟩ := List.exists_mem_of_ne_nil _ (hne p hp)
  by_cases hside : p.1 = side
  · exact ⟨e, mem_flatten_sideOf.2 ⟨p, hp, hside, he⟩⟩
  · obtain ⟨q, hq, hopposite, hsibling⟩ := h.opposite p hp e he
    have hside : q.1 = side := by
      rw [hopposite, Bool.eq_not_of_ne hside, Bool.not_not]
    exact ⟨_, mem_flatten_sideOf.2 ⟨q, hq, hside, hsibling⟩⟩

theorem IsSided.sibling_mem_sideOf {sibling : Nat → Nat} {component : List (Bool × List Nat)}
    (h : IsSided sibling component) {side : Bool} {e : Nat}
    (hmem : e ∈ (sideOf side component).flatten) :
    sibling e ∈ (sideOf (!side) component).flatten := by
  obtain ⟨p, hp, rfl, he⟩ := mem_flatten_sideOf.1 hmem
  obtain ⟨q, hq, hopposite, hsibling⟩ := h.opposite p hp e he
  exact mem_flatten_sideOf.2 ⟨q, hq, hopposite, hsibling⟩

theorem sideOf_append_perm (component : List (Bool × List Nat)) :
    (sideOf false component ++ sideOf true component).Perm (component.map Prod.snd) := by
  have hother : ∀ p : Bool × List Nat, (p.1 == true) = !(p.1 == false) := by
    rintro ⟨_ | _, c⟩
    all_goals rfl
  unfold sideOf
  rw [← List.map_append, List.filter_congr fun p _ => hother p]
  exact (List.filter_append_perm _ _).map _

/-- The circuits of a component, cut by searching and split by side. -/
def split (kind : LoopKind) (edge : Nat → Edge) (key : Nat → Int)
    (component : List (Bool × List Nat)) : Complements :=
  let loopsOf (side : Bool) := orderChains key
    (((component.filter fun c => c.1 == side).flatMap fun c => kind.loops edge c.2).map
      (canonicalLoop key))
  ⟨loopsOf false, loopsOf true⟩

/-- The loops of one side are those of its circuits. -/
theorem flatMap_filter_zip (side : Bool) (component : List (Bool × List Nat))
    (f : List Nat → List (List Nat)) :
    ((((component.map Prod.fst).zip ((component.map Prod.snd).map f)).filter fun c =>
      c.1 == side).flatMap Prod.snd) =
        (component.filter fun c => c.1 == side).flatMap fun c => f c.2 := by
  rw [List.map_map, List.zip_map', List.filter_map, List.flatMap_map]
  rfl

end Complements

namespace Graph

variable {g : Graph} {turns : Turns} {sibling : Nat → Nat}

/-- What a component of an undirected graph is, given its left turns, its siblings and the ids that
order edges. -/
structure IsSplit (g : Graph) (turns : Turns) (sibling : Nat → Nat) (key : Nat → Int)
    (kind : LoopKind) (d : Complements) : Prop where
  lt : ∀ e ∈ d.edges, e < g.numEdges
  first_ne_nil : d.first ≠ []
  second_ne_nil : d.second ≠ []
  ne_nil : ∀ l ∈ d.first ++ d.second, l ≠ []
  closed : ∀ l ∈ d.first ++ d.second, IsClosed g.edge l
  circuit : kind = .circuit → ∀ l ∈ d.first ++ d.second, turns.IsCycle l
  simple : kind = .simple → ∀ l ∈ d.first ++ d.second, (l.map fun e => (g.edge e).origin).Nodup
  opposite : ∀ e < g.numEdges, e ∈ d.first.flatten ↔ sibling e ∈ d.second.flatten
  first_ascending : d.first.Pairwise fun l m => chainKey key l ≤ chainKey key m
  second_ascending : d.second.Pairwise fun l m => chainKey key l ≤ chainKey key m

section Split

variable {component : List (Bool × List Nat)} (key : Nat → Int) (kind : LoopKind)
  (hjoins : ∀ e f, turns.next? e = some f → (g.edge e).dest = (g.edge f).origin)
  (hcycles : ∀ p ∈ component, turns.IsCycle p.2)

include hjoins hcycles

theorem assembles_split : g.Assembles turns key kind (Complements.sideOf false component)
      (Complements.split kind g.edge key component).first ∧
    g.Assembles turns key kind (Complements.sideOf true component)
      (Complements.split kind g.edge key component).second := by
  have hside : ∀ side, g.Assembles turns key kind (Complements.sideOf side component)
      (orderChains key (((component.filter fun c => c.1 == side).flatMap fun c =>
        kind.loops g.edge c.2).map (canonicalLoop key))) := by
    intro side
    have hside : ∀ c ∈ Complements.sideOf side component, turns.IsCycle c := fun c hc =>
      hcycles _ (Complements.mem_sideOf.1 hc)
    have hassembles := assembles hjoins hside key kind
    rwa [Complements.sideOf, List.flatMap_map] at hassembles
  exact ⟨hside false, hside true⟩

theorem edges_split_perm : (Complements.split kind g.edge key component).edges.Perm
    (component.map Prod.snd).flatten := by
  obtain ⟨hfirst, hsecond⟩ := assembles_split key kind hjoins hcycles
  rw [Complements.edges, List.flatten_append]
  refine (hfirst.perm.append hsecond.perm).trans ?_
  rw [← List.flatten_append]
  exact (Complements.sideOf_append_perm component).flatten

omit hcycles in
/-- Splitting all components moves no edge from one to another. -/
theorem flatMap_edges_perm {found : List (List (Bool × List Nat))}
    (hcycles : ∀ c ∈ found, ∀ p ∈ c, turns.IsCycle p.2) {components : List Complements}
    (hperm : components.Perm (found.map (Complements.split kind g.edge key))) :
    (components.flatMap Complements.edges).Perm (found.flatten.map Prod.snd).flatten := by
  refine (hperm.flatMap_right _).trans ?_
  rw [List.flatMap_map, List.map_flatten, List.flatten_flatten, List.map_map, ← List.flatMap_def]
  exact List.Perm.flatMap_left _ fun c hc => edges_split_perm key kind hjoins (hcycles c hc)

theorem isSplit_split (hlt : ∀ e, (∃ f, turns.next? e = some f) → e < g.numEdges)
    (hpairs : g.Pairs sibling) (hsided : Complements.IsSided sibling component) :
    g.IsSplit turns sibling key kind (Complements.split kind g.edge key component) := by
  obtain ⟨hfirst, hsecond⟩ := assembles_split key kind hjoins hcycles
  have hne := hsided.exists_mem_sideOf fun p hp => (hcycles p hp).1
  have hcircuit : kind = .circuit → ∀ side, ∀ l ∈
      (Complements.sideOf side component).map (canonicalLoop key), turns.IsCycle l := by
    intro _ side l hl
    obtain ⟨c, hc, rfl⟩ := List.mem_map.1 hl
    exact (hcycles _ (Complements.mem_sideOf.1 hc)).isRotated (canonicalLoop_isRotated key c)
  refine ⟨fun e he => ?_, ?_, ?_, List.forall_mem_append.2 ⟨hfirst.ne_nil, hsecond.ne_nil⟩,
    List.forall_mem_append.2 ⟨hfirst.closed, hsecond.closed⟩, fun hkind => ?_, fun hkind => ?_,
    fun e he => ?_, hfirst.ascending, hsecond.ascending⟩
  · obtain ⟨c, hc, he⟩ :=
      List.mem_flatten.1 ((edges_split_perm key kind hjoins hcycles).mem_iff.1 he)
    obtain ⟨p, hp, rfl⟩ := List.mem_map.1 hc
    obtain ⟨f, -, hf⟩ := (hcycles p hp).exists_next he
    exact hlt e ⟨f, hf⟩
  · obtain ⟨e, he⟩ := hne false
    exact List.ne_nil_of_mem (List.mem_flatten.1 (hfirst.perm.mem_iff.2 he)).choose_spec.1
  · obtain ⟨e, he⟩ := hne true
    exact List.ne_nil_of_mem (List.mem_flatten.1 (hsecond.perm.mem_iff.2 he)).choose_spec.1
  · refine List.forall_mem_append.2 ⟨fun l hl => ?_, fun l hl => ?_⟩
    · exact hcircuit hkind false l (((hfirst.circuit hkind).mem_iff).1 hl)
    · exact hcircuit hkind true l (((hsecond.circuit hkind).mem_iff).1 hl)
  · exact List.forall_mem_append.2 ⟨fun l hl => (hfirst.simple hkind l hl).1,
      fun l hl => (hsecond.simple hkind l hl).1⟩
  · rw [hfirst.perm.mem_iff, hsecond.perm.mem_iff]
    constructor
    · exact hsided.sibling_mem_sideOf
    · intro hsibling
      have hback := hsided.sibling_mem_sideOf hsibling
      rwa [hpairs.involutive e he] at hback

end Split

/-- What the components of an undirected graph are. If an error is reported beside them, they need not
have all edges, nor be in order. -/
structure AreComplements (g : Graph) (turns : Turns) (sibling : Nat → Nat) (key : Nat → Int)
    (kind : LoopKind) (found : Outcome (List Complements)) : Prop where
  split : ∀ d ∈ found.value, g.IsSplit turns sibling key kind d
  nodup : (found.value.flatMap Complements.edges).Nodup
  perm : found.error? = none → (found.value.flatMap Complements.edges).Perm g.edgeIds
  ascending : found.error? = none → found.value.Pairwise fun c d =>
    chainKey key (c.first.head?.getD []) ≤ chainKey key (d.first.head?.getD [])

/-! ### Cutting by the table -/

section Table

variable {r : Outcome Turns} (h : g.IsRouting r) (kind : LoopKind) (key : Nat → Int)

include h

theorem IsRouting.ofCircuits_eq {component : List (Bool × List Nat)}
    (hcycles : ∀ p ∈ component, r.value.IsCycle p.2) :
    Complements.ofCircuits kind g.edge key g.noPlaces component =
      .ok (Complements.split kind g.edge key component, g.noPlaces) := by
  rw [Complements.ofCircuits, h.cutAll_eq kind (List.forall_mem_map.2 hcycles)]
  simp only [bind, Except.bind, pure, Except.pure, Complements.flatMap_filter_zip]
  rfl

theorem IsRouting.ofComponents_eq {found : List (List (Bool × List Nat))}
    (hcycles : ∀ c ∈ found, ∀ p ∈ c, r.value.IsCycle p.2) :
    Complements.ofComponents kind g.edge key g.noPlaces found =
      .ok (found.map (Complements.split kind g.edge key)) := by
  induction found with
  | nil => rfl
  | cons c found ih =>
      obtain ⟨hc, hfound⟩ := List.forall_mem_cons.1 hcycles
      rw [Complements.ofComponents, h.ofCircuits_eq kind key hc]
      show (Complements.ofComponents _ _ _ g.noPlaces found >>= _) = _
      rw [ih hfound]
      rfl

end Table

/-! ### Searching a graph -/

/-- The circuits of all components of a graph. -/
def search (g : Graph) (turns : Turns) (sibling : Nat → Nat) :
    Outcome (List (List (Bool × List Nat))) :=
  Complements.circuits sibling turns (Array.replicate g.numEdges none) g.edgeIds

section Search

variable {r : Outcome Turns} (hpairs : g.Pairs sibling) (hrouting : g.IsRouting r)
  (hnone : r.error? = none)

include hpairs hrouting hnone

/-- When the search begins, no edge has a side. -/
theorem inStep_replicate : r.value.InStep (Array.replicate g.numEdges none) sibling := by
  refine ⟨hrouting.closed hnone, fun e => ?_, fun e b hb => ?_, ?_, ?_⟩
  · rw [hrouting.exists_next_iff hnone, Array.size_replicate, Sides.side?_replicate_none,
      and_iff_left rfl]
  · rw [Sides.side?_replicate_none] at hb
    cases hb
  · rw [Array.size_replicate]
    exact hpairs.lt
  · rw [Array.size_replicate]
    exact hpairs.involutive

theorem exists_searched : ∃ left, Complements.Searched r.value sibling g.numEdges g.edgeIds
    (g.search r.value sibling) left := by
  have hlt := hrouting.exists_next_iff hnone
  have hsearched := Complements.exists_searched (inStep_replicate hpairs hrouting hnone)
    (hpairs.paired hlt) g.edgeIds
  rwa [Array.size_replicate] at hsearched

end Search

/-- All circuits that a search has found are cycles. -/
theorem isCycle_of_searched {starts : List Nat} {n : Nat}
    {found : Outcome (List (List (Bool × List Nat)))} {left : Turns}
    (h : Complements.Searched turns sibling n starts found left) :
    ∀ c ∈ found.value, ∀ p ∈ c, turns.IsCycle p.2 := fun _ hc _ hp =>
  h.takes.isCycle _ (List.mem_map_of_mem (List.mem_flatten_of_mem hc hp))

section Undirected

variable {sort : ComparisonSort Spoke} (kind : LoopKind) (hundirected : g.options.isUndirected)
  (hdegenerates : g.options.degenerates ≠ .keep)

include hundirected hdegenerates

theorem not_keep_or_isDirected :
    ¬(g.options.degenerates = .keep ∨ g.options.isDirected = true) := by
  rintro (h | h)
  · exact hdegenerates h
  · rw [(g.options.isUndirected_iff).1 hundirected] at h
    cases h

/-- Where routing gives up, so does assembling components. -/
theorem undirectedComponents_of_error {f : Fault} (h : g.leftTurns sort = .error f) :
    g.undirectedComponents sort kind = .error f := by
  simp only [undirectedComponents, if_neg (not_keep_or_isDirected hundirected hdegenerates), h,
    error_bind]

theorem addUndirected_of_error (w : Workspace) {f : Fault} (h : g.leftTurns sort = .error f) :
    w.addUndirected g kind sort = .error f := by
  rw [Workspace.addUndirected, undirectedComponents_of_error kind hundirected hdegenerates h, error_bind]

/-- The components of an undirected graph are what the search finds, split, and put in order if there
is no error. -/
theorem exists_undirectedComponents {r : Outcome Turns} (hroute : g.leftTurns sort = .ok r)
    (hknown : g.KnowsInputs) (hproper : ∀ e < g.numEdges, (g.edge e).isDegenerate = false)
    (hpaired : ∀ e : Edge, g.edges.toList.count e = g.edges.toList.count e.reverse) :
    ∃ components sibling ids, g.siblingOf = .ok sibling ∧ g.Pairs sibling ∧
      g.minInputIds = .ok ids ∧
      g.undirectedComponents sort kind = .ok ⟨components, (g.search r.value sibling).error?⟩ ∧
      components.Perm ((g.search r.value sibling).value.map
        (Complements.split kind g.edge fun e => ids.getD e noInput)) ∧
      ((g.search r.value sibling).error? = none → components.Pairwise fun c d =>
        chainKey (fun e => ids.getD e noInput) (c.first.head?.getD []) ≤
          chainKey (fun e => ids.getD e noInput) (d.first.head?.getD [])) := by
  have hsibling := siblingOf_of_proper (Options.guaranteesSiblings_of_isUndirected hundirected) hproper
  have hpairs := pairs_inEdgeIds hpaired hproper
  obtain ⟨ids, hids, -⟩ := g.exists_minInputIds hknown
  obtain ⟨hrouting, hnone⟩ := isRouting_leftTurns_of_paired hroute hpaired hproper
  generalize (fun e => g.inEdgeIds.getD e 0) = sibling at hsibling hpairs
  obtain ⟨left, hsearched⟩ := exists_searched hpairs hrouting hnone
  have hcut := hrouting.ofComponents_eq kind (fun e => ids.getD e noInput)
    (isCycle_of_searched hsearched)
  have hcircuits : Complements.circuits sibling r.value (Array.replicate g.numEdges none) g.edgeIds =
      g.search r.value sibling := rfl
  cases herror : (g.search r.value sibling).error? with
  | none =>
      refine ⟨_, sibling, ids, hsibling, hpairs, hids, ?_, List.mergeSort_perm _ _,
        fun _ => pairwise_sortBy (· ≤ ·) (fun c : Complements => chainKey _ (c.first.head?.getD [])) _⟩
      simp only [undirectedComponents, if_neg (not_keep_or_isDirected hundirected hdegenerates), hroute,
        ok_bind, hnone, hsibling, hids, hcircuits, hcut, herror]
      rfl
  | some err =>
      refine ⟨_, sibling, ids, hsibling, hpairs, hids, ?_, .refl _,
        fun h => absurd (herror.symm.trans h) (Option.some_ne_none err)⟩
      simp only [undirectedComponents, if_neg (not_keep_or_isDirected hundirected hdegenerates), hroute,
        ok_bind, hnone, hsibling, hids, hcircuits, hcut, herror]
      rfl

end Undirected

/-- Adding the components of an undirected graph. Unless routing gives up, those found before an error
are added too. -/
theorem addUndirected_areComplements (sort : ComparisonSort Spoke) (g : Graph) (w : Workspace)
    (kind : LoopKind) (hundirected : g.options.isUndirected)
    (hdegenerates : g.options.degenerates ≠ .keep) (hknown : g.KnowsInputs)
    (hproper : ∀ e < g.numEdges, (g.edge e).isDegenerate = false)
    (hpaired : ∀ e : Edge, g.edges.toList.count e = g.edges.toList.count e.reverse) :
    g.GivesUp (w.addUndirected g kind sort) ∨ ∃ r components sibling ids error?,
      g.leftTurns sort = .ok r ∧ g.siblingOf = .ok sibling ∧ g.minInputIds = .ok ids ∧
        w.addUndirected g kind sort =
          .ok ({ w with undirected := w.undirected ++ components }, error?) ∧
        g.AreComplements r.value sibling (fun e => ids.getD e noInput) kind
          ⟨components, error?⟩ := by
  rcases g.leftTurns_cases sort with ⟨hroute, hclockwise⟩ | ⟨r, hroute, -⟩
  · exact .inl ⟨addUndirected_of_error kind hundirected hdegenerates w hroute, hclockwise⟩
  obtain ⟨components, sibling, ids, hsibling, hpairs, hids, hcomponents, hperm, hascending⟩ :=
    exists_undirectedComponents kind hundirected hdegenerates hroute hknown hproper hpaired
  obtain ⟨hrouting, hnone⟩ := isRouting_leftTurns_of_paired hroute hpaired hproper
  obtain ⟨left, hsearched⟩ := exists_searched hpairs hrouting hnone
  have hlt := hrouting.exists_next_iff hnone
  have hjoins : ∀ e f, r.value.next? e = some f →
      (g.edge e).dest = (g.edge f).origin := fun e f hf => (hrouting.joins e f hf).2.2
  have hcycles := isCycle_of_searched hsearched
  have hedges := flatMap_edges_perm _ kind hjoins hcycles hperm
  refine .inr ⟨r, components, sibling, ids, _, hroute, hsibling, hids, ?_, fun d hd => ?_, ?_,
    fun hok => ?_, hascending⟩
  · rw [Workspace.addUndirected, hcomponents]
    rfl
  · obtain ⟨c, hc, rfl⟩ := List.mem_map.1 (hperm.mem_iff.1 hd)
    exact isSplit_split _ kind hjoins (hcycles c hc) (fun e => (hlt e).1) hpairs
      (hsearched.sided c hc)
  · exact hedges.nodup_iff.2 hsearched.takes.nodup
  · exact hedges.trans (flatten_perm_of_exhausts hlt (hsearched.takes.exhausts (hsearched.starts hok)))

/-- Two triangles without a common vertex, each edge with its sibling. -/
def twoTriangles : Graph where
  options := { edgeType := .undirected, degenerates := .discardExcess }
  vertices := #[default, default, default, default, default, default]
  edges := #[⟨0, 1⟩, ⟨0, 2⟩, ⟨1, 0⟩, ⟨1, 2⟩, ⟨2, 0⟩, ⟨2, 1⟩,
    ⟨3, 4⟩, ⟨3, 5⟩, ⟨4, 3⟩, ⟨4, 5⟩, ⟨5, 3⟩, ⟨5, 4⟩]
  inputHandles := #[5, 3, 5, 4, 3, 4, 2, 0, 2, 1, 0, 1]
  inputSets := .empty
  labelHandles := #[]
  labelSets := .empty
  valid := rfl

theorem addUndirected_areComplements_twoTriangles : ∃ r components sibling ids error?,
    twoTriangles.leftTurns .standard = .ok r ∧ twoTriangles.siblingOf = .ok sibling ∧
      twoTriangles.minInputIds = .ok ids ∧
      Workspace.addUndirected {} twoTriangles .simple =
        .ok ({ undirected := components }, error?) ∧
      twoTriangles.AreComplements r.value sibling (fun e => ids.getD e noInput) .simple
        ⟨components, error?⟩ := by
  have hclockwise : twoTriangles.OrdersClockwise := by decide +kernel
  exact (addUndirected_areComplements .standard twoTriangles {} .simple rfl (by decide)
    (knowsInputs_of_singles (by decide)) (by decide)
    (twoTriangles.map_reverse_perm_iff.1 (by decide))).resolve_left
      fun hgives => hgives.2 hclockwise

/-- Every edge of the star has its sibling, and yet its components are not found. -/
theorem not_areComplements_collinearStar :
    ∃ g : Graph, g.options.isUndirected ∧ g.options.degenerates ≠ .keep ∧ g.KnowsInputs ∧
      (∀ e < g.numEdges, (g.edge e).isDegenerate = false) ∧
      (∀ e : Edge, g.edges.toList.count e = g.edges.toList.count e.reverse) ∧
      Workspace.addUndirected {} g .simple = .error .inconsistentOrder :=
  ⟨collinearStar { edgeType := .undirected, degenerates := .discard }, rfl, by decide,
    knowsInputs_collinearStar _, proper_collinearStar _, paired_collinearStar _,
    addUndirected_of_error .simple rfl (by decide) _ (leftTurns_collinearStar _)⟩

end Graph

end SnapGraph
