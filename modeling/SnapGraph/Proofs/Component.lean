import Mathlib
import SnapGraph.Workspace
import SnapGraph.Proofs.Explore
import SnapGraph.Proofs.Loop

/-! Components of directed sibling pairs. Exploring groups the cycles of the left turns so that the
sibling of an edge is in the component of the edge. The loops of all components are then the cycles,
each begun at its canonical start, and what is put in order within and between components is only
moved. -/

namespace SnapGraph

/-- In lists without a common element, an element of one is in no other. -/
theorem countP_mem_flatten {α : Type} [DecidableEq α] {ls : List (List α)} {a : α}
    (hnodup : ls.flatten.Nodup) (ha : a ∈ ls.flatten) : ls.countP (a ∈ ·) = 1 := by
  induction ls with
  | nil => exact absurd ha List.not_mem_nil
  | cons l ls ih =>
      rw [List.flatten_cons] at hnodup ha
      obtain ⟨-, hrest, hdisjoint⟩ := List.nodup_append.1 hnodup
      rcases List.mem_append.1 ha with hl | hls
      · have hnone : ls.countP (a ∈ ·) = 0 := by
          refine List.countP_eq_zero.2 fun m hm hmem => ?_
          exact hdisjoint a hl a (List.mem_flatten_of_mem hm (of_decide_eq_true hmem)) rfl
        rw [List.countP_cons, hnone, if_pos (decide_eq_true hl)]
      · have hl : a ∉ l := fun hl => hdisjoint a hl a hls rfl
        rw [List.countP_cons, ih hrest hls, if_neg (by simpa using hl)]

namespace Graph

variable {g : Graph} {turns : Turns} {sibling : Nat → Nat}

/-- Of the circuits, one is a given cycle up to where it begins. -/
theorem countP_isRotated_of_exhausts {circuits : List (List Nat)}
    (hlt : ∀ e, (∃ f, turns.next? e = some f) ↔ e < g.numEdges)
    (hexhausts : turns.Exhausts g.edgeIds circuits) {c : List Nat} (hc : turns.IsCycle c) :
    circuits.countP (fun d => c.IsRotated d) = 1 := by
  obtain ⟨e, he⟩ := List.exists_mem_of_ne_nil c hc.1
  obtain ⟨d, hd, hcd⟩ := exists_isRotated_of_exhausts hlt hexhausts hc
  have hmem : e ∈ circuits.flatten := List.mem_flatten_of_mem hd (hcd.mem_iff.1 he)
  rw [← countP_mem_flatten hexhausts.nodup hmem]
  refine List.countP_congr fun m hm => ?_
  rw [decide_eq_true_iff, decide_eq_true_iff]
  constructor
  · intro hcm
    exact hcm.mem_iff.1 he
  · intro hem
    exact hc.isRotated_of_mem (hexhausts.isCycle m hm) he hem

/-- Where the circuits begin makes no difference to that. -/
theorem countP_isRotated_map_canonicalLoop (key : Nat → Int) (circuits : List (List Nat))
    (c : List Nat) : (circuits.map (canonicalLoop key)).countP (fun d => c.IsRotated d) =
      circuits.countP fun d => c.IsRotated d := by
  rw [List.countP_map]
  refine List.countP_congr fun m _ => ?_
  have hm := canonicalLoop_isRotated key m
  rw [Function.comp_apply, decide_eq_true_iff, decide_eq_true_iff]
  exact ⟨fun h => h.trans hm.symm, fun h => h.trans hm⟩

section Arranged

variable (key : Nat → Int) (groups : List (List (List Nat))) {c : List (List Nat)}

/-- Groups of loops, each put in order, and then all of them. -/
def arranged : List (List (List Nat)) :=
  sortByKey (fun c => chainKey key (c.head?.getD []))
    (groups.map fun loops => orderChains key (loops.map (canonicalLoop key)))

theorem arranged_perm : (arranged key groups).Perm
    (groups.map fun loops => orderChains key (loops.map (canonicalLoop key))) :=
  List.mergeSort_perm _ _

theorem flatten_arranged_perm :
    (arranged key groups).flatten.Perm (groups.flatten.map (canonicalLoop key)) := by
  apply (arranged_perm key groups).flatten.trans
  rw [List.map_flatten, ← List.flatMap_def, ← List.flatMap_def]
  exact List.Perm.flatMap_left _ fun _ _ => orderChains_perm key _

theorem flatten_flatten_arranged_perm :
    (arranged key groups).flatten.flatten.Perm groups.flatten.flatten :=
  (flatten_arranged_perm key groups).flatten.trans (flatten_map_perm (canonicalLoop_perm key) _)

theorem pairwise_arranged : (arranged key groups).Pairwise fun c d =>
    chainKey key (c.head?.getD []) ≤ chainKey key (d.head?.getD []) :=
  pairwise_sortBy (· ≤ ·) (fun c : List (List Nat) => chainKey key (c.head?.getD [])) _

variable {key groups} (hc : c ∈ arranged key groups)

include hc

theorem exists_orderChains_eq :
    ∃ loops ∈ groups, orderChains key (loops.map (canonicalLoop key)) = c :=
  List.mem_map.1 ((arranged_perm key groups).mem_iff.1 hc)

/-- Putting groups in order does not move a loop from one to another. -/
theorem exists_group_perm : ∃ loops ∈ groups, c.Perm (loops.map (canonicalLoop key)) := by
  obtain ⟨loops, hloops, rfl⟩ := exists_orderChains_eq hc
  exact ⟨loops, hloops, orderChains_perm key _⟩

/-- Every loop of a group is a loop as it was, begun at its canonical start. -/
theorem exists_canonicalLoop_eq {l : List Nat} (hl : l ∈ c) :
    ∃ loops ∈ groups, ∃ m ∈ loops, canonicalLoop key m = l := by
  obtain ⟨loops, hloops, hperm⟩ := exists_group_perm hc
  exact ⟨loops, hloops, List.mem_map.1 (hperm.mem_iff.1 hl)⟩

theorem exists_group_flatten_perm : ∃ loops ∈ groups, c.flatten.Perm loops.flatten := by
  obtain ⟨loops, hloops, hperm⟩ := exists_group_perm hc
  exact ⟨loops, hloops, hperm.flatten.trans (flatten_map_perm (canonicalLoop_perm key) _)⟩

theorem canonicalLoop_of_mem_arranged : ∀ l ∈ c, canonicalLoop key l = l := by
  intro l hl
  obtain ⟨_, _, m, _, rfl⟩ := exists_canonicalLoop_eq hc hl
  exact canonicalLoop_canonicalLoop key m

theorem pairwise_of_mem_arranged :
    c.Pairwise fun l m => chainKey key l ≤ chainKey key m := by
  obtain ⟨loops, -, rfl⟩ := exists_orderChains_eq hc
  exact pairwise_orderChains key _

end Arranged

/-- What the components of a directed graph are, given its left turns, its siblings and the ids that
order edges. -/
structure AreComponents (g : Graph) (turns : Turns) (sibling : Nat → Nat) (key : Nat → Int)
    (components : List (List (List Nat))) : Prop where
  perm : components.flatten.flatten.Perm g.edgeIds
  ne_nil : ∀ c ∈ components, c ≠ []
  isCycle : ∀ c ∈ components, ∀ l ∈ c, turns.IsCycle l
  once : ∀ l, turns.IsCycle l → components.flatten.countP (fun m => l.IsRotated m) = 1
  siblings : ∀ c ∈ components, ∀ e ∈ c.flatten, sibling e ∈ c.flatten
  canonical : ∀ c ∈ components, ∀ l ∈ c, canonicalLoop key l = l
  loops_ascending : ∀ c ∈ components, c.Pairwise fun l m => chainKey key l ≤ chainKey key m
  ascending : components.Pairwise fun c d =>
    chainKey key (c.head?.getD []) ≤ chainKey key (d.head?.getD [])

/-- Groups of cycles become components when they are put in order. -/
theorem areComponents {groups : List (List (List Nat))}
    (hlt : ∀ e, (∃ f, turns.next? e = some f) ↔ e < g.numEdges)
    (hgrouped : turns.Grouped sibling g.edgeIds groups) (key : Nat → Int) :
    g.AreComponents turns sibling key (arranged key groups) := by
  refine ⟨?_, fun c hc => ?_, fun c hc l hl => ?_, fun l hl => ?_, fun c hc e he => ?_,
    fun c => canonicalLoop_of_mem_arranged, fun c => pairwise_of_mem_arranged,
    pairwise_arranged key groups⟩
  · exact (flatten_flatten_arranged_perm key groups).trans
      (flatten_perm_of_exhausts hlt hgrouped.exhausts)
  · obtain ⟨loops, hloops, hperm⟩ := exists_group_perm hc
    intro hnil
    rw [hnil] at hperm
    exact hgrouped.ne_nil loops hloops (List.map_eq_nil_iff.1 hperm.symm.eq_nil)
  · obtain ⟨loops, hloops, m, hm, rfl⟩ := exists_canonicalLoop_eq hc hl
    have hcycle := hgrouped.exhausts.isCycle m (List.mem_flatten_of_mem hloops hm)
    exact hcycle.isRotated (canonicalLoop_isRotated key m)
  · rw [(flatten_arranged_perm key groups).countP_eq, countP_isRotated_map_canonicalLoop]
    exact countP_isRotated_of_exhausts hlt hgrouped.exhausts hl
  · obtain ⟨loops, hloops, hperm⟩ := exists_group_flatten_perm hc
    exact hperm.mem_iff.2 (hgrouped.siblings loops hloops e (hperm.mem_iff.1 he))

/-! ### Adding components -/

/-- What is left of the circuits of all components. -/
def keptLoops (filaments : FilamentPolicy) (sibling : Nat → Nat) (n : Nat)
    (circuits : List (List (List Nat))) : Except Fault (List (List (List Nat))) :=
  match filaments with
  | .keep => .ok circuits
  | .discard => Pruning.components sibling (Array.replicate n none) circuits

section Directed

variable {sort : ComparisonSort Spoke} {filaments : FilamentPolicy}
  (hadmitted : admitsDirectedComponents g.options filaments)

include hadmitted

/-- Where routing gives up, so does assembling components. -/
theorem directedComponents_of_error {f : Fault} (h : g.leftTurns sort = .error f) :
    g.directedComponents sort filaments = .error (.fault f) := by
  simp only [directedComponents, hadmitted, h, liftFault_error, error_bind]
  rfl

theorem addDirected_of_error (w : Workspace) {f : Fault} (h : g.leftTurns sort = .error f) :
    w.addDirected g filaments sort = .error f := by
  rw [Workspace.addDirected, directedComponents_of_error hadmitted h]

/-- The components of a directed graph of sibling pairs are what is left of the groups of its cycles,
put in order. -/
theorem exists_directedComponents {r : Outcome Turns} (hroute : g.leftTurns sort = .ok r)
    (hknown : g.KnowsInputs) (hproper : ∀ e < g.numEdges, (g.edge e).isDegenerate = false)
    (hpaired : ∀ e : Edge, g.edges.toList.count e = g.edges.toList.count e.reverse) :
    ∃ groups ids, g.siblingOf = .ok (fun e => g.inEdgeIds.getD e 0) ∧ g.minInputIds = .ok ids ∧
      groups = r.value.components (fun e => g.inEdgeIds.getD e 0) g.edgeIds ∧
      r.value.Grouped (fun e => g.inEdgeIds.getD e 0) g.edgeIds groups ∧
      ∀ kept, keptLoops filaments (fun e => g.inEdgeIds.getD e 0) g.numEdges groups = .ok kept →
        g.directedComponents sort filaments =
          .ok (arranged (fun e => ids.getD e noInput) (kept.filter fun c => !c.isEmpty)) := by
  have hguarantees : g.options.guaranteesSiblings := by
    unfold admitsDirectedComponents at hadmitted
    simp only [Bool.and_eq_true] at hadmitted
    rw [Options.guaranteesSiblings, hadmitted.1.2, Bool.true_or]
  have hsibling := siblingOf_of_proper hguarantees hproper
  have hpairs := pairs_inEdgeIds hpaired hproper
  obtain ⟨ids, hids, -⟩ := g.exists_minInputIds hknown
  obtain ⟨hrouting, hnone⟩ := isRouting_leftTurns_of_paired hroute hpaired hproper
  have hlt := hrouting.exists_next_iff hnone
  have hgrouped := (hrouting.closed hnone).grouped (hpairs.paired hlt) g.edgeIds
  refine ⟨_, ids, hsibling, hids, rfl, hgrouped, fun kept hkept => ?_⟩
  simp only [directedComponents, hadmitted, hroute, liftFault_ok, ok_bind, hnone, hsibling, hids]
  cases filaments with
  | keep =>
      cases hkept
      rfl
  | discard =>
      rw [keptLoops] at hkept
      simp only [hkept, liftFault_ok, ok_bind]
      rfl

end Directed

theorem admitsDirectedComponents_keep {o : Options} (hdirected : o.isDirected)
    (hdegenerates : o.degenerates ≠ .keep) (hsiblings : o.siblings.pairsUp) :
    admitsDirectedComponents o .keep := by
  unfold admitsDirectedComponents
  rw [hdirected, hsiblings]
  cases hpolicy : o.degenerates with
  | discard => rfl
  | discardExcess => rfl
  | keep => exact absurd hpolicy hdegenerates

/-- Adding the components of a directed graph of sibling pairs, filaments kept. Unless routing gives up,
it succeeds. -/
theorem addDirected_areComponents (sort : ComparisonSort Spoke) (g : Graph) (w : Workspace)
    (hdirected : g.options.isDirected) (hdegenerates : g.options.degenerates ≠ .keep)
    (hsiblings : g.options.siblings.pairsUp) (hknown : g.KnowsInputs)
    (hproper : ∀ e < g.numEdges, (g.edge e).isDegenerate = false)
    (hpaired : ∀ e : Edge, g.edges.toList.count e = g.edges.toList.count e.reverse) :
    g.GivesUp (w.addDirected g .keep sort) ∨
      ∃ r components sibling ids, g.leftTurns sort = .ok r ∧ g.siblingOf = .ok sibling ∧
        g.minInputIds = .ok ids ∧
        w.addDirected g .keep sort = .ok ({ w with directed := w.directed ++ components }, none) ∧
        g.AreComponents r.value sibling (fun e => ids.getD e noInput) components := by
  have hadmitted := admitsDirectedComponents_keep hdirected hdegenerates hsiblings
  rcases g.leftTurns_cases sort with ⟨hroute, hclockwise⟩ | ⟨r, hroute, -⟩
  · exact .inl ⟨addDirected_of_error hadmitted w hroute, hclockwise⟩
  · obtain ⟨groups, ids, hsibling, hids, -, hgrouped, hcomponents⟩ :=
      exists_directedComponents hadmitted hroute hknown hproper hpaired
    obtain ⟨hrouting, hnone⟩ := isRouting_leftTurns_of_paired hroute hpaired hproper
    have hcomponents := hcomponents groups rfl
    rw [List.filter_eq_self.2 fun c hc => by simpa using hgrouped.ne_nil c hc] at hcomponents
    refine .inr ⟨r, _, _, ids, hroute, hsibling, hids, ?_,
      areComponents (hrouting.exists_next_iff hnone) hgrouped _⟩
    rw [Workspace.addDirected, hcomponents]

/-- An edge that was snapped to twice and lies beside another one, all with siblings. -/
def twoFilaments : Graph where
  options := { degenerates := .discardExcess, siblings := .create }
  vertices := #[default, default, default, default]
  edges := #[⟨0, 1⟩, ⟨0, 1⟩, ⟨1, 0⟩, ⟨1, 0⟩, ⟨2, 3⟩, ⟨3, 2⟩]
  inputHandles := #[1, 2, IdSets.emptyId, IdSets.emptyId, IdSets.emptyId, 0]
  inputSets := .empty
  labelHandles := #[]
  labelSets := .empty
  valid := rfl

theorem addDirected_areComponents_twoFilaments :
    ∃ r components sibling ids, twoFilaments.leftTurns .standard = .ok r ∧
      twoFilaments.siblingOf = .ok sibling ∧ twoFilaments.minInputIds = .ok ids ∧
      Workspace.addDirected {} twoFilaments .keep = .ok ({ directed := components }, none) ∧
      twoFilaments.AreComponents r.value sibling (fun e => ids.getD e noInput) components := by
  have hclockwise : twoFilaments.OrdersClockwise := by decide +kernel
  exact (addDirected_areComponents .standard twoFilaments {} rfl (by decide) rfl
    (knowsInputs_of_singles (by decide)) (by decide)
    (twoFilaments.map_reverse_perm_iff.1 (by decide))).resolve_left
      fun hgives => hgives.2 hclockwise

/-- Every edge of the star has its sibling, and yet its components are not found. -/
theorem not_areComponents_collinearStar :
    ∃ g : Graph, g.options.isDirected ∧ g.options.degenerates ≠ .keep ∧ g.options.siblings.pairsUp ∧
      g.KnowsInputs ∧ (∀ e < g.numEdges, (g.edge e).isDegenerate = false) ∧
      (∀ e : Edge, g.edges.toList.count e = g.edges.toList.count e.reverse) ∧
      Workspace.addDirected {} g .keep = .error .inconsistentOrder :=
  ⟨collinearStar { degenerates := .discard, siblings := .require }, rfl, by decide, rfl,
    knowsInputs_collinearStar _, proper_collinearStar _, paired_collinearStar _,
    addDirected_of_error rfl _ (leftTurns_collinearStar _)⟩

end Graph

end SnapGraph
