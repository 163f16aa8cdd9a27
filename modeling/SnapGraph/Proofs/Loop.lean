import Mathlib
import SnapGraph.Workspace
import SnapGraph.Proofs.ChainOrder
import SnapGraph.Proofs.Circuit
import SnapGraph.Proofs.Joins
import SnapGraph.Proofs.LeftTurn
import SnapGraph.Proofs.Peeling

/-! Loops use every edge once. The circuits of the left turns are its cycles, and a circuit is cut into
loops altogether. Beginning each loop at its canonical start and putting the loops in order only moves
what is there. -/

namespace SnapGraph

/-! ### The loops of a circuit -/

/-- The loops of either kind that a circuit consists of. -/
structure IsCut (edge : Nat → Edge) (kind : LoopKind) (circuit : List Nat)
    (loops : List (List Nat)) : Prop where
  perm : loops.flatten.Perm circuit
  ne_nil : ∀ l ∈ loops, l ≠ []
  joins : ∀ l ∈ loops, ∃ v, Joins edge v l v
  sublist : ∀ l ∈ loops, l.Sublist circuit
  simple : kind = .simple → ∀ l ∈ loops, (l.map fun e => (edge e).origin).Nodup
  circuit : kind = .circuit → loops = [circuit]

theorem isCut_loops {edge : Nat → Edge} {u : Int} {circuit : List Nat} (hne : circuit ≠ [])
    (h : Joins edge u circuit u) (kind : LoopKind) :
    IsCut edge kind circuit (kind.loops edge circuit) := by
  cases kind with
  | simple =>
      have hpeeled := peeled_of_closed h
      have hperm := hpeeled.perm
      rw [List.append_nil] at hperm
      exact ⟨hperm, fun l hl => (hpeeled.simple l hl).ne_nil, fun l hl => (hpeeled.simple l hl).joins,
        hpeeled.sublist, fun _ l hl => (hpeeled.simple l hl).nodup, nofun⟩
  | circuit =>
      have honly : ∀ l ∈ LoopKind.circuit.loops edge circuit, l = circuit := fun l hl =>
        List.mem_singleton.1 hl
      refine ⟨by simp [LoopKind.loops], fun l hl => ?_, fun l hl => ?_, fun l hl => ?_, nofun,
        fun _ => rfl⟩
      · exact honly l hl ▸ hne
      · exact honly l hl ▸ ⟨u, h⟩
      · exact honly l hl ▸ List.Sublist.refl _

theorem exists_isRotated_sublist {α : Type} {l l' c : List α} (hc : l.Sublist c)
    (hl : l.IsRotated l') : ∃ c', c.IsRotated c' ∧ l'.Sublist c' := by
  obtain ⟨n, rfl⟩ := hl
  rw [List.rotate_eq_drop_append_take_mod]
  rw [← List.take_append_drop (n % l.length) l] at hc
  obtain ⟨front, back, rfl, hfront, hback⟩ := List.append_sublist_iff.1 hc
  exact ⟨back ++ front, List.isRotated_append, hback.append hfront⟩

theorem flatten_map_perm {α : Type} {f : List α → List α} (hf : ∀ l, (f l).Perm l)
    (ls : List (List α)) : (ls.map f).flatten.Perm ls.flatten := by
  induction ls with
  | nil => exact .refl _
  | cons l ls ih =>
      rw [List.map_cons, List.flatten_cons, List.flatten_cons]
      exact (hf l).append ih

theorem flatten_flatMap_perm {α : Type} {f : List α → List (List α)} {ls : List (List α)}
    (hf : ∀ l ∈ ls, (f l).flatten.Perm l) : (ls.flatMap f).flatten.Perm ls.flatten := by
  induction ls with
  | nil => exact .refl _
  | cons l ls ih =>
      rw [List.flatMap_cons, List.flatten_append, List.flatten_cons]
      exact (hf l List.mem_cons_self).append (ih fun m hm => hf m (List.mem_cons_of_mem _ hm))

namespace Graph

/-! ### The loops of a graph -/

/-- What the loops of a graph are, given its left turns and the ids that order them. -/
structure AreLoops (g : Graph) (turns : Turns) (key : Nat → Int) (kind : LoopKind)
    (loops : List (List Nat)) : Prop where
  perm : loops.flatten.Perm g.edgeIds
  ne_nil : ∀ l ∈ loops, l ≠ []
  closed : ∀ l ∈ loops, IsClosed g.edge l
  circuit : kind = .circuit → (∀ l ∈ loops, turns.IsCycle l) ∧
    ∀ c, turns.IsCycle c → ∃ l ∈ loops, c.IsRotated l
  simple : kind = .simple → ∀ l ∈ loops, (l.map fun e => (g.edge e).origin).Nodup ∧
    ∃ c, turns.IsCycle c ∧ l.Sublist c
  canonical : ∀ l ∈ loops, canonicalLoop key l = l
  ascending : loops.Pairwise fun l m => chainKey key l ≤ chainKey key m

variable {g : Graph} {turns : Turns}

/-- A cycle of turns that join edges is a closed chain. -/
theorem joins_of_isCycle (hjoins : ∀ e f, turns.next? e = some f →
      (g.edge e).dest = (g.edge f).origin) {c : List Nat} (hc : turns.IsCycle c) :
    ∃ u, Joins g.edge u c u := by
  cases c with
  | nil => exact absurd rfl hc.1
  | cons e c =>
      have hclosed : IsClosed g.edge (e :: c) := hc.2.2.imp hjoins
      exact ⟨_, hclosed.joins⟩

section Exhausts

variable {circuits : List (List Nat)} (hlt : ∀ e, (∃ f, turns.next? e = some f) ↔ e < g.numEdges)
  (hexhausts : turns.Exhausts g.edgeIds circuits)

include hlt hexhausts

theorem exists_mem_of_exhausts {e : Nat} (he : e < g.numEdges) : ∃ c ∈ circuits, e ∈ c := by
  obtain ⟨f, hf⟩ := (hlt e).2 he
  exact List.mem_flatten.1 (hexhausts.covered e (g.mem_edgeIds.2 he) f hf)

theorem flatten_perm_of_exhausts : circuits.flatten.Perm g.edgeIds := by
  refine (List.perm_ext_iff_of_nodup hexhausts.nodup g.nodup_edgeIds).2 fun e => ?_
  rw [List.mem_flatten, mem_edgeIds]
  constructor
  · rintro ⟨c, hc, he⟩
    obtain ⟨f, -, hf⟩ := (hexhausts.isCycle c hc).exists_next he
    exact (hlt e).1 ⟨f, hf⟩
  · exact exists_mem_of_exhausts hlt hexhausts

/-- Every cycle is one of the circuits, up to where it begins. -/
theorem exists_isRotated_of_exhausts {c : List Nat} (hc : turns.IsCycle c) :
    ∃ d ∈ circuits, c.IsRotated d := by
  obtain ⟨e, he⟩ := List.exists_mem_of_ne_nil c hc.1
  obtain ⟨f, -, hf⟩ := hc.exists_next he
  obtain ⟨d, hd, hed⟩ := exists_mem_of_exhausts hlt hexhausts ((hlt e).1 ⟨f, hf⟩)
  exact ⟨d, hd, hc.isRotated_of_mem (hexhausts.isCycle d hd) he hed⟩

end Exhausts

/-- What loops made of some cycles are: cut, begun at their canonical starts and put in order. -/
structure Assembles (g : Graph) (turns : Turns) (key : Nat → Int) (kind : LoopKind)
    (circuits loops : List (List Nat)) : Prop where
  perm : loops.flatten.Perm circuits.flatten
  ne_nil : ∀ l ∈ loops, l ≠ []
  closed : ∀ l ∈ loops, IsClosed g.edge l
  circuit : kind = .circuit → loops.Perm (circuits.map (canonicalLoop key))
  simple : kind = .simple → ∀ l ∈ loops, (l.map fun e => (g.edge e).origin).Nodup ∧
    ∃ c, turns.IsCycle c ∧ l.Sublist c
  canonical : ∀ l ∈ loops, canonicalLoop key l = l
  ascending : loops.Pairwise fun l m => chainKey key l ≤ chainKey key m

section Assembles

variable (hjoins : ∀ e f, turns.next? e = some f → (g.edge e).dest = (g.edge f).origin)

include hjoins

theorem assembles {circuits : List (List Nat)} (hcycles : ∀ c ∈ circuits, turns.IsCycle c)
    (key : Nat → Int) (kind : LoopKind) : g.Assembles turns key kind circuits
      (orderChains key ((circuits.flatMap (kind.loops g.edge)).map (canonicalLoop key))) := by
  have hcut : ∀ c ∈ circuits, IsCut g.edge kind c (kind.loops g.edge c) := by
    intro c hc
    obtain ⟨u, hu⟩ := joins_of_isCycle hjoins (hcycles c hc)
    exact isCut_loops (hcycles c hc).1 hu kind
  have hmem : ∀ l ∈ orderChains key ((circuits.flatMap (kind.loops g.edge)).map
      (canonicalLoop key)), ∃ c ∈ circuits, ∃ m ∈ kind.loops g.edge c,
        canonicalLoop key m = l := by
    intro l hl
    obtain ⟨m, hm, rfl⟩ := List.mem_map.1 ((orderChains_perm key _).mem_iff.1 hl)
    obtain ⟨c, hc, hm⟩ := List.mem_flatMap.1 hm
    exact ⟨c, hc, m, hm, rfl⟩
  refine ⟨?_, fun l hl => ?_, fun l hl => ?_, fun hkind => ?_, fun hkind l hl => ?_,
    fun l hl => ?_, pairwise_orderChains key _⟩
  · apply (orderChains_perm key _).flatten.trans
    apply (flatten_map_perm (canonicalLoop_perm key) _).trans
    exact flatten_flatMap_perm fun c hc => (hcut c hc).perm
  · obtain ⟨c, hc, m, hm, rfl⟩ := hmem l hl
    intro hnil
    exact (hcut c hc).ne_nil m hm ((hnil ▸ canonicalLoop_perm key m).symm.eq_nil)
  · obtain ⟨c, hc, m, hm, rfl⟩ := hmem l hl
    obtain ⟨v, hv⟩ := (hcut c hc).joins m hm
    obtain ⟨v', hv'⟩ := hv.isRotated (canonicalLoop_isRotated key m)
    exact hv'.isClosed
  · have hsame : circuits.flatMap (kind.loops g.edge) = circuits := by
      rw [hkind]
      exact List.flatMap_singleton' circuits
    rw [hsame]
    exact orderChains_perm key _
  · obtain ⟨c, hc, m, hm, rfl⟩ := hmem l hl
    obtain ⟨c', hcc', hsub⟩ :=
      exists_isRotated_sublist ((hcut c hc).sublist m hm) (canonicalLoop_isRotated key m)
    refine ⟨?_, c', (hcycles c hc).isRotated hcc', hsub⟩
    exact ((canonicalLoop_perm key m).map _).nodup_iff.2 ((hcut c hc).simple hkind m hm)
  · obtain ⟨c, hc, m, hm, rfl⟩ := hmem l hl
    exact canonicalLoop_canonicalLoop key m

end Assembles

/-- The loops that turns trace, before they are rotated and put in order. -/
def tracedLoops (g : Graph) (turns : Turns) (kind : LoopKind) : List (List Nat) :=
  (turns.circuits g.edgeIds).flatMap (kind.loops g.edge)

/-- The circuits of a permutation that joins edges, cut into loops and put in order. -/
theorem areLoops (hlt : ∀ e, (∃ f, turns.next? e = some f) ↔ e < g.numEdges)
    (hclosed : turns.Closed)
    (hjoins : ∀ e f, turns.next? e = some f → (g.edge e).dest = (g.edge f).origin)
    (key : Nat → Int) (kind : LoopKind) : g.AreLoops turns key kind
      (orderChains key ((g.tracedLoops turns kind).map (canonicalLoop key))) := by
  have hexhausts := hclosed.exhausts g.edgeIds
  have hloops := assembles hjoins hexhausts.isCycle key kind
  refine ⟨hloops.perm.trans (flatten_perm_of_exhausts hlt hexhausts), hloops.ne_nil, hloops.closed,
    fun hkind => ⟨fun l hl => ?_, fun c hc => ?_⟩, hloops.simple, hloops.canonical,
    hloops.ascending⟩
  · obtain ⟨c, hc, rfl⟩ := List.mem_map.1 ((hloops.circuit hkind).mem_iff.1 hl)
    exact (hexhausts.isCycle c hc).isRotated (canonicalLoop_isRotated key c)
  · obtain ⟨d, hd, hcd⟩ := exists_isRotated_of_exhausts hlt hexhausts hc
    refine ⟨canonicalLoop key d, ?_, hcd.trans (canonicalLoop_isRotated key d)⟩
    exact (hloops.circuit hkind).mem_iff.2 (List.mem_map_of_mem hd)

/-- The edges of a cycle are edges of the graph. -/
theorem IsRouting.lt_of_isCycle {r : Outcome Turns} (h : g.IsRouting r) {c : List Nat}
    (hc : r.value.IsCycle c) {e : Nat} (he : e ∈ c) : e < g.numEdges := by
  obtain ⟨f, -, hf⟩ := hc.exists_next he
  exact (h.joins e f hf).1

/-- The circuits of a graph are cut by the table as they are cut by searching. -/
theorem IsRouting.cutAll_eq {r : Outcome Turns} (h : g.IsRouting r) (kind : LoopKind)
    {circuits : List (List Nat)} (hcycles : ∀ c ∈ circuits, r.value.IsCycle c) :
    kind.cutAll g.edge g.noPlaces circuits =
      .ok (circuits.map (kind.loops g.edge), g.noPlaces) := by
  refine kind.cutAll_eq (fun c hc => ?_) fun c hc e he => ?_
  · exact joins_of_isCycle (fun e f hf => (h.joins e f hf).2.2) (hcycles c hc)
  · exact g.inRange_edge (h.lt_of_isCycle (hcycles c hc) he)

section Directed

variable {sort : ComparisonSort Spoke} {kind : LoopKind} (hdirected : g.options.isDirected)
  (hdegenerates : g.options.degenerates ≠ .keep)

include hdirected hdegenerates

theorem not_keep_or_isUndirected :
    ¬(g.options.degenerates = .keep ∨ g.options.isUndirected = true) := by
  rintro (h | h)
  · exact hdegenerates h
  · rw [Options.isUndirected_iff, hdirected] at h
    cases h

/-- Where routing gives up, so does assembling loops. -/
theorem directedLoops_of_error {f : Fault} (h : g.leftTurns sort = .error f) :
    g.directedLoops sort kind = .error (.fault f) := by
  simp only [directedLoops, if_neg (not_keep_or_isUndirected hdirected hdegenerates), h,
    liftFault_error, error_bind]

theorem addLoops_of_error (w : Workspace) {f : Fault} (h : g.leftTurns sort = .error f) :
    w.addLoops g kind sort = .error f := by
  rw [Workspace.addLoops, directedLoops_of_error hdirected hdegenerates h]

variable {r : Outcome Turns} (hroute : g.leftTurns sort = .ok r)

include hroute

theorem directedLoops_of_error? {err : BuildError} (herr : r.error? = some err) :
    g.directedLoops sort kind = .error (.error err) := by
  simp only [directedLoops, if_neg (not_keep_or_isUndirected hdirected hdegenerates), hroute,
    liftFault_ok, ok_bind, herr]
  rfl

/-- Otherwise the loops are those of the circuits, begun at their canonical starts and put in order. -/
theorem directedLoops_of_none (hnone : r.error? = none) {ids : Array Int}
    (hids : g.minInputIds = .ok ids) : g.directedLoops sort kind =
      .ok (orderChains (fun e => ids.getD e noInput)
        ((g.tracedLoops r.value kind).map (canonicalLoop fun e => ids.getD e noInput))) := by
  have hrouting := isRouting_leftTurns hroute
  have hexhausts := (hrouting.closed hnone).exhausts g.edgeIds
  simp only [directedLoops, if_neg (not_keep_or_isUndirected hdirected hdegenerates), hroute,
    liftFault_ok, ok_bind, hnone, hids, hrouting.cutAll_eq kind hexhausts.isCycle]
  rfl

end Directed

section Adding

variable (sort : ComparisonSort Spoke) (g : Graph) (w : Workspace) (kind : LoopKind)
  (hdirected : g.options.isDirected) (hdegenerates : g.options.degenerates ≠ .keep)
  (hknown : g.KnowsInputs)

include hdirected hdegenerates hknown

/-- What adding loops comes to: routing gives up, or reports an error, or the circuits are cut. -/
theorem addLoops_cases :
    g.GivesUp (w.addLoops g kind sort) ∨ ∃ r, g.leftTurns sort = .ok r ∧ g.IsRouting r ∧
      (∀ err, r.error? = some err → w.addLoops g kind sort = .ok (w, some err)) ∧
      (r.error? = none → ∃ loops ids, g.minInputIds = .ok ids ∧
        w.addLoops g kind sort = .ok ({ w with loops := w.loops ++ loops }, none) ∧
        loops = orderChains (fun e => ids.getD e noInput)
          ((g.tracedLoops r.value kind).map (canonicalLoop fun e => ids.getD e noInput))) := by
  rcases g.leftTurns_cases sort with ⟨hroute, hclockwise⟩ | ⟨r, hroute, hrouting⟩
  · exact .inl ⟨addLoops_of_error hdirected hdegenerates w hroute, hclockwise⟩
  · refine .inr ⟨r, hroute, hrouting, fun err herr => ?_, fun hnone => ?_⟩
    · rw [Workspace.addLoops, directedLoops_of_error? hdirected hdegenerates hroute herr]
    · obtain ⟨ids, hids, -⟩ := g.exists_minInputIds hknown
      refine ⟨_, ids, hids, ?_, rfl⟩
      rw [Workspace.addLoops, directedLoops_of_none hdirected hdegenerates hroute hnone hids]

/-- Adding the loops of a directed graph. Unless routing gives up, an error of the routing is passed on,
and nothing is added then; without one the loops are added after those that are there. -/
theorem addLoops_areLoops :
    g.GivesUp (w.addLoops g kind sort) ∨ ∃ r, g.leftTurns sort = .ok r ∧ g.IsRouting r ∧
      (∀ err, r.error? = some err → w.addLoops g kind sort = .ok (w, some err)) ∧
      (r.error? = none → ∃ loops ids, g.minInputIds = .ok ids ∧
        w.addLoops g kind sort = .ok ({ w with loops := w.loops ++ loops }, none) ∧
        g.AreLoops r.value (fun e => ids.getD e noInput) kind loops) := by
  refine (addLoops_cases sort g w kind hdirected hdegenerates hknown).imp_right ?_
  rintro ⟨r, hroute, hrouting, herror, hloops⟩
  refine ⟨r, hroute, hrouting, herror, fun hnone => ?_⟩
  obtain ⟨_, ids, hids, hadd, rfl⟩ := hloops hnone
  exact ⟨_, ids, hids, hadd, areLoops (hrouting.exists_next_iff hnone) (hrouting.closed hnone)
    (fun e f hf => (hrouting.joins e f hf).2.2) _ kind⟩

end Adding

/-- Three edges around three vertices. -/
def triangle : Graph where
  options := { degenerates := .discard }
  vertices := #[default, default, default]
  edges := #[⟨0, 1⟩, ⟨1, 2⟩, ⟨2, 0⟩]
  inputHandles := #[0, 1, 2]
  inputSets := .empty
  labelHandles := #[]
  labelSets := .empty
  valid := rfl

theorem addLoops_areLoops_triangle : ∃ r, triangle.leftTurns .standard = .ok r ∧
    ∃ loops ids, triangle.minInputIds = .ok ids ∧
      Workspace.addLoops {} triangle .simple = .ok ({ loops := loops }, none) ∧
      triangle.AreLoops r.value (fun e => ids.getD e noInput) .simple loops := by
  have hknown : triangle.KnowsInputs := by
    intro handle hhandle
    simp only [triangle, List.mem_toArray, List.mem_cons, List.not_mem_nil, or_false] at hhandle
    rcases hhandle with rfl | rfl | rfl
    all_goals exact ⟨_, rfl⟩
  have hclockwise : triangle.OrdersClockwise := by decide +kernel
  rcases addLoops_areLoops .standard triangle {} .simple rfl (by decide) hknown with
    hgives | ⟨r, hroute, -, -, hloops⟩
  · exact absurd hclockwise hgives.2
  · have hturns : triangle.leftTurns .standard = .ok ⟨#[some 1, some 2, some 0], none⟩ := by cbv
    refine ⟨r, hroute, hloops ?_⟩
    rw [hturns] at hroute
    cases hroute
    rfl

/-- The edges of the star form loops, and yet none is cut. -/
theorem not_areLoops_collinearStar : ∃ g : Graph, g.options.isDirected ∧
    g.options.degenerates ≠ .keep ∧ g.KnowsInputs ∧
      Workspace.addLoops {} g .simple = .error .inconsistentOrder :=
  ⟨collinearStar { degenerates := .discard }, rfl, by decide, knowsInputs_collinearStar _,
    addLoops_of_error rfl (by decide) _ (leftTurns_collinearStar _)⟩

end Graph

end SnapGraph
