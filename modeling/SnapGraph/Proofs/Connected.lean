import Mathlib
import SnapGraph.Proofs.Clockwise
import SnapGraph.Proofs.Complement
import SnapGraph.Proofs.Component

/-! Components are connected components. Exploring only ever follows a turn or goes over to a sibling,
and both share a vertex with the edge before, so what it reaches is linked to where it began. For the
converse, the turns around a vertex must lead through all its edges, and that they do only where the
compass orders neighbours: then the sibling of each edge that leaves a vertex turns to the next one. -/

namespace SnapGraph

namespace Turns

variable {turns left : Turns} {sibling : Nat → Nat} {start e f : Nat}

/-! ### What exploring reaches -/

/-- The turn of an edge, or the sibling of an edge that has a turn. -/
def Leads (turns : Turns) (sibling : Nat → Nat) (e f : Nat) : Prop :=
  turns.next? e = some f ∨ (∃ g, turns.next? e = some g) ∧ sibling e = f

/-- One edge leads to another by turns and siblings. -/
def Reaches (turns : Turns) (sibling : Nat → Nat) : Nat → Nat → Prop :=
  Relation.ReflTransGen (turns.Leads sibling)

theorem Reaches.mono (hleft : ∀ e f, left.next? e = some f → turns.next? e = some f)
    (h : left.Reaches sibling e f) : turns.Reaches sibling e f := by
  refine Relation.ReflTransGen.mono (fun a b hab => ?_) _ _ h
  rcases hab with hab | ⟨⟨g, hag⟩, hab⟩
  · exact .inl (hleft a b hab)
  · exact .inr ⟨⟨g, hleft a g hag⟩, hab⟩

/-- A class of edges that the turns do not lead out of has all edges of a cycle or none. -/
theorem IsCycle.imp_of_turns {l : List Nat} (hl : turns.IsCycle l) {P : Nat → Prop}
    (hturns : ∀ e f, turns.next? e = some f → P e → P f) (he : e ∈ l) (hf : f ∈ l) (hP : P e) :
    P f := by
  have hchain : Cycle.Chain (fun e f => P e → P f) (l : Cycle Nat) := hl.2.2.imp hturns
  have htrans : IsTrans Nat fun e f => P e → P f := ⟨fun _ _ _ hab hbc => hbc ∘ hab⟩
  exact Cycle.chain_iff_pairwise.1 hchain e he f hf hP

section Invariant

variable {P : Nat → Prop} (hturns : ∀ e f, turns.next? e = some f → P e → P f)
  (hsiblings : ∀ e f, turns.next? e = some f → P e → P (sibling e))

include hturns

theorem Closed.forall_mem_circuit (h : turns.Closed) (hf : turns.next? start = some f)
    (hstart : P start) : ∀ e ∈ (turns.circuit start).1, P e := by
  obtain ⟨hcycle, hmem⟩ := h.isCycle_circuit hf
  exact fun e he => hcycle.imp_of_turns hturns hmem he hstart

include hsiblings

/-- A class of edges closed under turns and siblings holds everything that is explored from it. -/
theorem Closed.forall_mem_explore (h : turns.Closed) {frontier : List Nat}
    (hfrontier : ∀ e ∈ frontier, P e) : ∀ e ∈ (turns.explore sibling frontier).1.flatten, P e := by
  fun_induction explore sibling turns frontier with
  | case1 turns => simp
  | case2 turns start frontier hnone ih =>
      exact ih hturns hsiblings h (List.forall_mem_cons.1 hfrontier).2
  | case3 turns start frontier f hf circuit found rest circuits left heq ih =>
      obtain ⟨hstart, hfrontier⟩ := List.forall_mem_cons.1 hfrontier
      obtain ⟨hcircuit, hrest⟩ := follow_eq sibling turns start
      have hmem : ∀ e ∈ circuit, P e := by
        intro e he
        rw [show circuit = _ from hcircuit] at he
        exact h.forall_mem_circuit hturns hf hstart e he
      have hleft : ∀ a b, rest.next? a = some b → turns.next? a = some b := by
        intro a b hab
        rw [show rest = _ from hrest] at hab
        exact (next?_circuit_eq_some_iff.1 hab).2
      have hclosed : rest.Closed := by
        rw [show rest = _ from hrest]
        exact h.closed_left hf
      have ih := ih (fun a b hab => hturns a b (hleft a b hab))
        (fun a b hab => hsiblings a b (hleft a b hab)) hclosed
        (List.forall_mem_append.2 ⟨fun s hs => ?_, hfrontier⟩)
      · rw [heq] at ih
        exact List.forall_mem_append.2 ⟨hmem, ih⟩
      · obtain ⟨e, he, rfl⟩ := exists_of_mem_found (List.mem_reverse.1 hs)
        have hcycle := (h.isCycle_circuit hf).1
        rw [← hcircuit] at hcycle
        obtain ⟨g, -, hg⟩ := hcycle.exists_next he
        exact hsiblings e g hg (hmem e he)

/-- So it does where sides are given. -/
theorem InStep.forall_mem_exploreSides {sides : Sides} (h : turns.InStep sides sibling)
    {frontier : List (Nat × Bool)} (hfrontier : ∀ p ∈ frontier, P p.1) {x : Exploration}
    (hx : turns.exploreSides sibling sides frontier = .ok x) :
    ∀ p ∈ x.circuits, ∀ e ∈ p.2, P e := by
  fun_induction exploreSides sibling turns sides frontier generalizing x with
  | case1 turns sides =>
      cases hx
      simp
  | case2 turns sides start side frontier hnone ih =>
      exact ih hturns hsiblings h (List.forall_mem_cons.1 hfrontier).2 hx
  | case3 => cases hx
  | case4 => cases hx
  | case5 turns sides start side frontier f hf circuit found after hclaim onward y hy ih =>
      cases hx
      obtain ⟨hstart, hfrontier⟩ := List.forall_mem_cons.1 hfrontier
      have hcircuit : ∀ e ∈ circuit, P e := h.closed.forall_mem_circuit hturns hf hstart
      have hrest : ∀ a b, (turns.circuit start).2.next? a = some b → turns.next? a = some b :=
        fun a b hab => (next?_circuit_eq_some_iff.1 hab).2
      have hclaimed := h.claimed hf hclaim
      refine List.forall_mem_cons.2 ⟨hcircuit, ih (fun a b hab => hturns a b (hrest a b hab))
        (fun a b hab => hsiblings a b (hrest a b hab)) (h.circuit hf hclaimed)
        (List.forall_mem_append.2 ⟨fun p hp => ?_, hfrontier⟩) hy⟩
      obtain ⟨s, hs, rfl⟩ := List.mem_map.1 hp
      obtain ⟨⟨e, he, rfl⟩, -⟩ := (hclaimed.mem_found s).1 (List.mem_reverse.1 hs)
      obtain ⟨g, -, hg⟩ := (h.closed.isCycle_circuit hf).1.exists_next he
      exact hsiblings e g hg (hcircuit e he)

end Invariant

theorem Reaches.refl (turns : Turns) (sibling : Nat → Nat) (e : Nat) : turns.Reaches sibling e e :=
  Relation.ReflTransGen.refl

theorem Reaches.turn (h : turns.Reaches sibling start e) (hf : turns.next? e = some f) :
    turns.Reaches sibling start f := Relation.ReflTransGen.tail h (.inl hf)

theorem Reaches.over (h : turns.Reaches sibling start e) (hf : turns.next? e = some f) :
    turns.Reaches sibling start (sibling e) := Relation.ReflTransGen.tail h (.inr ⟨⟨f, hf⟩, rfl⟩)

/-- One edge leads to all edges of its component. -/
theorem Closed.exists_root (h : turns.Closed) (hpaired : turns.Paired sibling) (starts : List Nat) :
    ∀ c ∈ turns.components sibling starts,
      ∃ root, ∀ e ∈ c.flatten, turns.Reaches sibling root e := by
  fun_induction components sibling turns starts with
  | case1 turns => simp
  | case2 turns start starts hnone ih => exact ih h hpaired
  | case3 turns start starts f hf circuits rest heq ih =>
      have hexplored := h.explored sibling [start]
      have hroot := h.forall_mem_explore (P := turns.Reaches sibling start)
        (fun _ _ hf he => Reaches.turn he hf) (fun _ _ hf he => Reaches.over he hf)
        (List.forall_mem_singleton.2 (.refl turns sibling start))
      rw [heq] at hexplored hroot
      refine List.forall_mem_cons.2 ⟨⟨start, hroot⟩, fun c hc => ?_⟩
      obtain ⟨root, hroot⟩ := ih hexplored.takes.closed (hexplored.paired_left hpaired) c hc
      refine ⟨root, fun e he => (hroot e he).mono fun a b hab => ?_⟩
      exact (hexplored.takes.next?_eq_some_iff.1 hab).2

end Turns

open Turns in
theorem Complements.exists_root {turns : Turns} {sides : Sides} {sibling : Nat → Nat}
    (h : turns.InStep sides sibling) (hpaired : turns.Paired sibling) (starts : List Nat) :
    ∀ c ∈ (circuits sibling turns sides starts).value,
      ∃ root, ∀ p ∈ c, ∀ e ∈ p.2, turns.Reaches sibling root e := by
  fun_induction circuits sibling turns sides starts with
  | case1 => simp
  | case2 turns sides start starts hnone ih => exact ih h hpaired
  | case3 => simp
  | case4 turns sides start starts f hf x hx others ih =>
      rcases h.sided_or_error [(start, false)] with ⟨y, hy, hsided⟩ | ⟨e, -, herror⟩
      · cases hx.symm.trans hy
        have hstart : ∀ p ∈ [(start, false)], turns.Reaches sibling start p.1 :=
          List.forall_mem_singleton.2 (.refl turns sibling start)
        have hroot := h.forall_mem_exploreSides (fun _ _ hf he => Reaches.turn he hf)
          (fun _ _ hf he => Reaches.over he hf) hstart hx
        refine List.forall_mem_cons.2 ⟨⟨start, hroot⟩, fun c hc => ?_⟩
        obtain ⟨root, hroot⟩ := ih hsided.inStep (hsided.explored.paired_left hpaired) c hc
        refine ⟨root, fun p hp e he => (hroot p hp e he).mono fun a b hab => ?_⟩
        exact (hsided.explored.takes.next?_eq_some_iff.1 hab).2
      · cases hx.symm.trans herror

namespace Graph

variable {g : Graph} {sibling : Nat → Nat} {components : List (List Nat)}

/-! ### Linked edges -/

/-- Two edges share a vertex. -/
def Meets (g : Graph) (e f : Nat) : Prop :=
  e < g.numEdges ∧ f < g.numEdges ∧ ∃ v, (g.edge e).touches v ∧ (g.edge f).touches v

theorem Meets.symm {e f : Nat} (h : g.Meets e f) : g.Meets f e := by
  obtain ⟨he, hf, v, hev, hfv⟩ := h
  exact ⟨hf, he, v, hfv, hev⟩

/-- Lists of edges that are the connected components of a graph: two edges are in one list exactly if
a chain of edges links them in which consecutive ones share a vertex. -/
structure AreConnected (g : Graph) (components : List (List Nat)) : Prop where
  perm : components.flatten.Perm g.edgeIds
  ne_nil : ∀ c ∈ components, c ≠ []
  linked : ∀ e < g.numEdges, ∀ f < g.numEdges,
    (∃ c ∈ components, e ∈ c ∧ f ∈ c) ↔ Relation.ReflTransGen g.Meets e f

theorem meets_of_leads {turns : Turns} (hpairs : g.Pairs sibling)
    (hjoins : ∀ e f, turns.next? e = some f →
      e < g.numEdges ∧ f < g.numEdges ∧ (g.edge e).dest = (g.edge f).origin) {e f : Nat}
    (h : turns.Leads sibling e f) : g.Meets e f := by
  rcases h with hf | ⟨⟨f', hf⟩, rfl⟩
  · obtain ⟨he, hf, hjoin⟩ := hjoins e f hf
    exact ⟨he, hf, (g.edge e).dest, by simp [Edge.touches], by simp [Edge.touches, hjoin]⟩
  · obtain ⟨he, -⟩ := hjoins e f' hf
    refine ⟨he, hpairs.lt e he, (g.edge e).origin, by simp [Edge.touches], ?_⟩
    simp [Edge.touches, hpairs.edge e he]

/-- What leads from each member of a list to the next one, and from the last to the first, leads
around. -/
theorem imp_of_rotate {l : List Nat} {P : Nat → Prop}
    (h : ∀ p ∈ l.zip (l.rotate 1), P p.1 → P p.2) {a b : Nat} (ha : a ∈ l) (hb : b ∈ l) :
    P a → P b := by
  have htrans : IsTrans Nat fun a b => P a → P b := ⟨fun _ _ _ hab hbc => hbc ∘ hab⟩
  have hchain : Cycle.Chain (fun a b => P a → P b) (l : Cycle Nat) := by
    cases l with
    | nil => exact Cycle.Chain.nil _
    | cons c l =>
        rw [Cycle.chain_coe_cons, List.isChain_cons_iff_forall₂, List.dropLast_concat,
          List.forall₂_iff_zip]
        refine .inr ⟨by simp, fun hab => h (_, _) ?_⟩
        rwa [List.rotate_cons_succ, List.rotate_zero]
  exact Cycle.chain_iff_pairwise.1 hchain a ha b hb

section Clockwise

variable {sort : ComparisonSort Spoke} {r : Outcome Turns} (hroute : g.leftTurns sort = .ok r)
  (hproper : ∀ e < g.numEdges, (g.edge e).isDegenerate = false)
  (hpaired : ∀ e : Edge, g.edges.toList.count e = g.edges.toList.count e.reverse)
  (hclockwise : g.OrdersClockwise) (hnumeric : g.HasNumericVertices)

include hroute hproper hpaired hclockwise hnumeric

omit hproper in
/-- A class of edges closed under turns and siblings has all edges that leave a vertex or none. -/
theorem imp_of_mem_departures {P : Nat → Prop}
    (hturns : ∀ e f, r.value.next? e = some f → P e → P f)
    (hsiblings : ∀ e < g.numEdges, P e → P (g.inEdgeIds.getD e 0)) {v : Int} {e f : Nat}
    (he : e ∈ g.departures v) (hf : f ∈ g.departures v) : P e → P f := by
  obtain ⟨outs, hperm, hnext⟩ := exists_turns_around hpaired hclockwise hnumeric hroute v
  refine imp_of_rotate (fun p hp ha => ?_) (hperm.mem_iff.2 he) (hperm.mem_iff.2 hf)
  obtain ⟨a, b⟩ := p
  have hlt := (mem_departures.1 (hperm.mem_iff.1 (List.of_mem_zip hp).1)).1
  apply hturns _ _ (hnext (g.inEdgeIds.getD a 0, b) _) (hsiblings a hlt ha)
  rw [List.zip_map_left]
  exact List.mem_map_of_mem (f := Prod.map (fun e => g.inEdgeIds.getD e 0) id) hp

/-- So it has all edges at a vertex or none. -/
theorem imp_of_meets {P : Nat → Prop}
    (hturns : ∀ e f, r.value.next? e = some f → P e → P f)
    (hsiblings : ∀ e < g.numEdges, P e → P (g.inEdgeIds.getD e 0)) {e f : Nat}
    (h : g.Meets e f) (hP : P e) : P f := by
  have hpairs := pairs_inEdgeIds hpaired hproper
  obtain ⟨he, hf, v, hev, hfv⟩ := h
  have hleaves : ∀ a < g.numEdges, (g.edge a).touches v →
      a ∈ g.departures v ∨ g.inEdgeIds.getD a 0 ∈ g.departures v := by
    intro a ha htouches
    simp only [Edge.touches, Bool.or_eq_true, beq_iff_eq] at htouches
    rw [mem_departures, mem_departures, hpairs.edge a ha]
    refine htouches.imp (fun horigin => ⟨ha, horigin, hproper a ha⟩) fun hdest =>
      ⟨hpairs.lt a ha, hdest, ?_⟩
    rw [Edge.isDegenerate_reverse]
    exact hproper a ha
  obtain ⟨a, ha, hPa⟩ : ∃ a ∈ g.departures v, P a := by
    rcases hleaves e he hev with hmem | hmem
    · exact ⟨e, hmem, hP⟩
    · exact ⟨_, hmem, hsiblings e he hP⟩
  rcases hleaves f hf hfv with hmem | hmem
  · exact imp_of_mem_departures hroute hpaired hclockwise hnumeric hturns hsiblings ha hmem hPa
  · rw [← hpairs.involutive f hf]
    apply hsiblings _ (hpairs.lt f hf)
    exact imp_of_mem_departures hroute hpaired hclockwise hnumeric hturns hsiblings ha hmem hPa

/-- The edges of groups of cycles are the connected components, if each group is closed under siblings
and reached from one edge. -/
theorem areConnected {groups : List (List (List Nat))} (hperm : components.flatten.Perm g.edgeIds)
    (hgroup : ∀ c ∈ components, ∃ d ∈ groups, c.Perm d.flatten)
    (hne : ∀ d ∈ groups, d ≠ []) (hcycles : ∀ d ∈ groups, ∀ l ∈ d, r.value.IsCycle l)
    (hsiblings : ∀ d ∈ groups, ∀ e ∈ d.flatten, g.inEdgeIds.getD e 0 ∈ d.flatten)
    (hroot : ∀ d ∈ groups, ∃ root, ∀ e ∈ d.flatten,
      r.value.Reaches (fun e => g.inEdgeIds.getD e 0) root e) :
    g.AreConnected components := by
  have hpairs := pairs_inEdgeIds hpaired hproper
  obtain ⟨hrouting, -⟩ := isRouting_leftTurns_of_paired hroute hpaired hproper
  have hsymm : Std.Symm g.Meets := ⟨fun _ _ => Meets.symm⟩
  refine ⟨hperm, fun c hc => ?_, fun e he f hf => ⟨?_, fun h => ?_⟩⟩
  · obtain ⟨d, hd, hcd⟩ := hgroup c hc
    obtain ⟨l, hl⟩ := List.exists_mem_of_ne_nil d (hne d hd)
    obtain ⟨e, he⟩ := List.exists_mem_of_ne_nil l (hcycles d hd l hl).1
    exact List.ne_nil_of_mem (hcd.mem_iff.2 (List.mem_flatten_of_mem hl he))
  · rintro ⟨c, hc, hec, hfc⟩
    obtain ⟨d, hd, hcd⟩ := hgroup c hc
    obtain ⟨root, hroot⟩ := hroot d hd
    have hmeets : ∀ e ∈ c, Relation.ReflTransGen g.Meets root e := fun e he =>
      Relation.ReflTransGen.mono (fun _ _ => meets_of_leads hpairs hrouting.joins) _ _
        (hroot e (hcd.mem_iff.1 he))
    exact (Relation.ReflTransGen.stdSymm.symm _ _ (hmeets e hec)).trans (hmeets f hfc)
  · obtain ⟨c, hc, hec⟩ := List.mem_flatten.1 (hperm.mem_iff.2 (g.mem_edgeIds.2 he))
    obtain ⟨d, hd, hcd⟩ := hgroup c hc
    have hturns : ∀ e f, r.value.next? e = some f → e ∈ d.flatten → f ∈ d.flatten := by
      intro e f hf he
      obtain ⟨l, hl, he⟩ := List.mem_flatten.1 he
      obtain ⟨f', hf', hnext⟩ := (hcycles d hd l hl).exists_next he
      cases hf.symm.trans hnext
      exact List.mem_flatten_of_mem hl hf'
    refine ⟨c, hc, hec, hcd.mem_iff.2 ?_⟩
    induction h with
    | refl => exact hcd.mem_iff.1 hec
    | tail _ hab ih =>
        exact imp_of_meets hroute hproper hpaired hclockwise hnumeric hturns
          (fun e _ => hsiblings d hd e) hab (ih hab.1)

/-! ### Components that are added -/

theorem exists_addDirected_areConnected (w : Workspace) (hdegenerates : g.options.degenerates ≠ .keep)
    (hknown : g.KnowsInputs) (hdirected : g.options.isDirected)
    (hsiblings : g.options.siblings.pairsUp) : ∃ components,
    w.addDirected g .keep sort = .ok ({ w with directed := w.directed ++ components }, none) ∧
      g.AreConnected (components.map List.flatten) := by
  obtain ⟨groups, ids, -, -, hgroups, hgrouped, hcomponents⟩ := exists_directedComponents
    (admitsDirectedComponents_keep hdirected hdegenerates hsiblings) hroute hknown hproper hpaired
  have hpairs := pairs_inEdgeIds hpaired hproper
  obtain ⟨hrouting, hnone⟩ := isRouting_leftTurns_of_paired hroute hpaired hproper
  have hlt := hrouting.exists_next_iff hnone
  have hroot := (hrouting.closed hnone).exists_root (hpairs.paired hlt) g.edgeIds
  have hcomponents := hcomponents groups rfl
  rw [List.filter_eq_self.2 fun c hc => by simpa using hgrouped.ne_nil c hc] at hcomponents
  have hperm := (areComponents hlt hgrouped fun e => ids.getD e noInput).perm
  refine ⟨_, by rw [Workspace.addDirected, hcomponents], ?_⟩
  apply areConnected hroute hproper hpaired hclockwise hnumeric _ _ hgrouped.ne_nil _ hgrouped.siblings
  · exact hgroups ▸ hroot
  · rwa [← List.flatten_flatten]
  · exact List.forall_mem_map.2 fun c => exists_group_flatten_perm
  · exact fun d hd l hl => hgrouped.exhausts.isCycle l (List.mem_flatten_of_mem hd hl)

theorem exists_addUndirected_areConnected (w : Workspace)
    (hdegenerates : g.options.degenerates ≠ .keep) (hknown : g.KnowsInputs)
    (hundirected : g.options.isUndirected) (kind : LoopKind) : ∃ components error?,
    w.addUndirected g kind sort = .ok ({ w with undirected := w.undirected ++ components }, error?) ∧
      (error? = none → g.AreConnected (components.map Complements.edges)) := by
  obtain ⟨components, sibling, ids, hsibling, hpairs, -, hcomponents, hperm, -⟩ :=
    exists_undirectedComponents kind hundirected hdegenerates hroute hknown hproper hpaired
  have hguarantees := Options.guaranteesSiblings_of_isUndirected hundirected
  cases hsibling.symm.trans (siblingOf_of_proper hguarantees hproper)
  obtain ⟨hrouting, hnone⟩ := isRouting_leftTurns_of_paired hroute hpaired hproper
  obtain ⟨left, hsearched⟩ := exists_searched hpairs hrouting hnone
  have hlt := hrouting.exists_next_iff hnone
  have hjoins : ∀ e f, r.value.next? e = some f →
      (g.edge e).dest = (g.edge f).origin := fun e f hf => (hrouting.joins e f hf).2.2
  have hroot := Complements.exists_root (inStep_replicate hpairs hrouting hnone) (hpairs.paired hlt)
    g.edgeIds
  have hcycles := isCycle_of_searched hsearched
  have hgroup : ∀ c ∈ components.map Complements.edges,
      ∃ d ∈ (g.search r.value fun e => g.inEdgeIds.getD e 0).value.map (List.map Prod.snd),
        c.Perm d.flatten := by
    refine List.forall_mem_map.2 fun d hd => ?_
    obtain ⟨c, hc, rfl⟩ := List.mem_map.1 (hperm.mem_iff.1 hd)
    exact ⟨_, List.mem_map_of_mem hc, edges_split_perm _ kind hjoins (hcycles c hc)⟩
  refine ⟨components, _, by rw [Workspace.addUndirected, hcomponents]; rfl, fun hok => ?_⟩
  refine areConnected hroute hproper hpaired hclockwise hnumeric ?_ hgroup
    (List.forall_mem_map.2 fun c hc => ?_) (List.forall_mem_map.2 fun c hc => ?_)
    (List.forall_mem_map.2 fun c hc e he => ?_) (List.forall_mem_map.2 fun c hc => ?_)
  · rw [← List.flatMap_def]
    exact (flatMap_edges_perm _ kind hjoins hcycles hperm).trans
      (flatten_perm_of_exhausts hlt (hsearched.takes.exhausts (hsearched.starts hok)))
  · exact fun hnil => (hsearched.sided c hc).ne_nil (List.map_eq_nil_iff.1 hnil)
  · exact List.forall_mem_map.2 (hcycles c hc)
  · obtain ⟨l, hl, he⟩ := List.mem_flatten.1 he
    obtain ⟨p, hp, rfl⟩ := List.mem_map.1 hl
    obtain ⟨q, hq, -, hsibling⟩ := (hsearched.sided c hc).opposite p hp e he
    exact List.mem_flatten_of_mem (List.mem_map_of_mem hq) hsibling
  · obtain ⟨root, hroot⟩ := hroot c hc
    refine ⟨root, fun e he => ?_⟩
    obtain ⟨l, hl, he⟩ := List.mem_flatten.1 he
    obtain ⟨p, hp, rfl⟩ := List.mem_map.1 hl
    exact hroot p hp e he

end Clockwise

/-- Where the compass orders neighbours, the components that are added are the connected components. -/
theorem addedComponents_areConnected (sort : ComparisonSort Spoke) (g : Graph) (w : Workspace)
    (hdegenerates : g.options.degenerates ≠ .keep) (hknown : g.KnowsInputs)
    (hproper : ∀ e < g.numEdges, (g.edge e).isDegenerate = false)
    (hpaired : ∀ e : Edge, g.edges.toList.count e = g.edges.toList.count e.reverse)
    (hclockwise : g.OrdersClockwise) (hnumeric : g.HasNumericVertices) :
    (g.options.isDirected → g.options.siblings.pairsUp → ∃ components,
      w.addDirected g .keep sort = .ok ({ w with directed := w.directed ++ components }, none) ∧
        g.AreConnected (components.map List.flatten)) ∧
    (g.options.isUndirected → ∀ kind, ∃ components error?,
      w.addUndirected g kind sort =
        .ok ({ w with undirected := w.undirected ++ components }, error?) ∧
        (error? = none → g.AreConnected (components.map Complements.edges))) := by
  obtain ⟨r, hroute, -⟩ := (g.leftTurns_cases sort).resolve_left fun hgives => hgives.2 hclockwise
  exact ⟨exists_addDirected_areConnected hroute hproper hpaired hclockwise hnumeric w hdegenerates hknown,
    exists_addUndirected_areConnected hroute hproper hpaired hclockwise hnumeric w hdegenerates hknown⟩

/-- A path of two edges and an edge apart from it, all with siblings. -/
def pathAndEdge : Graph where
  options := { degenerates := .discardExcess, siblings := .require }
  vertices := #[⟨0, 0, 1⟩, ⟨1, 0, 0⟩, ⟨0, 1, 0⟩, ⟨-1, 0, 0⟩, ⟨0, -1, 0⟩]
  edges := #[⟨0, 1⟩, ⟨0, 2⟩, ⟨1, 0⟩, ⟨2, 0⟩, ⟨3, 4⟩, ⟨4, 3⟩]
  inputHandles := #[0, 1, 0, 1, 2, 2]
  inputSets := .empty
  labelHandles := #[]
  labelSets := .empty
  valid := rfl

/-- Two edges apart from each other, each snapped to twice in either direction. -/
def twoDigons : Graph where
  options := { edgeType := .undirected, degenerates := .discard }
  vertices := #[⟨0, 0, 1⟩, ⟨1, 0, 0⟩, ⟨0, 1, 0⟩, ⟨-1, 0, 0⟩]
  edges := #[⟨0, 1⟩, ⟨0, 1⟩, ⟨1, 0⟩, ⟨1, 0⟩, ⟨2, 3⟩, ⟨2, 3⟩, ⟨3, 2⟩, ⟨3, 2⟩]
  inputHandles := #[0, 1, 0, 1, 2, 3, 2, 3]
  inputSets := .empty
  labelHandles := #[]
  labelSets := .empty
  valid := rfl

theorem addedComponents_areConnected_pathAndEdge_twoDigons :
    (∃ components,
      Workspace.addDirected {} pathAndEdge .keep = .ok ({ directed := components }, none) ∧
        pathAndEdge.AreConnected (components.map List.flatten)) ∧
    ∃ components,
      Workspace.addUndirected {} twoDigons .simple = .ok ({ undirected := components }, none) ∧
        twoDigons.AreConnected (components.map Complements.edges) := by
  have hdirected : pathAndEdge.OrdersClockwise := by decide +kernel
  have hundirected : twoDigons.OrdersClockwise := by decide +kernel
  constructor
  · exact (addedComponents_areConnected .standard pathAndEdge {} (by decide)
      (knowsInputs_of_singles (by decide)) (by decide)
      (pathAndEdge.map_reverse_perm_iff.1 (by decide)) hdirected (by decide)).1 rfl rfl
  · obtain ⟨components, error?, hadd, hconnected⟩ := (addedComponents_areConnected .standard twoDigons {}
      (by decide) (knowsInputs_of_singles (by decide)) (by decide)
      (twoDigons.map_reverse_perm_iff.1 (by decide)) hundirected (by decide)).2 rfl .simple
    have herror : (Workspace.addUndirected {} twoDigons .simple).map Prod.snd = .ok none := by cbv
    rw [hadd] at herror
    cases herror
    exact ⟨components, hadd, hconnected rfl⟩

end Graph

end SnapGraph
