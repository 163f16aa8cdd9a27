import Mathlib
import SnapGraph.Proofs.Circuit
import SnapGraph.Proofs.Retrace

/-! The walk through a graph that is one directed cycle. It goes around once, from an edge of the least
input id. As the test for a start looks only at edges that come later in input order, the walk may begin
inside of the chain of that id: at the first edge that follows an earlier one on the chain. It begins
where the chain does exactly if no such edge comes before the first one of the chain. -/

namespace SnapGraph

namespace Graph

/-- The edges of the graph lead around one cycle, which passes no vertex twice. -/
structure IsRing (g : Graph) (cycle : List Nat) : Prop where
  perm : cycle.Perm g.edgeIds
  closed : IsClosed g.edge cycle
  simple : (cycle.map fun e => (g.edge e).origin).Nodup

/-- A walk may begin at the edge: the one that enters its origin has another input id or comes before
it. -/
def Opens (g : Graph) (key : Nat → Int) (e : Nat) : Prop :=
  ∀ p < g.numEdges, (g.edge p).dest = (g.edge e).origin → key p = key e → p < e

/-- The edge comes first in input order of those at which a walk may begin. -/
structure IsFirstOpening (g : Graph) (key : Nat → Int) (f : Nat) : Prop where
  opens : g.Opens key f
  first : ∀ e < g.numEdges, g.Opens key e → key f ≤ key e ∧ (key f = key e → f ≤ e)

namespace IsRing

variable {g : Graph} {cycle cycle' l : List Nat} {e f : Nat}

theorem isRotated (h : g.IsRing cycle) (hcycle : cycle.IsRotated cycle') : g.IsRing cycle' where
  perm := hcycle.perm.symm.trans h.perm
  closed := by
    have hclosed := h.closed
    rwa [IsClosed, Cycle.coe_eq_coe.2 hcycle] at hclosed
  simple := (hcycle.perm.map _).nodup_iff.1 h.simple

theorem nodup (h : g.IsRing cycle) : cycle.Nodup := h.perm.nodup_iff.2 g.nodup_edgeIds

theorem mem_iff (h : g.IsRing cycle) : e ∈ cycle ↔ e < g.numEdges :=
  h.perm.mem_iff.trans g.mem_edgeIds

theorem exists_joins (h : g.IsRing cycle) : ∃ v, Joins g.edge v cycle v := by
  cases cycle with
  | nil => exact ⟨0, rfl⟩
  | cons e l => exact ⟨_, h.closed.joins⟩

theorem eq_of_origin_eq (h : g.IsRing cycle) (he : e < g.numEdges) (hf : f < g.numEdges)
    (hef : (g.edge e).origin = (g.edge f).origin) : e = f :=
  List.inj_on_of_nodup_map h.simple (h.mem_iff.2 he) (h.mem_iff.2 hf) hef

theorem eq_of_dest_eq (h : g.IsRing cycle) (he : e < g.numEdges) (hf : f < g.numEdges)
    (hef : (g.edge e).dest = (g.edge f).dest) : e = f := by
  obtain ⟨v, hv⟩ := h.exists_joins
  have hperm : (cycle.map fun e => (g.edge e).dest).Perm (cycle.map fun e => (g.edge e).origin) := by
    have hcons := List.Perm.of_eq hv.cons_map_dest
    exact (hcons.trans (List.perm_append_singleton v _)).cons_inv
  exact List.inj_on_of_nodup_map (hperm.nodup_iff.2 h.simple) (h.mem_iff.2 he) (h.mem_iff.2 hf) hef

/-- The last edge leads to where the first one begins. -/
theorem dest_getLast (h : g.IsRing (e :: l)) (hf : (e :: l).getLast? = some f) :
    (g.edge f).dest = (g.edge e).origin := by
  have hjoins := h.closed.joins
  obtain ⟨front, hfront⟩ := List.getLast?_eq_some_iff.1 hf
  rw [hfront, joins_concat] at hjoins
  exact hjoins.2

theorem dest_eq_origin {front back : List Nat} (h : g.IsRing (front ++ e :: f :: back)) :
    (g.edge e).dest = (g.edge f).origin := by
  obtain ⟨v, hv⟩ := h.exists_joins
  exact (List.isChain_cons_cons.1 (List.isChain_append.1 hv.isChain).2.1).1

/-- If there are two edges, none of them leads back to its origin. -/
theorem dest_ne_origin (h : g.IsRing cycle) (htwo : ∀ e, cycle ≠ [e]) (he : e < g.numEdges) :
    (g.edge e).dest ≠ (g.edge e).origin := by
  intro hloop
  obtain ⟨l, hl⟩ := Turns.exists_isRotated_cons (h.mem_iff.2 he)
  have hring := h.isRotated hl
  cases l with
  | nil => exact htwo e (List.isRotated_singleton_iff.1 hl)
  | cons f l =>
      have hf := hring.mem_iff.1 (List.mem_cons_of_mem e List.mem_cons_self)
      have hnext : (g.edge e).dest = (g.edge f).origin :=
        IsRing.dest_eq_origin (List.nil_append (e :: f :: l) ▸ hring)
      have hef : e = f := hring.eq_of_origin_eq he hf (hloop.symm.trans hnext)
      exact (List.nodup_cons.1 hring.nodup).1 (hef ▸ List.mem_cons_self)

/-- Every edge has one that enters its origin, and only one. -/
theorem exists_before (h : g.IsRing cycle) (he : e < g.numEdges) :
    ∃ p < g.numEdges, ∀ f < g.numEdges, (g.edge f).dest = (g.edge e).origin ↔ f = p := by
  obtain ⟨l, hl⟩ := Turns.exists_isRotated_cons (h.mem_iff.2 he)
  have hring := h.isRotated hl
  obtain ⟨p, hp⟩ := Option.ne_none_iff_exists'.1 (List.getLast?_eq_none_iff.not.2 (List.cons_ne_nil e l))
  have hmem : p ∈ e :: l := List.mem_of_getLast? hp
  have hlt := hring.mem_iff.1 hmem
  refine ⟨p, hlt, fun f hf => ⟨fun hdest => ?_, fun hfp => hfp ▸ hring.dest_getLast hp⟩⟩
  exact h.eq_of_dest_eq hf hlt (hdest.trans (hring.dest_getLast hp).symm)

end IsRing

end Graph

namespace Thread

variable {t : Thread} {u : Usage} {cycle l : List Nat} {e f : Nat} {v w x : Int}

/-- No walk begins for a surplus: every edge that leaves a vertex makes up for one that enters it. -/
theorem surplus_of_isRing (ht : t.Sound) (hd : t.directed) (h : t.graph.IsRing cycle) (x : Int) :
    t.surplus x = 0 := by
  obtain ⟨v, hv⟩ := h.exists_joins
  have hnet := hv.countP_sub x
  rw [h.perm.countP_eq, h.perm.countP_eq, Int.sub_self] at hnet
  have hagrees := agrees_start ht x
  rw [Agrees, if_pos hd, net, if_pos hd, freeIds_start, hnet] at hagrees
  exact hagrees.symm

theorem openWalks_of_isRing (ht : t.Sound) (hd : t.directed) (h : t.graph.IsRing cycle)
    (edges : List Nat) : t.openWalks t.start edges = .ok ([], t.start) := by
  have hskip : ∀ e ∈ edges, ¬(t.start.isFree e && t.beginsAt t.start (t.origin e)) = true := by
    intro e _ hbegins
    have hpos := (Bool.and_eq_true_iff.1 (Bool.and_eq_true_iff.1 hbegins).2).1
    rw [surplus_of_isRing ht hd h] at hpos
    exact absurd hpos (by decide)
  rw [← List.append_nil edges, openWalks_append hskip, openWalks]

/-! ### Where the walk begins -/

/-- In a list that ascends by a key the items with the least key come first. -/
theorem mem_takeWhile_key_iff {key : Nat → Int} {k : Int} (hle : ∀ a ∈ l, k ≤ key a)
    (hl : l.Pairwise fun a b => key a ≤ key b) :
    f ∈ l.takeWhile (fun a => key a == k) ↔ f ∈ l ∧ key f = k := by
  induction l with
  | nil => simp
  | cons a l ih =>
      obtain ⟨ha, hl⟩ := List.pairwise_cons.1 hl
      obtain ⟨hka, hkl⟩ := List.forall_mem_cons.1 hle
      rw [List.takeWhile_cons]
      by_cases hak : key a = k
      · rw [if_pos (beq_iff_eq.2 hak), List.mem_cons, List.mem_cons, ih hkl hl, or_and_right]
        exact or_congr_left ⟨fun hfa => ⟨hfa, hfa ▸ hak⟩, And.left⟩
      · rw [if_neg (fun h => hak (beq_iff_eq.1 h))]
        refine ⟨fun hf => absurd hf List.not_mem_nil, fun ⟨hf, hfk⟩ => ?_⟩
        rcases List.mem_cons.1 hf with rfl | hf
        · exact absurd hfk hak
        · have := ha f hf
          omega

theorem countP_of_iff_eq {q : Nat → Bool} (hl : l.Nodup) (hq : ∀ a ∈ l, q a = true ↔ a = e) :
    l.countP q = if e ∈ l then 1 else 0 := by
  have hcount : l.countP q = l.count e := by
    apply List.countP_congr
    intro a ha
    rw [hq a ha, beq_iff_eq]
  rw [hcount, hl.count]

section InputOrder

variable {front back : List Nat} (ht : t.Sound) (horder : t.inputOrder = front ++ e :: back)

include ht horder

theorem lt_of_mem_inputOrder (hf : f ∈ e :: back) : f < t.graph.numEdges :=
  (mem_inputOrder ht).1 (horder ▸ List.mem_append_right _ hf)

/-- A walk may begin at an edge if the one that enters its origin has another id or came before. -/
theorem opens_iff {p : Nat} (hp : p < t.graph.numEdges) (hne : p ≠ e)
    (hbefore : ∀ f < t.graph.numEdges, t.dest f = t.origin e ↔ f = p) :
    t.graph.Opens t.key e ↔ ¬(p ∈ e :: back ∧ t.key p = t.key e) := by
  have hsorted := t.pairwise_inputOrder
  rw [horder] at hsorted
  obtain ⟨-, hback, hcross⟩ := List.pairwise_append.1 hsorted
  constructor
  · rintro hopens ⟨hmem, hkey⟩
    have hpb : p ∈ back := (List.mem_cons.1 hmem).resolve_left hne
    have hlt := hopens p hp ((hbefore p hp).2 rfl) hkey
    exact Nat.lt_asymm hlt ((List.rel_of_pairwise_cons hback hpb).2 hkey.symm)
  · intro hnot f hf hdest hkey
    obtain rfl := (hbefore f hf).1 hdest
    have hmem : f ∈ front ++ e :: back := horder ▸ (mem_inputOrder ht).2 hf
    have hfront := (List.mem_append.1 hmem).resolve_right fun hfb => hnot ⟨hfb, hkey⟩
    exact (hcross f hfront e List.mem_cons_self).2 hkey

/-- The edges with the same id that come no earlier. -/
theorem mem_run_iff :
    f ∈ ((e :: back).takeWhile fun a => t.key a == t.key e).filter t.start.isFree ↔
      f ∈ e :: back ∧ t.key f = t.key e := by
  have hsorted := t.pairwise_inputOrder
  rw [horder] at hsorted
  have hback := (List.pairwise_append.1 hsorted).2.1
  have hleast : ∀ a ∈ e :: back, t.key e ≤ t.key a := List.forall_mem_cons.2
    ⟨le_refl _, fun a ha => (List.rel_of_pairwise_cons hback ha).1⟩
  rw [List.mem_filter, mem_takeWhile_key_iff hleast (hback.imp And.left), isFree_start,
    decide_eq_true_eq]
  exact ⟨And.left, fun hf => ⟨hf, lt_of_mem_inputOrder ht horder hf.1⟩⟩

/-- Of the edges with the same id that come no earlier, one leaves the origin of an edge, and one enters
it unless a walk may begin there. -/
theorem startsInputChain_iff (h : t.graph.IsRing cycle) (hproper : t.dest e ≠ t.origin e) :
    t.startsInputChain t.start (e :: back) = true ↔ t.graph.Opens t.key e := by
  have hlt : ∀ a ∈ ((e :: back).takeWhile fun a => t.key a == t.key e).filter t.start.isFree,
      a < t.graph.numEdges := fun a ha =>
    lt_of_mem_inputOrder ht horder ((mem_run_iff ht horder).1 ha).1
  have he := lt_of_mem_inputOrder ht horder List.mem_cons_self
  have hnodup : (((e :: back).takeWhile fun a => t.key a == t.key e).filter t.start.isFree).Nodup := by
    have hall := (inputOrder_perm ht).nodup_iff.2 t.graph.nodup_edgeIds
    rw [horder] at hall
    exact ((List.nodup_append.1 hall).2.1.sublist (List.takeWhile_sublist _)).filter _
  obtain ⟨p, hp, hbefore⟩ := h.exists_before he
  have hleave : (((e :: back).takeWhile fun a => t.key a == t.key e).filter t.start.isFree).countP
      (fun a => t.origin a == t.origin e) = 1 := by
    rw [countP_of_iff_eq hnodup (e := e),
      if_pos ((mem_run_iff ht horder).2 ⟨List.mem_cons_self, rfl⟩)]
    intro a ha
    rw [beq_iff_eq]
    exact ⟨h.eq_of_origin_eq (hlt a ha) he, fun hae => hae ▸ rfl⟩
  have henter : (((e :: back).takeWhile fun a => t.key a == t.key e).filter t.start.isFree).countP
      (fun a => t.dest a == t.origin e) = if p ∈ e :: back ∧ t.key p = t.key e then 1 else 0 := by
    rw [countP_of_iff_eq hnodup (e := p), if_congr (mem_run_iff ht horder) rfl rfl]
    intro a ha
    rw [beq_iff_eq]
    exact hbefore a (hlt a ha)
  have hne : p ≠ e := fun hpe => hproper (hpe ▸ (hbefore p hp).2 rfl)
  unfold startsInputChain
  dsimp only
  rw [opens_iff ht horder hp hne hbefore, hleave, henter]
  split
  · simp_all
  · simp_all

end InputOrder

/-! ### Once around -/

/-- A walk goes around if no vertex has more than one free edge that leaves it. -/
theorem exists_walk_around (ht : t.Sound) (hd : t.directed) (hu : t.Consistent u)
    (hfree : (t.freeIds u).Perm l) (hjoins : Joins t.graph.edge v l w)
    (hsimple : (l.map t.origin).Nodup) (hcontent : ∀ x, ¬t.Lacks (t.demand u x)) :
    ∃ u', t.walk u v = .ok (l, u') := by
  induction l generalizing u v with
  | nil =>
      refine ⟨u, walk_of_drained ht fun e he => ?_⟩
      rw [List.perm_nil.1 hfree] at he
      cases he
  | cons e l ih =>
      obtain ⟨rfl, hjoins⟩ := hjoins
      have he : e ∈ t.freeIds u := hfree.mem_iff.2 List.mem_cons_self
      have hleast : t.leastEdge? ((t.incidence.outIds (t.origin e)).filter u.isFree) = some e := by
        apply leastEdge?_eq_some ht he rfl
        intro f hf horigin
        obtain rfl : f = e := List.inj_on_of_nodup_map hsimple (hfree.mem_iff.1 hf)
          List.mem_cons_self horigin
        exact ⟨le_refl _, fun _ => le_refl _⟩
      obtain ⟨u₁, hmark, hu₁, hspends, hbalance⟩ := exists_mark ht hu (mem_freeIds.1 he).2
      have hfree₁ : (t.freeIds u₁).Perm l := by
        have hboth : t.both [e] = [e] := if_pos hd
        have hperm : (e :: t.freeIds u₁).Perm (e :: l) := by
          have hspends := List.Perm.trans (List.Perm.symm hspends) hfree
          rwa [hboth] at hspends
        exact hperm.cons_inv
      obtain ⟨u', hrest⟩ := ih hu₁ hfree₁ hjoins (List.nodup_cons.1 hsimple).2 fun x =>
        demand_congr hbalance x ▸ hcontent x
      refine ⟨u', ?_⟩
      show t.walk u (t.origin e) = _
      rw [walk, hleast]
      dsimp only
      rw [if_neg fun hwaits => hcontent _ ((waitsAt_iff ht).1 hwaits).1]
      split
      · rename_i hmark'
        rw [hmark] at hmark'
        cases hmark'
      · rename_i hmark'
        rw [hmark] at hmark'
        cases hmark'
        show (t.walk _ (t.dest e)).map _ = _
        rw [show t.walk _ (t.dest e) = .ok (l, u') from hrest]
        rfl

theorem closedWalks_skip {starts : Usage → List Nat → Bool} {later : List Nat}
    (h : ∀ front e back, l = front ++ e :: back → ¬starts u (e :: (back ++ later)) = true) :
    t.closedWalks starts u (l ++ later) = t.closedWalks starts u later := by
  by_cases hremaining : u.remaining = 0
  · rw [closedWalks_of_remaining_eq_zero starts hremaining,
      closedWalks_of_remaining_eq_zero starts hremaining]
  · induction l with
    | nil => rfl
    | cons e l ih =>
        have he := h [] e l rfl
        rw [List.cons_append, closedWalks, if_neg hremaining, if_neg (by simp [he])]
        exact ih fun front f back hl => h (e :: front) f back (congrArg (List.cons e) hl)

/-- The first place in a list where a property holds. -/
theorem exists_first {p : Nat → Prop} (h : ∃ a ∈ l, p a) :
    ∃ front a back, l = front ++ a :: back ∧ p a ∧ ∀ b ∈ front, ¬p b := by
  classical
  obtain ⟨a, ha, hpa⟩ := h
  have hsome : (l.find? fun a => decide (p a)).isSome :=
    List.find?_isSome.2 ⟨a, ha, decide_eq_true hpa⟩
  obtain ⟨f, hf⟩ := Option.isSome_iff_exists.1 hsome
  obtain ⟨hpf, front, back, hl, hfront⟩ := List.find?_eq_some_iff_append.1 hf
  exact ⟨front, f, back, hl, of_decide_eq_true hpf, fun b hb => by simpa using hfront b hb⟩

section Around

variable (ht : t.Sound) (hd : t.directed) (h : t.graph.IsRing cycle)

include ht hd h

/-- From any edge a closed walk goes once around. -/
theorem exists_closedWalk_around (hl : cycle.IsRotated (f :: l)) :
    ∃ u, t.closedWalk t.start (t.origin f) = .ok ([f :: l], u) ∧ u.remaining = 0 := by
  have hring := h.isRotated hl
  have hstart := consistent_start ht
  have hcontent : ∀ x, ¬t.Lacks (t.demand t.start x) := by
    intro x
    rw [demand_start, surplus_of_isRing ht hd h, Lacks, if_pos hd]
    exact lt_irrefl 0
  have hfree : (t.freeIds t.start).Perm (f :: l) := by
    rw [freeIds_start]
    exact hring.perm.symm
  obtain ⟨u, hwalk⟩ := exists_walk_around ht hd hstart hfree hring.closed.joins hring.simple hcontent
  obtain ⟨_, _, _, hwalk', hu, -, hspends, -⟩ := exists_walk ht hstart (t.origin f)
  cases hwalk.symm.trans hwalk'
  have hnone : ∀ e, ¬u.isFree e := fun e he =>
    hspends.not_isFree (hring.mem_iff.2 (hu.lt he)) he
  refine ⟨u, ?_, hu.remaining_eq_zero fun e _ => hnone e⟩
  rw [closedWalk, hwalk']
  show (t.maximize u (f :: l) >>= _) = _
  rw [maximize_of_drained ht fun x _ e he => absurd (mem_freeIds.1 he).2 (hnone e)]
  rfl

/-- The walk goes once around, from the first edge in input order at which one may begin. -/
theorem exists_walks_around (hproper : ∀ e < t.graph.numEdges, t.dest e ≠ t.origin e)
    (hopens : ∃ e < t.graph.numEdges, t.graph.Opens t.key e) :
    ∃ f l, t.walks = .ok [f :: l] ∧ cycle.IsRotated (f :: l) ∧ t.graph.IsFirstOpening t.key f := by
  obtain ⟨front, f, back, horder, hopen, hfront⟩ : ∃ front f back,
      t.inputOrder = front ++ f :: back ∧ t.graph.Opens t.key f ∧
        ∀ e ∈ front, ¬t.graph.Opens t.key e := by
    obtain ⟨e, he, hopen⟩ := hopens
    exact exists_first ⟨e, (mem_inputOrder ht).2 he, hopen⟩
  have hf := lt_of_mem_inputOrder ht horder List.mem_cons_self
  obtain ⟨l, hl⟩ := Turns.exists_isRotated_cons (h.mem_iff.2 hf)
  obtain ⟨u, hclosed, hremaining⟩ := exists_closedWalk_around ht hd h hl
  have hskip : t.closedWalks t.startsInputChain t.start (front ++ f :: back) =
      t.closedWalks t.startsInputChain t.start (f :: back) := by
    refine closedWalks_skip fun first e rest hsplit hstarts => ?_
    subst hsplit
    rw [List.append_assoc, List.cons_append] at horder
    have he := lt_of_mem_inputOrder ht horder List.mem_cons_self
    exact hfront e (by simp) ((startsInputChain_iff ht horder h (hproper e he)).1 hstarts)
  have hchained : t.closedWalks t.startsInputChain t.start t.inputOrder = .ok ([f :: l], u) := by
    have hbegins : (t.start.isFree f && t.startsInputChain t.start (f :: back)) = true := by
      rw [Bool.and_eq_true, startsInputChain_iff ht horder h (hproper f hf), isFree_start]
      exact ⟨decide_eq_true hf, hopen⟩
    have hsome : t.start.remaining ≠ 0 := fun hzero =>
      (consistent_start ht).not_isFree hzero (Bool.and_eq_true_iff.1 hbegins).1
    rw [horder, hskip, closedWalks, if_neg hsome, if_pos hbegins, hclosed]
    show (t.closedWalks t.startsInputChain u back >>= _) = _
    rw [closedWalks_of_remaining_eq_zero _ hremaining]
    rfl
  refine ⟨f, l, ?_, hl, hopen, fun e he hopen' => ?_⟩
  · have hclosing : (do
        let r ← t.closedWalks t.startsInputChain t.start t.inputOrder
        let s ← t.closedWalks (fun _ _ => true) r.2 t.inputOrder
        if s.2.remaining = 0 then return [] ++ r.1 ++ s.1 else throw .brokenPairing) =
        Except.ok [f :: l] := by
      rw [hchained]
      show (t.closedWalks _ u t.inputOrder >>= _) = _
      rw [closedWalks_of_remaining_eq_zero _ hremaining]
      exact if_pos hremaining
    -- There are no walks yet that the edges could be spliced into.
    rw [walks, openWalks_of_isRing ht hd h]
    show (if t.start.remaining = 0 then _ else _) = _
    split
    · exact hclosing
    · exact hclosing
  · have hsorted := t.pairwise_inputOrder
    have hmem : e ∈ front ++ f :: back := horder ▸ (mem_inputOrder ht).2 he
    rw [horder] at hsorted
    have hback := (List.mem_append.1 hmem).resolve_left fun hef => hfront e hef hopen'
    rcases List.mem_cons.1 hback with rfl | hback
    · exact ⟨le_refl _, fun _ => le_refl _⟩
    · have hfe := List.rel_of_pairwise_cons (List.pairwise_append.1 hsorted).2.1 hback
      exact ⟨hfe.1, fun hkey => (hfe.2 hkey).le⟩

end Around

end Thread

/-! ### The chain of an input edge -/

/-- The edges of each id lie together on the cycle, and there are two ids at least. -/
structure IsSplit (key : Nat → Int) (cycle : List Nat) : Prop where
  arcs : ∀ e ∈ cycle, ∃ arc rest, cycle.IsRotated (arc ++ rest) ∧
    (∀ f ∈ arc, key f = key e) ∧ ∀ f ∈ rest, key f ≠ key e
  two : ∃ e ∈ cycle, ∃ f ∈ cycle, key e ≠ key f

/-- The edges with the least id are `first` and, from there on, those of `arc`. -/
structure IsLeastArc (key : Nat → Int) (cycle : List Nat) (first : Nat) (arc rest : List Nat) : Prop where
  isRotated : cycle.IsRotated (first :: (arc ++ rest))
  same : ∀ e ∈ arc, key e = key first
  greater : ∀ e ∈ rest, key first < key e
  ne_nil : rest ≠ []

theorem IsSplit.ne_singleton {key : Nat → Int} {cycle : List Nat} (h : IsSplit key cycle) (e : Nat) :
    cycle ≠ [e] := by
  obtain ⟨a, ha, b, hb, hab⟩ := h.two
  rintro rfl
  obtain rfl := List.mem_singleton.1 ha
  obtain rfl := List.mem_singleton.1 hb
  exact hab rfl

theorem IsSplit.exists_isLeastArc {key : Nat → Int} {cycle : List Nat} (h : IsSplit key cycle) :
    ∃ first arc rest, IsLeastArc key cycle first arc rest := by
  obtain ⟨a, ha, b, hb, hab⟩ := h.two
  obtain ⟨e, he, hleast⟩ := Finset.exists_min_image cycle.toFinset key ⟨a, List.mem_toFinset.2 ha⟩
  obtain ⟨arc, rest, hcycle, harc, hrest⟩ := h.arcs e (List.mem_toFinset.1 he)
  have hmem : ∀ f ∈ cycle, f ∈ arc ∨ f ∈ rest := fun f hf =>
    List.mem_append.1 (hcycle.mem_iff.1 hf)
  cases arc with
  | nil =>
      have her := (hmem e (List.mem_toFinset.1 he)).resolve_left List.not_mem_nil
      exact absurd rfl (hrest e her)
  | cons first arc =>
      have hfirst := harc first List.mem_cons_self
      refine ⟨first, arc, rest, hcycle, fun f hf => ?_, fun f hf => ?_, ?_⟩
      · rw [hfirst]
        exact harc f (List.mem_cons_of_mem _ hf)
      · have hf' : f ∈ cycle := hcycle.mem_iff.2 (List.mem_append_right _ hf)
        rw [hfirst]
        exact lt_of_le_of_ne (hleast f (List.mem_toFinset.2 hf')) (hrest f hf).symm
      · rintro rfl
        have hsame : ∀ f ∈ cycle, key f = key e := fun f hf =>
          harc f ((hmem f hf).resolve_right List.not_mem_nil)
        exact hab ((hsame a ha).trans (hsame b hb).symm)

namespace Graph

section Arc

variable {g : Graph} {key : Nat → Int} {cycle arc rest l : List Nat} {e f first last : Nat}
  (h : g.IsRing cycle) (harc : IsLeastArc key cycle first arc rest)

include h harc

/-- Before the first edge of the arc comes one with a greater id. -/
theorem key_lt_of_dest_eq (he : e < g.numEdges) (hdest : (g.edge e).dest = (g.edge first).origin) :
    key first < key e := by
  have hring := h.isRotated harc.isRotated
  obtain ⟨front, p, hp⟩ := (List.eq_nil_or_concat' rest).resolve_left harc.ne_nil
  have hlast : (first :: (arc ++ rest)).getLast? = some p := by
    rw [hp, ← List.append_assoc, ← List.cons_append, List.getLast?_concat]
  have hmem : p ∈ rest := hp ▸ List.mem_append_right _ List.mem_cons_self
  have hlt := hring.mem_iff.1 (List.mem_of_getLast? hlast)
  obtain rfl : e = p := h.eq_of_dest_eq he hlt (hdest.trans (hring.dest_getLast hlast).symm)
  exact harc.greater e hmem

theorem opens_first : g.Opens key first := fun _ hp hdest hkey =>
  absurd hkey (key_lt_of_dest_eq h harc hp hdest).ne'

/-- Inside of the arc an edge comes after one with the same id. -/
theorem dest_eq_of_mem_arc {front back : List Nat} (hsplit : first :: arc = front ++ e :: f :: back) :
    e < g.numEdges ∧ f < g.numEdges ∧ (g.edge e).dest = (g.edge f).origin ∧ key e = key first ∧
      key f = key first ∧ f ≠ first := by
  have hring := h.isRotated harc.isRotated
  have hsame : ∀ x ∈ first :: arc, key x = key first := List.forall_mem_cons.2 ⟨rfl, harc.same⟩
  have hwhole : first :: (arc ++ rest) = front ++ e :: f :: (back ++ rest) := by
    rw [← List.cons_append, hsplit]
    simp
  have hmem : ∀ x ∈ first :: arc, x < g.numEdges := fun x hx =>
    hring.mem_iff.1 (List.cons_append ▸ List.mem_append_left rest hx)
  have he : e ∈ first :: arc := by simp [hsplit]
  have hf : f ∈ first :: arc := by simp [hsplit]
  refine ⟨hmem e he, hmem f hf, (hwhole ▸ hring).dest_eq_origin, hsame e he, hsame f hf, ?_⟩
  rintro rfl
  -- The first edge of the arc comes only once.
  have hfresh := (List.nodup_cons.1 hring.nodup).1
  cases front with
  | nil =>
      obtain ⟨-, hback⟩ := List.cons.inj hsplit
      exact hfresh (List.mem_append_left _ (hback ▸ List.mem_cons_self))
  | cons a front =>
      obtain ⟨-, hback⟩ := List.cons.inj hsplit
      exact hfresh (List.mem_append_left _ (hback ▸ by simp))

/-- The first place where a walk may begin is on the arc, and no later than its first edge. -/
theorem IsFirstOpening.mem_arc (hf : g.IsFirstOpening key f) (hlt : f < g.numEdges) :
    f ∈ first :: arc ∧ key f = key first ∧ f ≤ first := by
  have hring := h.isRotated harc.isRotated
  obtain ⟨hkey, hle⟩ := hf.first first (hring.mem_iff.1 List.mem_cons_self) (opens_first h harc)
  have hmem : f ∈ first :: arc := by
    have hall : f ∈ (first :: arc) ++ rest := hring.mem_iff.2 hlt
    exact (List.mem_append.1 hall).resolve_right fun hrest => (harc.greater f hrest).not_ge hkey
  have hsame : key f = key first := by
    rcases List.mem_cons.1 hmem with rfl | hmem
    · rfl
    · exact harc.same f hmem
  exact ⟨hmem, hsame, hle hsame⟩

/-- A walk from the first place where one may begin keeps the chain of the least id together exactly if no
edge that follows an earlier one on this chain comes before its first edge. -/
theorem key_ne_key_last_iff (hl : cycle.IsRotated (f :: l)) (hopening : g.IsFirstOpening key f)
    (hlast : (f :: l).getLast? = some last) :
    key f ≠ key last ↔ (first :: arc).IsChain fun e x => e < x → first < x := by
  have hring := h.isRotated hl
  have hlt := hring.mem_iff.1 (List.mem_of_getLast? hlast)
  have hdest := hring.dest_getLast hlast
  obtain ⟨hf, hsame, hle⟩ :=
    hopening.mem_arc h harc (hring.mem_iff.1 List.mem_cons_self)
  -- Unless the walk begins where the arc does, the last edge is the one before `f` on the arc.
  have hinside : f ≠ first → key last = key f ∧ ∃ front back,
      first :: arc = front ++ last :: f :: back := by
    intro hne
    obtain ⟨front, back, hsplit⟩ := List.append_of_mem hf
    rcases List.eq_nil_or_concat' front with rfl | ⟨front, e, rfl⟩
    · exact absurd (List.cons.inj hsplit).1.symm hne
    · rw [List.append_assoc, List.singleton_append] at hsplit
      obtain ⟨he, -, hdest', hkey', -, -⟩ := dest_eq_of_mem_arc h harc hsplit
      obtain rfl : last = e := h.eq_of_dest_eq hlt he (hdest.trans hdest'.symm)
      exact ⟨hkey'.trans hsame.symm, front, back, hsplit⟩
  rw [List.isChain_iff_forall_rel_of_append_cons_cons]
  constructor
  · intro hne e x front back hsplit hex
    obtain ⟨he, hx, hdest', hkey', hkeyx, hxne⟩ := dest_eq_of_mem_arc h harc hsplit
    have hopenx : g.Opens key x := by
      intro p hp hdestp _
      rwa [h.eq_of_dest_eq hp he (hdestp.trans hdest'.symm)]
    have hfx := (hopening.first x hx hopenx).2 (hsame.trans hkeyx.symm)
    have hbegins : f = first := by_contra fun hfne => hne (hinside hfne).1.symm
    omega
  · intro hchain heq
    by_cases hbegins : f = first
    · subst hbegins
      exact (key_lt_of_dest_eq h harc hlt hdest).ne heq
    · obtain ⟨-, front, back, hsplit⟩ := hinside hbegins
      have hfirstf := hchain hsplit (hopening.opens last hlt hdest heq.symm)
      omega

end Arc

/-! ### The walk of a graph -/

section Walk

variable {g : Graph} {cycle : List Nat} {ids : Array Int} (hinputs : g.KnowsInputs)
  (hdirected : g.options.isDirected) (hdegenerates : g.options.degenerates = .discard)
  (hsiblings : g.options.siblings = .keep) (hring : g.IsRing cycle) (hids : g.minInputIds = .ok ids)

include hinputs hdirected hdegenerates hsiblings hring hids

theorem exists_polylines_walk_around (htwo : ∀ e, cycle ≠ [e])
    (hopens : ∃ e < g.numEdges, g.Opens (fun e => ids.getD e noInput) e) :
    ∃ f l, g.polylines .walk = .ok [f :: l] ∧ cycle.IsRotated (f :: l) ∧
      g.IsFirstOpening (fun e => ids.getD e noInput) f := by
  have hproper : ∀ e < g.numEdges, (g.edge e).isDegenerate = false := by
    intro e he
    rw [← Bool.not_eq_true, Edge.isDegenerate_iff]
    exact fun hloop => hring.dest_ne_origin htwo he hloop.symm
  have hnot : ¬g.options.isUndirected := by
    rw [Options.isUndirected_iff, hdirected]
    decide
  obtain ⟨t, hthread, ht, rfl, -⟩ := g.exists_thread hinputs hdegenerates hproper
    fun hundirected => absurd hundirected hnot
  cases (minInputIds_of_thread hthread).symm.trans hids
  obtain ⟨f, l, hwalks, hl, hopening⟩ := Thread.exists_walks_around ht hdirected hring
    (fun e he => hring.dest_ne_origin htwo he) hopens
  refine ⟨f, l, ?_, hl, hopening⟩
  rw [polylines_walk_eq hdegenerates (.inr hsiblings) hthread hwalks,
    List.perm_singleton.1 (orderChains_perm t.key [f :: l])]

/-- Through one directed cycle there is one walk, which goes around once. Its first and last edges have
different input ids exactly if on the chain of the least id no edge that follows an earlier one comes
before the first edge of the chain. -/
theorem polylines_walk_of_isRing (hsplit : IsSplit (fun e => ids.getD e noInput) cycle) :
    ∃ l first last, g.polylines .walk = .ok [l] ∧ cycle.IsRotated l ∧
      l.head? = some first ∧ l.getLast? = some last ∧
      ∃ start arc rest, IsLeastArc (fun e => ids.getD e noInput) cycle start arc rest ∧
        (ids.getD first noInput ≠ ids.getD last noInput ↔
          (start :: arc).IsChain fun e f => e < f → start < f) := by
  obtain ⟨start, arc, rest, harc⟩ := hsplit.exists_isLeastArc
  have hstart := (hring.isRotated harc.isRotated).mem_iff.1 List.mem_cons_self
  obtain ⟨f, l, hpolylines, hl, hopening⟩ := exists_polylines_walk_around hinputs hdirected
    hdegenerates hsiblings hring hids hsplit.ne_singleton ⟨start, hstart, opens_first hring harc⟩
  obtain ⟨last, hlast⟩ :=
    Option.ne_none_iff_exists'.1 (List.getLast?_eq_none_iff.not.2 (List.cons_ne_nil f l))
  exact ⟨f :: l, f, last, hpolylines, hl, rfl, hlast, start, arc, rest, harc,
    key_ne_key_last_iff hring harc hl hopening hlast⟩

end Walk

/-- A square in which three sides share an id, the second numbered after the first one and the third
after the second. -/
def splitSquare : Graph where
  options := { degenerates := .discard, siblings := .keep }
  vertices := #[default, default, default, default]
  edges := #[⟨0, 1⟩, ⟨1, 3⟩, ⟨2, 0⟩, ⟨3, 2⟩]
  inputHandles := #[0, 0, 0, 1]
  inputSets := .empty
  labelHandles := #[]
  labelSets := .empty
  valid := rfl

theorem knowsInputs_splitSquare : splitSquare.KnowsInputs := knowsInputs_of_singles (by decide)

theorem minInputIds_splitSquare : splitSquare.minInputIds = .ok #[0, 0, 0, 1] := by
  cbv

theorem isRing_splitSquare : splitSquare.IsRing [2, 0, 1, 3] where
  perm := by decide
  closed := Joins.isClosed (u := 2) ⟨rfl, rfl, rfl, rfl, rfl⟩
  simple := by decide

theorem isSplit_splitSquare :
    IsSplit (fun e => (#[0, 0, 0, 1] : Array Int).getD e noInput) [2, 0, 1, 3] where
  arcs := by
    intro e he
    by_cases hlast : e = 3
    · subst hlast
      exact ⟨[3], [2, 0, 1], ⟨3, rfl⟩, by decide, by decide⟩
    · refine ⟨[2, 0, 1], [3], ⟨0, rfl⟩, ?_, ?_⟩
      all_goals
        simp only [List.mem_cons, List.not_mem_nil, or_false] at he
        rcases he with rfl | rfl | rfl | rfl
        all_goals first | decide | exact absurd rfl hlast
  two := ⟨0, by decide, 3, by decide, by decide⟩

theorem polylines_walk_of_isRing_splitSquare :
    ∃ l first last, splitSquare.polylines .walk = .ok [l] ∧ [2, 0, 1, 3].IsRotated l ∧
      l.head? = some first ∧ l.getLast? = some last ∧
      ∃ start arc rest,
        IsLeastArc (fun e => (#[0, 0, 0, 1] : Array Int).getD e noInput) [2, 0, 1, 3] start arc rest ∧
        ((#[0, 0, 0, 1] : Array Int).getD first noInput ≠
            (#[0, 0, 0, 1] : Array Int).getD last noInput ↔
          (start :: arc).IsChain fun e f => e < f → start < f) :=
  polylines_walk_of_isRing knowsInputs_splitSquare rfl rfl rfl isRing_splitSquare
    minInputIds_splitSquare isSplit_splitSquare

/-- The walk begins at the second of the three sides, as the test for a start does not look back at the
first one. -/
theorem polylines_walk_splitSquare : splitSquare.polylines .walk = .ok [[1, 3, 2, 0]] := by
  have hopens : ∀ e < 4, splitSquare.Opens (fun e => (#[0, 0, 0, 1] : Array Int).getD e noInput) e ↔
      e ≠ 0 := by
    unfold Opens
    decide
  obtain ⟨f, l, hpolylines, hl, hopening⟩ := exists_polylines_walk_around knowsInputs_splitSquare rfl
    rfl rfl isRing_splitSquare minInputIds_splitSquare isSplit_splitSquare.ne_singleton
    ⟨1, by decide, (hopens 1 (by decide)).2 (by decide)⟩
  have hmem : f ∈ [2, 0, 1, 3] := hl.mem_iff.2 List.mem_cons_self
  have hf : f = 1 := by
    have hfirst := hopening.first 1 (by decide) ((hopens 1 (by decide)).2 (by decide))
    simp only [List.mem_cons, List.not_mem_nil, or_false] at hmem
    rcases hmem with rfl | rfl | rfl | rfl
    · exact absurd (hfirst.2 rfl) (by decide)
    · exact absurd rfl ((hopens 0 (by decide)).1 hopening.opens)
    · rfl
    · exact absurd hfirst.1 (by decide)
  subst hf
  obtain ⟨n, hn, hrotate⟩ := List.isRotated_iff_mod.1 hl
  have hn : n = 0 ∨ n = 1 ∨ n = 2 ∨ n = 3 ∨ n = 4 := by
    have : n ≤ 4 := hn
    omega
  rcases hn with rfl | rfl | rfl | rfl | rfl
  all_goals first | cases hrotate; exact hpolylines | exact absurd (List.cons.inj hrotate).1 (by decide)

/-- The first and last edges of a closed walk may be pieces of one input edge. -/
theorem straddles_splitSquare :
    splitSquare.KnowsInputs ∧ splitSquare.options.isDirected ∧
      splitSquare.options.degenerates = .discard ∧ splitSquare.options.siblings = .keep ∧
      splitSquare.IsRing [2, 0, 1, 3] ∧ splitSquare.minInputIds = .ok #[0, 0, 0, 1] ∧
      IsSplit (fun e => (#[0, 0, 0, 1] : Array Int).getD e noInput) [2, 0, 1, 3] ∧
      ¬∃ l first last, splitSquare.polylines .walk = .ok [l] ∧ l.head? = some first ∧
        l.getLast? = some last ∧ (#[0, 0, 0, 1] : Array Int).getD first noInput ≠
          (#[0, 0, 0, 1] : Array Int).getD last noInput := by
  refine ⟨knowsInputs_splitSquare, rfl, rfl, rfl, isRing_splitSquare, minInputIds_splitSquare,
    isSplit_splitSquare, ?_⟩
  rintro ⟨l, first, last, hpolylines, hfirst, hlast, hne⟩
  cases polylines_walk_splitSquare.symm.trans hpolylines
  cases hfirst
  cases hlast
  exact hne rfl

end Graph

end SnapGraph
