import Mathlib
import SnapGraph.Walk
import SnapGraph.Proofs.Ends
import SnapGraph.Proofs.Thread

/-! Walks for the surplus of vertices. What a vertex demands is its surplus less what has begun there
and not ended, and at every vertex the free edges agree with it. A walk for the surplus of a vertex ends
where no free edge leaves or where walks are still to end: at another vertex, and one where no walk is
still to begin. So no vertex whose surplus is settled gets unsettled again, and how many walks begin and
end at a vertex is its surplus, of undirected edges one for an odd degree. -/

namespace SnapGraph.Thread

variable {t : Thread} {u u' u'' : Usage} {e : Nat} {l : List Nat} {v w x : Int}

/-! ### The least edge -/

theorem leastEdge?_eq_none_iff : t.leastEdge? l = none ↔ l = [] := by
  cases l with
  | nil => exact ⟨fun _ => rfl, fun _ => rfl⟩
  | cons a l =>
      rw [leastEdge?]
      split
      · simp
      · split <;> simp

theorem leastEdge?_spec (hl : l.Pairwise (· < ·)) (h : t.leastEdge? l = some e) :
    e ∈ l ∧ ∀ f ∈ l, t.key e ≤ t.key f ∧ (t.key e = t.key f → e ≤ f) := by
  induction l generalizing e with
  | nil => cases h
  | cons a l ih =>
      obtain ⟨ha, hl⟩ := List.pairwise_cons.1 hl
      rw [leastEdge?] at h
      split at h
      · rename_i hnone
        cases h
        rw [leastEdge?_eq_none_iff.1 hnone]
        simp
      · rename_i f hf
        obtain ⟨hmem, hleast⟩ := ih hl hf
        split at h
        · rename_i hlt
          cases h
          refine ⟨List.mem_cons_of_mem _ hmem, List.forall_mem_cons.2 ⟨⟨hlt.le, ?_⟩, hleast⟩⟩
          exact fun heq => absurd heq hlt.ne
        · rename_i hle
          cases h
          have hle := not_lt.1 hle
          refine ⟨List.mem_cons_self, List.forall_mem_cons.2 ⟨⟨le_refl _, fun _ => le_refl _⟩, ?_⟩⟩
          exact fun b hb => ⟨hle.trans (hleast b hb).1, fun _ => (ha b hb).le⟩

/-- Of the free edges that leave a vertex, the one taken comes first in input order. -/
theorem leastEdge?_free (ht : t.Sound)
    (h : t.leastEdge? ((t.incidence.outIds v).filter u.isFree) = some e) :
    e ∈ t.freeIds u ∧ t.origin e = v ∧ ∀ f ∈ t.freeIds u, t.origin f = v →
      t.key e ≤ t.key f ∧ (t.key e = t.key f → e ≤ f) := by
  have hsorted : ((t.incidence.outIds v).filter u.isFree).Pairwise (· < ·) := by
    rw [ht.incidence, Graph.outIds_incidence, Graph.edgeIds]
    exact (List.pairwise_lt_range.filter _).filter _
  obtain ⟨hmem, hleast⟩ := leastEdge?_spec hsorted h
  obtain ⟨hfree, horigin⟩ := (mem_free_outIds ht).1 hmem
  refine ⟨hfree, horigin, fun f hf hv => ?_⟩
  exact hleast f ((mem_free_outIds ht).2 ⟨hf, hv⟩)

theorem leastEdge?_eq_some (ht : t.Sound) (he : e ∈ t.freeIds u) (horigin : t.origin e = v)
    (hleast : ∀ f ∈ t.freeIds u, t.origin f = v →
      t.key e ≤ t.key f ∧ (t.key e = t.key f → e ≤ f)) :
    t.leastEdge? ((t.incidence.outIds v).filter u.isFree) = some e := by
  cases hf : t.leastEdge? ((t.incidence.outIds v).filter u.isFree) with
  | none =>
      have hmem := (mem_free_outIds ht).2 ⟨he, horigin⟩
      rw [leastEdge?_eq_none_iff.1 hf] at hmem
      cases hmem
  | some f =>
      obtain ⟨hfree, hfv, hfirst⟩ := leastEdge?_free ht hf
      have hef := hleast f hfree hfv
      have hfe := hfirst e he horigin
      have hkey := le_antisymm hef.1 hfe.1
      rw [le_antisymm (hef.2 hkey) (hfe.2 hkey.symm)]

/-! ### What a vertex demands -/

section Demand

variable (t)

/-- How many walks are still to begin at a vertex, less those that are still to end there. -/
def demand (u : Usage) (v : Int) : Int := t.surplus v - u.balanceOf v

/-- A demand for walks that end: below zero, of undirected edges odd and not below zero. -/
def Lacks (a : Int) : Prop := if t.directed then a < 0 else a.tmod 2 = 1

/-- No walk is still to begin at the vertex. -/
def IsSettled (u : Usage) (v : Int) : Prop := t.NoExcess (t.demand u v)

def IsVertex (v : Int) : Prop := 0 ≤ v ∧ v < t.graph.numVertices

/-- So many walks have begun and ended at a vertex with the surplus `a` that its demand is `d`. -/
def Meets (begun ended : Nat) (a d : Int) : Prop :=
  if t.directed then begun + max d 0 = max a 0 ∧ ended + max (-d) 0 = max (-a) 0
  else begun + ended + d % 2 = a

/-- A walk cannot go on from the vertex, or more walks are still to end there. -/
def Ends (u : Usage) (v : Int) : Prop :=
  (∀ e ∈ t.freeIds u, t.origin e ≠ v) ∨ t.IsVertex v ∧ t.Lacks (t.demand u v)

end Demand

theorem emod_two_of_tmod {d : Int} (h : d.tmod 2 = 1) : d % 2 = 1 := by
  rw [Int.tmod_eq_emod] at h
  split at h <;> omega

theorem Lacks.noExcess {a : Int} (h : t.Lacks a) : t.NoExcess (a + 1) := by
  by_cases hd : t.directed
  · simp only [Lacks, NoExcess, hd, if_true] at *
    omega
  · simp only [Lacks, NoExcess, hd, Bool.false_eq_true, if_false] at *
    have hodd := emod_two_of_tmod h
    omega

theorem not_lacks_sub_one {a : Int} (h : ¬t.NoExcess a) : ¬t.Lacks (a - 1) := by
  by_cases hd : t.directed
  · simp only [Lacks, NoExcess, hd, if_true] at *
    omega
  · simp only [Lacks, NoExcess, hd, Bool.false_eq_true, if_false] at *
    intro hodd
    have hodd := emod_two_of_tmod hodd
    omega

theorem not_lacks_of_agrees {a : Int} (h : t.Agrees a 0) : ¬t.Lacks a := by
  by_cases hd : t.directed
  · simp only [Lacks, Agrees, hd, if_true] at *
    omega
  · simp only [Lacks, Agrees, hd, Bool.false_eq_true, if_false] at *
    intro hodd
    have hodd := emod_two_of_tmod hodd
    omega

section Meets

variable {n m : Nat} {a d d' : Int}

theorem meets_surplus (v : Int) : t.Meets 0 0 (t.surplus v) (t.surplus v) := by
  by_cases hd : t.directed
  · simp [Meets, hd]
  · simp only [Meets, surplus, hd, Bool.false_eq_true, if_false]
    omega

theorem Meets.congr (h : t.Meets n m a d) (hd' : t.Agrees d d') : t.Meets n m a d' := by
  by_cases hd : t.directed
  · simp only [Meets, Agrees, hd, if_true] at *
    omega
  · simp only [Meets, Agrees, hd, Bool.false_eq_true, if_false] at *
    omega

theorem Meets.opened (h : t.Meets n m a d) (hexcess : ¬t.NoExcess d) :
    t.Meets (n + 1) m a (d - 1) := by
  by_cases hd : t.directed
  · simp only [Meets, NoExcess, hd, if_true] at *
    omega
  · simp only [Meets, NoExcess, hd, Bool.false_eq_true, if_false] at *
    omega

theorem Meets.stopped (h : t.Meets n m a d) (hshort : t.NoExcess (d + 1)) :
    t.Meets n (m + 1) a (d + 1) := by
  by_cases hd : t.directed
  · simp only [Meets, NoExcess, hd, if_true] at *
    omega
  · simp only [Meets, NoExcess, hd, Bool.false_eq_true, if_false] at *
    omega

end Meets

theorem surplus_pos (h : ¬t.NoExcess (t.surplus v)) : 0 < t.surplus v := by
  unfold NoExcess surplus at *
  by_cases hd : t.directed
  · simp only [hd, if_true] at h ⊢
    omega
  · simp only [hd, Bool.false_eq_true, if_false] at h ⊢
    omega

theorem isVertex_origin (he : e < t.graph.numEdges) : t.IsVertex (t.origin e) :=
  Graph.mem_vertexIds.1 (Graph.mem_vertexIds_of_touches he (Edge.touches_iff.2 (.inl rfl)))

/-- Free edges that lead away from a vertex lead to a vertex. -/
theorem isVertex_of_joins (hv : t.IsVertex v) (hspends : t.Spends u l u')
    (hjoins : Joins t.graph.edge v l w) : t.IsVertex w := by
  by_cases hl : l = []
  · subst hl
    exact hjoins ▸ hv
  · obtain ⟨e, he, hew⟩ := (hjoins.visits hl).2
    have hlt := (mem_freeIds.1 (hspends.mem_freeIds he)).1
    exact Graph.mem_vertexIds.1 (Graph.mem_vertexIds_of_touches hlt hew)

theorem balanceOf_adjust (hbalances : u.balance.size = t.graph.numVertices) (hv : t.IsVertex v)
    (hx : t.IsVertex x) (change : Int) :
    (u.adjust v change).balanceOf x = u.balanceOf x + if x = v then change else 0 := by
  obtain ⟨hv, hvn⟩ := hv
  obtain ⟨hx, hxn⟩ := hx
  have hsize : x.toNat < u.balance.size := by
    rw [hbalances]
    omega
  unfold Usage.balanceOf Usage.adjust
  rw [Array.getD_eq_getD_getElem?, Array.getD_eq_getD_getElem?, Array.getElem?_modify]
  by_cases hxv : x = v
  · subst hxv
    simp [hsize]
  · have hne : v.toNat ≠ x.toNat := by omega
    simp [hne, hxv]

theorem Consistent.adjust (hu : t.Consistent u) (v change : Int) :
    t.Consistent (u.adjust v change) where
  size := hu.size
  balances := (Array.size_modify ..).trans hu.balances
  paired := hu.paired
  counted := hu.counted

theorem demand_adjust (hu : t.Consistent u) (hv : t.IsVertex v) (hx : t.IsVertex x)
    (change : Int) :
    t.demand (u.adjust v change) x = t.demand u x - if x = v then change else 0 := by
  rw [demand, balanceOf_adjust hu.balances hv hx, demand]
  omega

theorem demand_congr (h : u'.balance = u.balance) (v : Int) : t.demand u' v = t.demand u v := by
  unfold demand Usage.balanceOf
  rw [h]

theorem mem_inIds (ht : t.Sound) :
    e ∈ t.incidence.inIds v ↔ e < t.graph.numEdges ∧ t.dest e = v := by
  rw [ht.incidence, Graph.inIds_incidence, List.mem_filter, t.graph.inOrder_inEdgeIds.mem_iff,
    beq_iff_eq]
  rfl

/-- A walk waits where walks are still to end and an edge that is no later than the next may arrive. -/
theorem waitsAt_iff (ht : t.Sound) {id : Int} : t.waitsAt u v id ↔
    t.Lacks (t.demand u v) ∧ ∃ f ∈ t.freeIds u, t.dest f = v ∧ t.key f ≤ id := by
  have hlacks : (if t.directed then decide (t.demand u v < 0) else (t.demand u v).tmod 2 == 1) = true ↔
      t.Lacks (t.demand u v) := by
    unfold Lacks
    split
    · rw [decide_eq_true_iff]
    · rw [beq_iff_eq]
  unfold waitsAt
  rw [Bool.and_eq_true, List.any_eq_true]
  refine and_congr hlacks (exists_congr fun f => ?_)
  rw [mem_inIds ht, mem_freeIds, Bool.and_eq_true, decide_eq_true_iff]
  tauto

/-! ### One walk -/

theorem exists_walk (ht : t.Sound) (hu : t.Consistent u) (v : Int) :
    ∃ l u' w, t.walk u v = .ok (l, u') ∧ t.Consistent u' ∧ u'.balance = u.balance ∧
      t.Spends u l u' ∧ Joins t.graph.edge v l w ∧ t.Ends u' w := by
  fun_induction walk t u v with
  | case1 u v hnone =>
      refine ⟨[], u, v, rfl, hu, rfl, .nil u, rfl, .inl fun e he hv => ?_⟩
      have hmem := (mem_free_outIds ht).2 ⟨he, hv⟩
      rw [leastEdge?_eq_none_iff.1 hnone] at hmem
      cases hmem
  | case2 u v e hleast hwaits =>
      obtain ⟨he, rfl, -⟩ := leastEdge?_free ht hleast
      have hvertex := isVertex_origin (mem_freeIds.1 he).1
      exact ⟨[], u, _, rfl, hu, rfl, .nil u, rfl, .inr ⟨hvertex, ((waitsAt_iff ht).1 hwaits).1⟩⟩
  | case3 u v e hleast hgo f hmark =>
      obtain ⟨he, -, -⟩ := leastEdge?_free ht hleast
      obtain ⟨u', hmark', -⟩ := exists_mark ht hu (mem_freeIds.1 he).2
      rw [hmark'] at hmark
      cases hmark
  | case4 u v e hleast hgo u₁ hmark ih =>
      obtain ⟨-, rfl, -⟩ := leastEdge?_free ht hleast
      obtain ⟨hu₁, hspends, hbalance⟩ := mark_spec ht hu hmark
      obtain ⟨l, u', w, hwalk, hu', hbalance', hspends', hjoins, hends⟩ := ih hu₁
      refine ⟨e :: l, u', w, ?_, hu', hbalance'.trans hbalance, hspends.trans hspends',
        ⟨rfl, hjoins⟩, hends⟩
      rw [hwalk]
      rfl

/-- A walk begins by the free edge that comes first in input order. -/
theorem mem_walk (ht : t.Sound) (hv : ¬t.Lacks (t.demand u v)) (h : t.walk u v = .ok (l, u'))
    (he : e ∈ t.freeIds u) (horigin : t.origin e = v)
    (hleast : ∀ f ∈ t.freeIds u, t.origin f = v →
      t.key e ≤ t.key f ∧ (t.key e = t.key f → e ≤ f)) : e ∈ l := by
  rw [walk, leastEdge?_eq_some ht he horigin hleast] at h
  dsimp only at h
  rw [if_neg fun hwaits => hv ((waitsAt_iff ht).1 hwaits).1] at h
  split at h
  · cases h
  · rename_i u₁ hmark
    cases hrest : t.walk u₁ (t.dest e) with
    | error f =>
        rw [hrest] at h
        cases h
    | ok r =>
        rw [hrest] at h
        cases h
        exact List.mem_cons_self

/-! ### Walks for surplus -/

/-- The free edges at a vertex agree with what it demands, and only a vertex with a surplus is
unsettled. -/
structure Ledger (t : Thread) (u : Usage) : Prop where
  consistent : t.Consistent u
  agrees : ∀ x, t.IsVertex x → t.Agrees (t.net u x) (t.demand u x)
  surplus : ∀ x, t.IsVertex x → ¬t.IsSettled u x → 0 < t.surplus x

theorem balanceOf_start (x : Int) : t.start.balanceOf x = 0 := by
  unfold Usage.balanceOf start
  rw [Array.getD_eq_getD_getElem?, Array.getElem?_replicate]
  split
  · rfl
  · rfl

theorem demand_start (x : Int) : t.demand t.start x = t.surplus x := by
  rw [demand, balanceOf_start, Int.sub_zero]

theorem ledger_start (ht : t.Sound) : t.Ledger t.start := by
  refine ⟨consistent_start ht, fun x hx => ?_, fun x hx hunsettled => ?_⟩
  · rw [demand_start]
    exact agrees_start ht x
  · rw [IsSettled, demand_start] at hunsettled
    exact surplus_pos hunsettled

theorem beginsAt_iff (hu : t.Ledger u) (hv : t.IsVertex v) :
    t.beginsAt u v ↔ ¬t.IsSettled u v := by
  have hsurplus := hu.surplus v hv
  unfold beginsAt
  unfold IsSettled NoExcess demand at *
  by_cases hd : t.directed
  · simp only [hd, if_true, Bool.and_eq_true, decide_eq_true_eq, not_le] at hsurplus ⊢
    exact ⟨And.right, fun h => ⟨hsurplus h, h⟩⟩
  · simp only [hd, Bool.false_eq_true, if_false, Bool.and_eq_true, decide_eq_true_eq, bne_iff_ne,
      ne_eq] at hsurplus ⊢
    exact ⟨And.right, fun h => ⟨hsurplus h, h⟩⟩

theorem not_lacks_adjust (hu : t.Consistent u) (hv : t.IsVertex v)
    (hunsettled : ¬t.IsSettled u v) : ¬t.Lacks (t.demand (u.adjust v 1) v) := by
  rw [demand_adjust hu hv hv, if_pos rfl]
  exact not_lacks_sub_one hunsettled

/-- Where a walk ends, one more may end. -/
theorem Ends.noExcess (hends : t.Ends u v) (hagrees : t.Agrees (t.net u v) (t.demand u v + 1)) :
    t.NoExcess (t.demand u v + 1) := by
  rcases hends with hnone | ⟨-, hlacks⟩
  · exact hagrees.symm.noExcess (noExcess_of_no_free hnone)
  · exact hlacks.noExcess

/-- What a walk for the surplus of a vertex is: it ends at another vertex, where one more may end. -/
structure Opened (t : Thread) (u : Usage) (v : Int) (l : List Nat) (w : Int) (u' : Usage) :
    Prop where
  consistent : t.Consistent u'
  spends : t.Spends u l u'
  joins : Joins t.graph.edge v l w
  ne : v ≠ w
  short : t.NoExcess (t.demand u w + 1)
  demand : ∀ x, t.IsVertex x →
    t.demand u' x = t.demand u x - (if x = v then 1 else 0) + if x = w then 1 else 0

theorem exists_opened (ht : t.Sound) (hu : t.Ledger u) (hv : t.IsVertex v)
    (hunsettled : ¬t.IsSettled u v) : ∃ l u' w, t.walk (u.adjust v 1) v = .ok (l, u') ∧
      t.Opened u v l w (u'.adjust w (-1)) := by
  obtain ⟨l, u', w, hwalk, hu', hbalance, hspends, hjoins, hends⟩ :=
    exists_walk ht (hu.consistent.adjust v 1) v
  have hspends : t.Spends u l u' := hspends
  have hw := isVertex_of_joins hv hspends hjoins
  have hbegun : ∀ x, t.IsVertex x →
      t.demand u' x = t.demand u x - if x = v then 1 else 0 := by
    intro x hx
    rw [demand_congr hbalance, demand_adjust hu.consistent hv hx]
  have hagrees := agrees_of_spends ht hspends hjoins (hu.agrees w hw)
  rw [← hbegun w hw, if_pos rfl] at hagrees
  -- If the walk came back to `v`, this would say that `v` had no excess to begin with.
  have hshort := hends.noExcess hagrees
  rw [hbegun w hw] at hshort
  have hne : v ≠ w := by
    rintro rfl
    rw [if_pos rfl, Int.sub_add_cancel] at hshort
    exact hunsettled hshort
  rw [if_neg hne.symm, Int.sub_zero] at hshort
  refine ⟨l, u', w, hwalk, hu'.adjust w _, hspends, hjoins, hne, hshort, fun x hx => ?_⟩
  rw [demand_adjust hu' hw hx, hbegun x hx]
  split <;> omega

namespace Opened

variable (h : t.Opened u v l w u') (hunsettled : ¬t.IsSettled u v)

include h hunsettled

/-- A vertex that is settled stays so. -/
theorem isSettled (hx : t.IsVertex x) (hsettled : t.IsSettled u x) : t.IsSettled u' x := by
  have hxv : x ≠ v := fun hxv => hunsettled (hxv ▸ hsettled)
  rw [IsSettled, h.demand x hx, if_neg hxv, Int.sub_zero]
  by_cases hxw : x = w
  · rw [if_pos hxw, hxw]
    exact h.short
  · rw [if_neg hxw, Int.add_zero]
    exact hsettled

theorem ledger (ht : t.Sound) (hu : t.Ledger u) : t.Ledger u' where
  consistent := h.consistent
  agrees x hx := by
    rw [h.demand x hx]
    exact agrees_of_spends ht h.spends h.joins (hu.agrees x hx)
  surplus x hx hnot := hu.surplus x hx fun hsettled => hnot (h.isSettled hunsettled hx hsettled)

/-- At a vertex the walk is accounted for by the demand. -/
theorem meets (hl : l ≠ []) (hx : t.IsVertex x) {n m : Nat} {a : Int}
    (hmeets : t.Meets n m a (t.demand u x)) :
    t.Meets (n + if opensAt t.graph.edge x l then 1 else 0)
      (m + if stopsAt t.graph.edge x l then 1 else 0) a (t.demand u' x) := by
  have hends := h.joins.ends_eq hl
  have hne := h.ne
  rw [h.demand x hx]
  by_cases hxv : x = v
  · subst hxv
    rw [if_pos rfl, if_neg hne, if_pos ((opensAt_iff hends).2 ⟨rfl, hne.symm⟩),
      if_neg fun hstops => hne ((stopsAt_iff hends).1 hstops).1.symm, Int.add_zero]
    exact hmeets.opened hunsettled
  · rw [if_neg hxv, if_neg fun hopens => hxv ((opensAt_iff hends).1 hopens).1.symm, Int.sub_zero]
    by_cases hxw : x = w
    · subst hxw
      rw [if_pos rfl, if_pos ((stopsAt_iff hends).2 ⟨rfl, hne⟩)]
      exact hmeets.stopped h.short
    · rw [if_neg hxw, if_neg fun hstops => hxw ((stopsAt_iff hends).1 hstops).1.symm, Int.add_zero]
      exact hmeets

end Opened

/-- Every free edge is still to be taken up, or its origin is settled. -/
def Awaits (t : Thread) (u : Usage) (edges : List Nat) : Prop :=
  ∀ e ∈ t.freeIds u, e ∈ edges ∨ t.IsSettled u (t.origin e)

/-- An edge that is taken up at an unsettled vertex comes first of the free edges that leave there. -/
theorem Awaits.first {edges : List Nat} (h : t.Awaits u (e :: edges))
    (hfirst : ∀ f ∈ edges, t.key e ≤ t.key f ∧ (t.key e = t.key f → e < f))
    (hunsettled : ¬t.IsSettled u (t.origin e)) :
    ∀ f ∈ t.freeIds u, t.origin f = t.origin e →
      t.key e ≤ t.key f ∧ (t.key e = t.key f → e ≤ f) := by
  intro f hf hfv
  rcases h f hf with hf | hsettled
  · rcases List.mem_cons.1 hf with rfl | hf
    · exact ⟨le_refl _, fun _ => le_refl _⟩
    · exact ⟨(hfirst f hf).1, fun heq => ((hfirst f hf).2 heq).le⟩
  · exact absurd (hfv ▸ hsettled) hunsettled

theorem Awaits.next {edges : List Nat} (h : t.Awaits u (e :: edges)) (hspends : t.Spends u l u')
    (he : e ∈ l) (hkeeps : ∀ x, t.IsVertex x → t.IsSettled u x → t.IsSettled u' x) :
    t.Awaits u' edges := by
  intro f hf
  obtain ⟨hlt, hfree⟩ := mem_freeIds.1 hf
  rcases h f (mem_freeIds.2 ⟨hlt, hspends.isFree hlt hfree⟩) with hf | hsettled
  · rcases List.mem_cons.1 hf with rfl | hf
    · exact absurd hfree (hspends.not_isFree he)
    · exact .inl hf
  · exact .inr (hkeeps _ (isVertex_origin hlt) hsettled)

theorem Awaits.skip {edges : List Nat} (h : t.Awaits u (e :: edges)) (hu : t.Ledger u)
    (hbegins : ¬(u.isFree e && t.beginsAt u (t.origin e)) = true) : t.Awaits u edges := by
  intro f hf
  rcases h f hf with hmem | hsettled
  · rcases List.mem_cons.1 hmem with rfl | hmem
    · obtain ⟨hlt, hfree⟩ := mem_freeIds.1 hf
      refine .inr (not_not.1 fun hunsettled => hbegins ?_)
      rw [hfree, (beginsAt_iff hu (isVertex_origin hlt)).2 hunsettled]
      rfl
    · exact .inl hmem
  · exact .inr hsettled

/-- What walks for surplus are: open, and at every vertex the demand tells how many have begun and
ended. -/
structure Accounts (t : Thread) (u : Usage) (lines : List (List Nat)) (u' : Usage) : Prop where
  opened : ∀ l ∈ lines, ¬closes t.graph.edge l
  meets : ∀ x, t.IsVertex x → ∀ n m a, t.Meets n m a (t.demand u x) →
    t.Meets (n + lines.countP (opensAt t.graph.edge x))
      (m + lines.countP (stopsAt t.graph.edge x)) a (t.demand u' x)

theorem Accounts.nil (u : Usage) : t.Accounts u [] u where
  opened _ hl := absurd hl List.not_mem_nil
  meets _ _ _ _ _ := id

theorem Accounts.cons {lines : List (List Nat)} (h : t.Opened u v l w u')
    (hunsettled : ¬t.IsSettled u v) (hl : l ≠ []) (hrest : t.Accounts u' lines u'') :
    t.Accounts u (l :: lines) u'' where
  opened := by
    refine List.forall_mem_cons.2 ⟨fun hcloses => ?_, hrest.opened⟩
    exact h.ne ((closes_iff (h.joins.ends_eq hl)).1 hcloses)
  meets x hx n m a hmeets := by
    have hcount := hrest.meets x hx _ _ a (h.meets hunsettled hl hx hmeets)
    rw [List.countP_cons, List.countP_cons, Nat.add_comm (List.countP _ _), ← Nat.add_assoc,
      Nat.add_comm (List.countP _ _), ← Nat.add_assoc]
    exact hcount

/-- A walk that begins for the surplus of a vertex comes first. -/
theorem openWalks_cons {edges : List Nat} {lines : List (List Nat)}
    (hbegins : (u.isFree e && t.beginsAt u (t.origin e)) = true)
    (hwalk : t.walk (u.adjust (t.origin e) 1) (t.origin e) = .ok (l, u')) (hl : l ≠ [])
    (hjoins : Joins t.graph.edge v l w)
    (hrest : t.openWalks (u'.adjust w (-1)) edges = .ok (lines, u'')) :
    t.openWalks u (e :: edges) = .ok (l :: lines, u'') := by
  obtain ⟨front, last, rfl⟩ := (List.eq_nil_or_concat' l).resolve_left hl
  have hdest : t.dest last = w := (joins_concat.1 hjoins).2
  rw [openWalks, if_pos hbegins, hwalk]
  simp only [bind, Except.bind, List.getLast?_concat, hdest, hrest]
  rfl

/-- Walks for surplus begin until the vertices that free edges leave are settled. -/
theorem exists_openWalks (ht : t.Sound) (hu : t.Ledger u) {edges : List Nat}
    (hedges : edges.Pairwise fun a b => t.key a ≤ t.key b ∧ (t.key a = t.key b → a < b))
    (hawaits : t.Awaits u edges) :
    ∃ lines u', t.openWalks u edges = .ok (lines, u') ∧ t.Draws u lines u' ∧
      t.Accounts u lines u' ∧ t.Ledger u' ∧ t.Awaits u' [] := by
  induction edges generalizing u with
  | nil => exact ⟨[], u, rfl, .nil hu.consistent, .nil u, hu, hawaits⟩
  | cons e edges ih =>
      obtain ⟨hfirst, hedges⟩ := List.pairwise_cons.1 hedges
      by_cases hbegins : u.isFree e && t.beginsAt u (t.origin e)
      · obtain ⟨hfree, hbegin⟩ := (Bool.and_eq_true _ _).mp hbegins
        have hlt := hu.consistent.lt hfree
        have hv := isVertex_origin hlt
        have hunsettled := (beginsAt_iff hu hv).1 hbegin
        obtain ⟨l, u₁, w, hwalk, hopened⟩ := exists_opened ht hu hv hunsettled
        have hmem : e ∈ l := mem_walk ht (not_lacks_adjust hu.consistent hv hunsettled) hwalk
          (mem_freeIds.2 ⟨hlt, hfree⟩) rfl (hawaits.first hfirst hunsettled)
        have hne := List.ne_nil_of_mem hmem
        obtain ⟨lines, u', hrest, hdraws, haccounts, hspec⟩ :=
          ih (hopened.ledger hunsettled ht hu) hedges
            (hawaits.next hopened.spends hmem fun x => hopened.isSettled hunsettled)
        exact ⟨l :: lines, u', openWalks_cons hbegins hwalk hne hopened.joins hrest,
          hdraws.cons hopened.spends ⟨hne, hopened.joins.isChain⟩,
          haccounts.cons hopened hunsettled hne, hspec⟩
      · obtain ⟨lines, u', hrest, hspec⟩ := ih hu hedges (hawaits.skip hu hbegins)
        refine ⟨lines, u', ?_, hspec⟩
        rw [openWalks, if_neg hbegins, hrest]

end SnapGraph.Thread
