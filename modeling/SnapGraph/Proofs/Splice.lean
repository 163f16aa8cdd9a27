import Mathlib
import SnapGraph.Proofs.Walk

/-! Walks use up all edges. Once no walk is to begin for a surplus, every vertex is balanced and no
walk waits: from then on walks close, and end only when no free edge is left at their start. Splicing
does this at every vertex of a polyline, so that it leaves no free edge at any of them. A closed walk
that is begun later has no vertex with a polyline before it in common, and takes all edges at its own
vertices. -/

namespace SnapGraph.Thread

variable {t : Thread} {u u' u'' : Usage} {e : Nat} {l l' rest : List Nat} {v w x : Int}
  {lines lines' more : List (List Nat)}

/-! ### Balance -/

/-- As many free edges leave a vertex as enter it, of undirected edges an even number, and no walk
waits. -/
structure Balanced (t : Thread) (u : Usage) : Prop where
  consistent : t.Consistent u
  agrees : ∀ x, t.Agrees (t.net u x) 0
  contented : ∀ x, t.IsVertex x → ¬t.Lacks (t.demand u x)

theorem Ledger.agrees_zero (hu : t.Ledger u) (hdone : t.Awaits u []) (x : Int) :
    t.Agrees (t.net u x) 0 := by
  have hsettled : ∀ x, t.IsVertex x → t.IsSettled u x := by
    intro x hx
    by_contra hunsettled
    have hnone : ∀ e ∈ t.freeIds u, t.origin e ≠ x := by
      rintro e he rfl
      exact hunsettled ((hdone e he).resolve_left List.not_mem_nil)
    exact hunsettled ((hu.agrees x hx).symm.noExcess (noExcess_of_no_free hnone))
  refine agrees_zero_of_noExcess (fun x => ?_) x
  by_cases hx : t.IsVertex x
  · exact (hu.agrees x hx).noExcess (hsettled x hx)
  · apply noExcess_of_no_free
    rintro e he rfl
    exact hx (isVertex_origin (mem_freeIds.1 he).1)

theorem Ledger.demand_agrees_zero (hu : t.Ledger u) (hdone : t.Awaits u []) (hx : t.IsVertex x) :
    t.Agrees (t.demand u x) 0 := (hu.agrees x hx).symm.trans (hu.agrees_zero hdone x)

theorem Ledger.balanced (hu : t.Ledger u) (hdone : t.Awaits u []) : t.Balanced u where
  consistent := hu.consistent
  agrees := hu.agrees_zero hdone
  contented _ hx := not_lacks_of_agrees (hu.demand_agrees_zero hdone hx)

/-- No free edge is at the vertex. -/
def Drained (t : Thread) (u : Usage) (x : Int) : Prop :=
  ∀ e ∈ t.freeIds u, ¬(t.graph.edge e).touches x

theorem Drained.of_spends (h : t.Drained u x) (hspends : t.Spends u l u') : t.Drained u' x := by
  intro e he
  obtain ⟨hlt, hfree⟩ := mem_freeIds.1 he
  exact h e (mem_freeIds.2 ⟨hlt, hspends.isFree hlt hfree⟩)

/-- Where the balance is zero, no free edge enters a vertex that none leaves. -/
theorem Balanced.drained (ht : t.Sound) (hu : t.Balanced u)
    (hnone : ∀ e ∈ t.freeIds u, t.origin e ≠ x) : t.Drained u x := by
  intro e he htouches
  rcases Edge.touches_iff.1 htouches with horigin | hdest
  · exact hnone e he horigin
  · by_cases hd : t.directed
    · have hzero := hu.agrees x
      have hout : ((t.freeIds u).countP fun e => (t.graph.edge e).origin == x) = 0 :=
        List.countP_eq_zero.2 fun f hf hfx => hnone f hf (beq_iff_eq.1 hfx)
      have hin : 0 < (t.freeIds u).countP fun e => (t.graph.edge e).dest == x :=
        List.countP_pos_iff.2 ⟨e, he, beq_iff_eq.2 hdest⟩
      rw [Agrees, net, if_pos hd, if_pos hd, hout] at hzero
      omega
    · have hd : t.directed = false := by simpa using hd
      obtain ⟨hlt, hfree⟩ := mem_freeIds.1 he
      have hsibling : t.sibling e ∈ t.freeIds u :=
        mem_freeIds.2 ⟨(ht.pairs hd).lt e hlt, (hu.consistent.paired hd e hlt).trans hfree⟩
      apply hnone _ hsibling
      rw [origin, (ht.pairs hd).edge e hlt]
      exact hdest

/-- A walk comes back to where it began, and ends when no free edge is left there. -/
theorem Balanced.exists_walk (ht : t.Sound) (hu : t.Balanced u) (v : Int) :
    ∃ l u', t.walk u v = .ok (l, u') ∧ t.Balanced u' ∧ t.Spends u l u' ∧
      Joins t.graph.edge v l v ∧ t.Drained u' v := by
  obtain ⟨l, u', w, hwalk, hu', hbalance, hspends, hjoins, hends⟩ :=
    Thread.exists_walk ht hu.consistent v
  have hcontented : ∀ x, t.IsVertex x → ¬t.Lacks (t.demand u' x) := by
    intro x hx
    rw [demand_congr hbalance]
    exact hu.contented x hx
  have hnone : ∀ e ∈ t.freeIds u', t.origin e ≠ w :=
    hends.resolve_right fun h => hcontented w h.1 h.2
  have hafter : ∀ x, t.Agrees (t.net u' x) (0 - (if x = v then 1 else 0) + if x = w then 1 else 0) :=
    fun x => agrees_of_spends ht hspends hjoins (hu.agrees x)
  have hw : w = v := by
    by_contra hwv
    have hone := hafter w
    rw [if_neg hwv, if_pos rfl] at hone
    obtain ⟨e, he, horigin⟩ := exists_free_of_agrees hone
    exact hnone e he horigin
  subst hw
  have hbalanced : t.Balanced u' := by
    refine ⟨hu', fun x => ?_, hcontented⟩
    have hx := hafter x
    rw [Int.sub_add_cancel] at hx
    exact hx
  exact ⟨l, u', hwalk, hbalanced, hspends, hjoins, hbalanced.drained ht hnone⟩

/-! ### Splicing -/

theorem cons_perm_of_append_eq {found fresh tail : List Nat} (h : found ++ rest = e :: tail)
    (hperm : l.Perm (fresh ++ tail)) : (e :: l).Perm (found ++ fresh ++ rest) :=
  calc (e :: l).Perm (e :: (fresh ++ tail)) := hperm.cons e
    _ |>.Perm (fresh ++ e :: tail) := List.perm_middle.symm
    _ |>.Perm (fresh ++ (found ++ rest)) := by rw [h]
    _ |>.Perm (found ++ (fresh ++ rest)) := List.perm_append_comm_assoc _ _ _
    _ = found ++ fresh ++ rest := (List.append_assoc _ _ _).symm

theorem drained_of_cons (hfirst : t.Drained u (t.origin e))
    (hrest : ∀ x, x = t.dest e ∨ Visits t.graph.edge l x → t.Drained u x) :
    ∀ x, x = t.origin e ∨ Visits t.graph.edge (e :: l) x → t.Drained u x := by
  rintro x (rfl | hx)
  · exact hfirst
  · rcases visits_cons.1 hx with horigin | hdest | hx
    · exact horigin ▸ hfirst
    · exact hrest x (.inl hdest.symm)
    · exact hrest x (.inr hx)

/-- Splicing keeps a way, adds free edges to it, and leaves no free edge at its vertices. -/
theorem exists_splice (ht : t.Sound) (hu : t.Balanced u) (hrest : Joins t.graph.edge v rest w) :
    ∃ l fresh u', t.splice u v rest = .ok (l, u') ∧ t.Balanced u' ∧ t.Spends u fresh u' ∧
      Joins t.graph.edge v l w ∧ l.Perm (fresh ++ rest) ∧
      ∀ x, x = v ∨ Visits t.graph.edge l x → t.Drained u' x := by
  fun_induction splice t u v rest with
  | case1 u v rest f hwalk =>
      obtain ⟨found, u₁, hwalk', -⟩ := hu.exists_walk ht v
      rw [hwalk'] at hwalk
      cases hwalk
  | case2 u v rest found u₁ hwalk hclosed hnil =>
      obtain ⟨found', u₁', hwalk', hu₁, hspends, -, hdrained⟩ := hu.exists_walk ht v
      rw [hwalk'] at hwalk
      cases hwalk
      obtain ⟨rfl, rfl⟩ := List.append_eq_nil_iff.1 hnil
      refine ⟨[], [], u₁, rfl, hu₁, hspends, hrest, .refl _, ?_⟩
      rintro x (rfl | ⟨e, he, -⟩)
      · exact hdrained
      · exact absurd he List.not_mem_nil
  | case3 u v rest found u₁ hwalk hclosed e rest' hcons ih =>
      obtain ⟨found', u₁', hwalk', hu₁, hspends, hloop, hdrained⟩ := hu.exists_walk ht v
      rw [hwalk'] at hwalk
      cases hwalk
      have hjoins : Joins t.graph.edge v (found ++ rest) w := joins_append.2 ⟨v, hloop, hrest⟩
      rw [hcons] at hjoins
      obtain ⟨l, fresh, u', hsplice, hu', hspends', hl, hperm, hdrained'⟩ := ih hu₁ hjoins.2
      obtain ⟨rfl, -⟩ := hjoins
      refine ⟨e :: l, found ++ fresh, u', by rw [hsplice]; rfl, hu', hspends.trans hspends',
        ⟨rfl, hl⟩, cons_perm_of_append_eq hcons hperm, ?_⟩
      exact drained_of_cons (hdrained.of_spends hspends') hdrained'
  | case4 u v rest found u₁ hwalk hopen =>
      obtain ⟨found', u₁', hwalk', -, -, hloop, -⟩ := hu.exists_walk ht v
      rw [hwalk'] at hwalk
      cases hwalk
      refine absurd ?_ hopen
      rcases List.eq_nil_or_concat' found with rfl | ⟨front, last, rfl⟩
      · rfl
      · rw [List.getLast?_concat, Option.all_some]
        exact beq_iff_eq.2 (joins_concat.1 hloop).2

/-- Polylines after splicing: they begin and end as before, and no free edge is left at their
vertices. -/
structure Grows (t : Thread) (u : Usage) (lines fresh : List (List Nat)) (u' : Usage) : Prop where
  balanced : t.Balanced u'
  spends : ∃ new, t.Spends u new u' ∧ fresh.flatten.Perm (new ++ lines.flatten)
  polylines : ∀ l ∈ fresh, IsPolyline t.graph.edge l
  ends : fresh.map (ends t.graph.edge) = lines.map (ends t.graph.edge)
  drained : ∀ l ∈ fresh, ∀ x, Visits t.graph.edge l x → t.Drained u' x

theorem Grows.cons (h : t.Grows u [l] [l'] u') (hrest : t.Grows u' lines lines' u'') :
    t.Grows u (l :: lines) (l' :: lines') u'' where
  balanced := hrest.balanced
  spends := by
    obtain ⟨new, hspends, hperm⟩ := h.spends
    obtain ⟨new', hspends', hperm'⟩ := hrest.spends
    rw [List.flatten_singleton, List.flatten_singleton] at hperm
    refine ⟨new ++ new', hspends.trans hspends', ?_⟩
    rw [List.flatten_cons, List.flatten_cons]
    calc (l' ++ lines'.flatten).Perm (new ++ l ++ (new' ++ lines.flatten)) := hperm.append hperm'
      _ |>.Perm (new ++ new' ++ (l ++ lines.flatten)) := by
        rw [List.append_assoc, List.append_assoc]
        exact (List.perm_append_comm_assoc _ _ _).append_left new
  polylines := List.forall_mem_cons.2 ⟨h.polylines _ List.mem_cons_self, hrest.polylines⟩
  ends := by
    rw [List.map_cons, List.map_cons, hrest.ends, (List.cons.inj h.ends).1]
  drained := by
    obtain ⟨new, hspends, -⟩ := hrest.spends
    refine List.forall_mem_cons.2 ⟨fun x hx => ?_, hrest.drained⟩
    exact (h.drained _ List.mem_cons_self x hx).of_spends hspends

theorem exists_maximize (ht : t.Sound) (hu : t.Balanced u) (hl : IsPolyline t.graph.edge l) :
    ∃ l' u', t.maximize u l = .ok (l', u') ∧ t.Grows u [l] [l'] u' := by
  cases l with
  | nil => exact absurd rfl hl.ne_nil
  | cons e l =>
      obtain ⟨w, hjoins⟩ := hl.joins
      obtain ⟨l', new, u', hsplice, hu', hspends, hjoins', hperm, hdrained⟩ :=
        exists_splice ht hu hjoins
      have hne : l' ≠ [] := by
        rintro rfl
        exact List.append_ne_nil_of_right_ne_nil _ (List.cons_ne_nil _ _) hperm.nil_eq.symm
      refine ⟨l', u', hsplice, hu', ⟨new, hspends, ?_⟩, ?_, ?_, ?_⟩
      · rw [List.flatten_singleton, List.flatten_singleton]
        exact hperm
      · exact List.forall_mem_singleton.2 ⟨hne, hjoins'.isChain⟩
      · rw [List.map_singleton, List.map_singleton, hjoins'.ends_eq hne,
          hjoins.ends_eq (List.cons_ne_nil _ _)]
      · exact List.forall_mem_singleton.2 fun x hx => hdrained x (.inr hx)

theorem exists_maximizeAll (ht : t.Sound) (hu : t.Balanced u)
    (hlines : ∀ l ∈ lines, IsPolyline t.graph.edge l) :
    ∃ lines' u', t.maximizeAll u lines = .ok (lines', u') ∧ t.Grows u lines lines' u' := by
  induction lines generalizing u with
  | nil => exact ⟨[], u, rfl, hu, ⟨[], .nil u, .refl _⟩, by simp, rfl, by simp⟩
  | cons l lines ih =>
      obtain ⟨hl, hlines⟩ := List.forall_mem_cons.1 hlines
      obtain ⟨l', u₁, hmaximize, hgrows⟩ := exists_maximize ht hu hl
      obtain ⟨lines', u', hrest, hgrows'⟩ := ih hgrows.balanced hlines
      refine ⟨l' :: lines', u', ?_, hgrows.cons hgrows'⟩
      rw [maximizeAll, hmaximize]
      show (t.maximizeAll u₁ lines >>= _) = _
      rw [hrest]
      rfl

/-! ### Closed walks -/

/-- All that is used together with a polyline is at its vertices. -/
theorem visits_of_mem_both (ht : t.Sound) (hl : ∀ e ∈ l, e < t.graph.numEdges) (he : e ∈ t.both l)
    (htouches : (t.graph.edge e).touches x) : Visits t.graph.edge l x := by
  rcases mem_both.1 he with hmem | ⟨hd, f, hf, rfl⟩
  · exact ⟨e, hmem, htouches⟩
  · refine ⟨f, hf, ?_⟩
    rw [(ht.pairs hd).edge f (hl f hf), Edge.touches_iff] at htouches
    exact Edge.touches_iff.2 htouches.symm

/-- What is drawn while every vertex is balanced: no free edge is left at the vertices of a polyline,
a closed one has all edges at its vertices, and the open ones settle every surplus. -/
structure Drawn (t : Thread) (lines : List (List Nat)) (u : Usage) : Prop where
  balanced : t.Balanced u
  draws : t.Draws t.start lines u
  drained : ∀ l ∈ lines, ∀ x, Visits t.graph.edge l x → t.Drained u x
  whole : ∀ l ∈ lines, closes t.graph.edge l → ∀ x, Visits t.graph.edge l x →
    ∀ e < t.graph.numEdges, (t.graph.edge e).touches x → e ∈ t.both l
  meets : ∀ x, t.IsVertex x → t.Meets (lines.countP (opensAt t.graph.edge x))
    (lines.countP (stopsAt t.graph.edge x)) (t.surplus x) 0

theorem Draws.lt (h : t.Draws t.start lines u) (hl : l ∈ lines) : ∀ e ∈ l, e < t.graph.numEdges :=
  fun _ he => (mem_freeIds.1 (h.spends.mem_freeIds (List.mem_flatten_of_mem hl he))).1

/-- An edge is free, or used with one of the polylines. -/
theorem Draws.isFree_or_mem (h : t.Draws t.start lines u) (he : e < t.graph.numEdges) :
    e ∈ t.freeIds u ∨ ∃ l ∈ lines, e ∈ t.both l := by
  have hperm := h.spends
  rw [Spends, freeIds_start] at hperm
  rcases List.mem_append.1 (hperm.mem_iff.1 (t.graph.mem_edgeIds.2 he)) with hboth | hfree
  · right
    rcases mem_both.1 hboth with hmem | ⟨hd, f, hf, hsibling⟩
    · obtain ⟨l, hl, he⟩ := List.mem_flatten.1 hmem
      exact ⟨l, hl, mem_both.2 (.inl he)⟩
    · obtain ⟨l, hl, hf⟩ := List.mem_flatten.1 hf
      exact ⟨l, hl, mem_both.2 (.inr ⟨hd, f, hf, hsibling⟩)⟩
  · exact .inl hfree

/-- A closed walk that leaves no free edge at its vertices has all edges there: an edge of another
polyline would have no free edge beside it. -/
theorem Drawn.concat (ht : t.Sound) (h : t.Drawn lines u) (hu' : t.Balanced u')
    (hdraws : t.Draws u [l] u') (hcloses : closes t.graph.edge l)
    (hdrained : ∀ x, Visits t.graph.edge l x → t.Drained u' x) : t.Drawn (lines ++ [l]) u' where
  balanced := hu'
  draws := h.draws.append hdraws
  drained := by
    refine List.forall_mem_append.2 ⟨fun m hm x hx => ?_, List.forall_mem_singleton.2 hdrained⟩
    exact (h.drained m hm x hx).of_spends hdraws.spends
  whole := by
    refine List.forall_mem_append.2 ⟨h.whole, List.forall_mem_singleton.2 ?_⟩
    rintro - x ⟨f, hf, hfx⟩ e he hex
    -- The edge `f` of the walk was free until now, so no earlier polyline is at `x`.
    have hffree := hdraws.spends.mem_freeIds (List.mem_flatten_of_mem List.mem_cons_self hf)
    rcases h.draws.isFree_or_mem he with hfree | ⟨m, hm, hmem⟩
    · rcases List.mem_append.1 (hdraws.spends.mem_iff.1 hfree) with hboth | hleft
      · rwa [List.flatten_singleton] at hboth
      · exact absurd hex (hdrained x ⟨f, hf, hfx⟩ e hleft)
    · have hvisits := visits_of_mem_both ht (h.draws.lt hm) hmem hex
      exact absurd hfx (h.drained m hm x hvisits f hffree)
  meets x hx := by
    obtain ⟨a, b, -, hends⟩ := (hdraws.polylines l List.mem_cons_self).exists_joins
    have hab := (closes_iff hends).1 hcloses
    have hopens : ¬opensAt t.graph.edge x l := fun hopens =>
      ((opensAt_iff hends).1 hopens).2 (hab ▸ ((opensAt_iff hends).1 hopens).1)
    have hstops : ¬stopsAt t.graph.edge x l := fun hstops =>
      ((stopsAt_iff hends).1 hstops).2 (hab ▸ ((stopsAt_iff hends).1 hstops).1)
    rw [List.countP_append, List.countP_append, List.countP_singleton, List.countP_singleton,
      if_neg hopens, if_neg hstops]
    exact h.meets x hx

/-- A closed walk leaves no free edge at its start. -/
theorem Drawn.exists_closedWalk (ht : t.Sound) (h : t.Drawn lines u) (v : Int) :
    ∃ more u', t.closedWalk u v = .ok (more, u') ∧ t.Drawn (lines ++ more) u' ∧
      t.Draws u more u' ∧ t.Drained u' v := by
  obtain ⟨l, u₁, hwalk, hu₁, hspends, hjoins, hdrained⟩ := h.balanced.exists_walk ht v
  cases l with
  | nil =>
      have hdraws : t.Draws u [] u₁ := ⟨hu₁.consistent, hspends, by simp⟩
      refine ⟨[], u₁, by rw [closedWalk, hwalk]; rfl, ⟨hu₁, h.draws.append hdraws, ?_, ?_, ?_⟩, hdraws,
        hdrained⟩
      · rw [List.append_nil]
        exact fun m hm x hx => (h.drained m hm x hx).of_spends hspends
      · rw [List.append_nil]
        exact h.whole
      · rw [List.append_nil]
        exact h.meets
  | cons e l =>
      obtain ⟨l', u', hmaximize, hgrows⟩ := exists_maximize ht hu₁ hjoins.isPolyline
      obtain ⟨new, hspends', hperm⟩ := hgrows.spends
      rw [List.flatten_singleton, List.flatten_singleton] at hperm
      have hends : ends t.graph.edge l' = (some v, some v) := by
        rw [(List.cons.inj hgrows.ends).1, hjoins.ends_eq (List.cons_ne_nil _ _)]
      have hdraws : t.Draws u [l'] u' := by
        refine .cons ?_ (hgrows.polylines l' List.mem_cons_self) (.nil hgrows.balanced.consistent)
        exact (hspends.trans hspends').of_perm (List.perm_append_comm.trans hperm.symm)
      refine ⟨[l'], u', ?_, ?_, hdraws, hdrained.of_spends hspends'⟩
      · rw [closedWalk, hwalk]
        show (t.maximize u₁ (e :: l) >>= _) = _
        rw [hmaximize]
        rfl
      · exact h.concat ht hgrows.balanced hdraws ((closes_iff hends).2 rfl)
          (hgrows.drained l' List.mem_cons_self)

/-- Closed walks leave no edge behind if they may begin anywhere. -/
theorem Drawn.exists_closedWalks (ht : t.Sound) (h : t.Drawn lines u)
    (starts : Usage → List Nat → Bool) (edges : List Nat) :
    ∃ more u', t.closedWalks starts u edges = .ok (more, u') ∧ t.Drawn (lines ++ more) u' ∧
      t.Draws u more u' ∧ ((∀ u l, starts u l) → ∀ e ∈ edges, ¬u'.isFree e) := by
  induction edges generalizing lines u with
  | nil =>
      refine ⟨[], u, rfl, (List.append_nil lines).symm ▸ h, .nil h.balanced.consistent, fun _ e he => ?_⟩
      exact absurd he List.not_mem_nil
  | cons e edges ih =>
      by_cases hremaining : u.remaining = 0
      · refine ⟨[], u, ?_, (List.append_nil lines).symm ▸ h, .nil h.balanced.consistent, fun _ f _ => ?_⟩
        · rw [closedWalks, if_pos hremaining]
        · exact h.balanced.consistent.not_isFree hremaining
      · by_cases hbegins : u.isFree e && starts u (e :: edges)
        · obtain ⟨line, u₁, hclosed, h₁, hdraws, hdrained⟩ := h.exists_closedWalk ht (t.origin e)
          obtain ⟨more, u', hrest, h', hdraws', hdone⟩ := ih h₁
          rw [List.append_assoc] at h'
          refine ⟨line ++ more, u', ?_, h', hdraws.append hdraws', fun hstarts => ?_⟩
          · rw [closedWalks, if_neg hremaining, if_pos hbegins, hclosed]
            show (t.closedWalks starts u₁ edges >>= _) = _
            rw [hrest]
            rfl
          · refine List.forall_mem_cons.2 ⟨fun hfree => ?_, hdone hstarts⟩
            have hlt := h'.balanced.consistent.lt hfree
            exact hdrained.of_spends hdraws'.spends e (mem_freeIds.2 ⟨hlt, hfree⟩)
              (Edge.touches_iff.2 (.inl rfl))
        · obtain ⟨more, u', hrest, h', hdraws, hdone⟩ := ih h
          refine ⟨more, u', ?_, h', hdraws, fun hstarts => ?_⟩
          · rw [closedWalks, if_neg hremaining, if_neg hbegins, hrest]
          · refine List.forall_mem_cons.2 ⟨fun hfree => hbegins ?_, hdone hstarts⟩
            rw [hdraws.spends.isFree (h'.balanced.consistent.lt hfree) hfree, hstarts]
            rfl

/-! ### All walks -/

/-- What is left when all vertices are balanced goes into closed walks. -/
theorem Drawn.exists_closing (ht : t.Sound) (h : t.Drawn lines u) :
    ∃ lines' u', (do
        let r ← t.closedWalks t.startsInputChain u t.inputOrder
        let s ← t.closedWalks (fun _ _ => true) r.2 t.inputOrder
        if s.2.remaining = 0 then return lines ++ r.1 ++ s.1 else throw .brokenPairing) =
        Except.ok lines' ∧ t.Drawn lines' u' ∧ u'.remaining = 0 := by
  obtain ⟨chained, u₁, hchained, h₁, -, -⟩ :=
    h.exists_closedWalks ht t.startsInputChain t.inputOrder
  obtain ⟨others, u₂, hothers, h₂, -, hnone⟩ :=
    h₁.exists_closedWalks ht (fun _ _ => true) t.inputOrder
  have hremaining : u₂.remaining = 0 := by
    apply h₂.balanced.consistent.remaining_eq_zero
    intro e he
    exact hnone (fun _ _ => rfl) e ((mem_inputOrder ht).2 he)
  refine ⟨lines ++ chained ++ others, u₂, ?_, h₂, hremaining⟩
  rw [hchained]
  show (t.closedWalks (fun _ _ => true) u₁ t.inputOrder >>= _) = _
  rw [hothers]
  exact if_pos hremaining

/-- Walks for surplus, after splicing or when no edge is left. -/
theorem drawn_of_accounts (hu : t.Ledger u) (hdone : t.Awaits u [])
    (haccounts : t.Accounts t.start lines u) (hu' : t.Balanced u') (hdraws : t.Draws t.start lines' u')
    (hends : lines'.map (ends t.graph.edge) = lines.map (ends t.graph.edge))
    (hdrained : ∀ l ∈ lines', ∀ x, Visits t.graph.edge l x → t.Drained u' x) :
    t.Drawn lines' u' := by
  refine ⟨hu', hdraws, hdrained, fun l hl hcloses => ?_, fun x hx => ?_⟩
  · have hmem : ends t.graph.edge l ∈ lines.map (ends t.graph.edge) :=
      hends ▸ List.mem_map_of_mem hl
    obtain ⟨m, hm, hsame⟩ := List.mem_map.1 hmem
    refine absurd ?_ (haccounts.opened m hm)
    rw [closes, hsame]
    exact hcloses
  · have hopens : lines'.countP (opensAt t.graph.edge x) = lines.countP (opensAt t.graph.edge x) :=
      countP_ends_congr hends fun p => p.1 == some x && p.2 != some x
    have hstops : lines'.countP (stopsAt t.graph.edge x) = lines.countP (stopsAt t.graph.edge x) :=
      countP_ends_congr hends fun p => p.2 == some x && p.1 != some x
    have hstart : t.Meets 0 0 (t.surplus x) (t.demand t.start x) := by
      rw [demand_start]
      exact meets_surplus x
    have hmeets := haccounts.meets x hx _ _ _ hstart
    rw [Nat.zero_add, Nat.zero_add] at hmeets
    rw [hopens, hstops]
    exact hmeets.congr (hu.demand_agrees_zero hdone hx)

/-- Walks draw polylines until no edge remains. -/
theorem exists_drawn (ht : t.Sound) :
    ∃ lines u, t.walks = .ok lines ∧ t.Drawn lines u ∧ u.remaining = 0 := by
  obtain ⟨opened, u, hopened, hdraws, haccounts, hledger, hdone⟩ := exists_openWalks ht
    (ledger_start ht) t.pairwise_inputOrder fun e he =>
      .inl ((mem_inputOrder ht).2 (mem_freeIds.1 he).1)
  have hu := hledger.balanced hdone
  rw [walks, hopened]
  show ∃ lines u', (if u.remaining = 0 then _ else _) = _ ∧ _
  by_cases hremaining : u.remaining = 0
  · rw [if_pos hremaining]
    have hnone : ∀ x, t.Drained u x := fun x e he =>
      absurd (mem_freeIds.1 he).2 (hu.consistent.not_isFree hremaining)
    exact (drawn_of_accounts hledger hdone haccounts hu hdraws rfl
      fun _ _ x _ => hnone x).exists_closing ht
  · obtain ⟨spliced, u', hmaximize, hgrows⟩ := exists_maximizeAll ht hu hdraws.polylines
    obtain ⟨new, hspends, hperm⟩ := hgrows.spends
    have hdraws' : t.Draws t.start spliced u' := by
      refine ⟨hgrows.balanced.consistent, ?_, hgrows.polylines⟩
      exact (hdraws.spends.trans hspends).of_perm (List.perm_append_comm.trans hperm.symm)
    rw [if_neg hremaining, hmaximize]
    exact (drawn_of_accounts hledger hdone haccounts hgrows.balanced hdraws' hgrows.ends
      hgrows.drained).exists_closing ht

/-- Walks use every edge, or one of every pair of siblings, once. -/
theorem exists_walks (ht : t.Sound) :
    ∃ lines, t.walks = .ok lines ∧ (∀ l ∈ lines, IsPolyline t.graph.edge l) ∧
      (t.both lines.flatten).Perm t.graph.edgeIds := by
  obtain ⟨lines, u, hwalks, h, hremaining⟩ := exists_drawn ht
  exact ⟨lines, hwalks, h.draws.polylines,
    h.draws.spends.perm_edgeIds h.balanced.consistent hremaining⟩

end SnapGraph.Thread
