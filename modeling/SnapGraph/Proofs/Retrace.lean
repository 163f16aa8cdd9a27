import Mathlib
import SnapGraph.Polyline
import SnapGraph.Proofs.Thrift

/-! Walks that follow the input. Polylines are unjoinable if no open one ends where another begins and a
closed one has no vertex in common with the others, as is so of walks. Where such polylines come one
after another, each edge with an id of its own, a walk is never led astray: on the way the next edge
comes before all other free edges at the vertex, and at the end it waits for a polyline that passes
through. So the walks are these polylines again. -/

namespace SnapGraph

/-! ### Unjoinable polylines -/

/-- Polylines that are already as long as they can be: no open one ends where another begins, and a
closed one has no vertex in common with any other. -/
structure Unjoinable (edge : Nat → Edge) (lines : List (List Nat)) : Prop where
  polylines : ∀ l ∈ lines, IsPolyline edge l
  proper : ∀ l ∈ lines, ∀ e ∈ l, (edge e).isDegenerate = false
  thrifty : ∀ x, ∀ l ∈ lines, opensAt edge x l → ∀ m ∈ lines, ¬stopsAt edge x m
  apart : lines.Pairwise fun l m =>
    closes edge l ∨ closes edge m → ∀ x, Visits edge l x → ¬Visits edge m x

section Shape

variable {edge edge' : Nat → Edge} {l l' m : List Nat} {lines lines' : List (List Nat)} {x : Int}

theorem ends_eq_of_map_eq (h : l.map edge = l'.map edge') : ends edge l = ends edge' l' := by
  have hends : ∀ (edge : Nat → Edge) l, ends edge l =
      ((l.map edge).head?.map Edge.origin, (l.map edge).getLast?.map Edge.dest) := by
    intro edge l
    rw [ends, List.head?_map, List.getLast?_map, Option.map_map, Option.map_map]
    rfl
  rw [hends, h, ← hends]

theorem visits_iff_of_map_eq (h : l.map edge = l'.map edge') :
    Visits edge l x ↔ Visits edge' l' x := by
  have hvisits : ∀ (edge : Nat → Edge) l, Visits edge l x ↔ ∃ e ∈ l.map edge, e.touches x := by
    intro edge l
    simp [Visits]
  rw [hvisits, h, ← hvisits]

theorem IsPolyline.of_map_eq (hl : IsPolyline edge l) (h : l.map edge = l'.map edge') :
    IsPolyline edge' l' where
  ne_nil := by
    rintro rfl
    exact hl.ne_nil (List.map_eq_nil_iff.1 h)
  isChain := by
    have hchain : (l.map edge).IsChain fun e f => e.dest = f.origin :=
      (List.isChain_map edge).2 hl.isChain
    rw [h] at hchain
    exact (List.isChain_map edge').1 hchain

namespace Unjoinable

/-- Polylines with the same edges are unjoinable too. -/
theorem of_map_eq (h : Unjoinable edge lines)
    (hmap : lines.map (·.map edge) = lines'.map (·.map edge')) : Unjoinable edge' lines' := by
  have hpartner : ∀ l' ∈ lines', ∃ l ∈ lines, l.map edge = l'.map edge' := by
    intro l' hl'
    have hmem : l'.map edge' ∈ lines.map (·.map edge) := hmap ▸ List.mem_map_of_mem hl'
    exact List.mem_map.1 hmem
  refine ⟨fun l' hl' => ?_, fun l' hl' e he => ?_, fun x l' hl' hopens m' hm' hstops => ?_, ?_⟩
  · obtain ⟨l, hl, hlmap⟩ := hpartner l' hl'
    exact (h.polylines l hl).of_map_eq hlmap
  · obtain ⟨l, hl, hlmap⟩ := hpartner l' hl'
    obtain ⟨f, hf, hfe⟩ := List.mem_map.1 (hlmap ▸ List.mem_map_of_mem he : edge' e ∈ l.map edge)
    exact hfe ▸ h.proper l hl f hf
  · obtain ⟨l, hl, hlmap⟩ := hpartner l' hl'
    obtain ⟨m, hm, hmmap⟩ := hpartner m' hm'
    rw [opensAt, ← ends_eq_of_map_eq hlmap] at hopens
    rw [stopsAt, ← ends_eq_of_map_eq hmmap] at hstops
    exact h.thrifty x l hl hopens m hm hstops
  · have hlen : lines.length = lines'.length := by simpa using congrArg List.length hmap
    refine List.pairwise_iff_getElem.2 fun i j hi hj hij hcloses x => ?_
    have hplace : ∀ k (hk : k < lines.length) (hk' : k < lines'.length),
        lines[k].map edge = lines'[k].map edge' := by
      intro k hk hk'
      simpa [hk, hk'] using congrArg (·[k]?) hmap
    have hi' : i < lines.length := hlen ▸ hi
    have hj' : j < lines.length := hlen ▸ hj
    rw [closes, closes, ← ends_eq_of_map_eq (hplace i hi' hi),
      ← ends_eq_of_map_eq (hplace j hj' hj)] at hcloses
    rw [← visits_iff_of_map_eq (hplace i hi' hi), ← visits_iff_of_map_eq (hplace j hj' hj)]
    exact List.pairwise_iff_getElem.1 h.apart i j hi' hj' hij hcloses x

/-- Neither the order nor the number of the polylines matters. -/
theorem of_subperm (h : Unjoinable edge lines) (hsub : lines'.Subperm lines) :
    Unjoinable edge lines' := by
  have hsubset := hsub.subset
  obtain ⟨mid, hperm, hmid⟩ := hsub
  refine ⟨fun l hl => h.polylines l (hsubset hl), fun l hl => h.proper l (hsubset hl),
    fun x l hl hopens m hm => h.thrifty x l (hsubset hl) hopens m (hsubset hm), ?_⟩
  exact hperm.pairwise (h.apart.sublist hmid) fun hlm hcloses x hm hl => hlm hcloses.symm x hl hm

theorem not_visits (h : Unjoinable edge lines) (hl : l ∈ lines) (hm : m ∈ lines) (hne : l ≠ m)
    (hcloses : closes edge l ∨ closes edge m) (hx : Visits edge l x) : ¬Visits edge m x := by
  have hsymm : Std.Symm fun l m : List Nat =>
      closes edge l ∨ closes edge m → ∀ x, Visits edge l x → ¬Visits edge m x :=
    ⟨fun _ _ hlm hcloses x hm hl => hlm hcloses.symm x hl hm⟩
  exact h.apart.forall hl hm hne hcloses x hx

end Unjoinable

theorem unjoinable_nil (edge : Nat → Edge) : Unjoinable edge [] where
  polylines _ hl := absurd hl List.not_mem_nil
  proper _ hl := absurd hl List.not_mem_nil
  thrifty _ _ hl := absurd hl List.not_mem_nil
  apart := .nil

theorem unjoinable_singleton (hl : IsPolyline edge l)
    (hproper : ∀ e ∈ l, (edge e).isDegenerate = false) : Unjoinable edge [l] where
  polylines := List.forall_mem_singleton.2 hl
  proper := List.forall_mem_singleton.2 hproper
  thrifty x := by
    obtain ⟨u, v, -, hends⟩ := hl.exists_joins
    refine List.forall_mem_singleton.2 fun hopens => List.forall_mem_singleton.2 fun hstops => ?_
    exact ((opensAt_iff hends).1 hopens).2 ((stopsAt_iff hends).1 hstops).1
  apart := List.pairwise_singleton _ _

/-- An edge of a polyline that does not leave its first vertex has one before it. -/
theorem IsPolyline.exists_before {e : Nat} {u v : Int} (hl : IsPolyline edge l)
    (hends : ends edge l = (some u, some v)) (he : e ∈ l) (hne : (edge e).origin ≠ u) :
    ∃ front f back, l = front ++ f :: e :: back ∧ (edge f).dest = (edge e).origin := by
  obtain ⟨front, back, rfl⟩ := List.append_of_mem he
  rcases List.eq_nil_or_concat' front with rfl | ⟨front, f, rfl⟩
  · exact absurd (Option.some.inj (congrArg Prod.fst hends)) hne
  · rw [← List.append_cons] at hl ⊢
    refine ⟨front, f, back, rfl, ?_⟩
    exact (List.isChain_append.1 hl.isChain).2.1.rel

end Shape

namespace Thread

variable {t : Thread} {u u' : Usage} {e f : Nat} {l : List Nat} {v w x : Int}
  {lines left rest : List (List Nat)}

/-! ### Following a way -/

/-- A way that a walk follows to its end: each of its edges comes before all other free edges at its
origin, and where the way ends the walk waits for a free edge that comes before any that leaves. -/
structure Leads (t : Thread) (u : Usage) (v : Int) (l : List Nat) (w : Int) : Prop where
  joins : Joins t.graph.edge v l w
  free : ∀ e ∈ l, e ∈ t.freeIds u
  proper : ∀ e ∈ l, (t.graph.edge e).isDegenerate = false
  ascends : l.Pairwise fun e f => t.key e < t.key f
  first : ∀ e ∈ l, ∀ f ∈ t.freeIds u, f ∉ l → (t.graph.edge f).touches (t.origin e) →
    t.key e < t.key f
  waits : ∀ f ∈ t.freeIds u, f ∉ l → t.origin f = w → t.Lacks (t.demand u w) ∧
    ∃ d ∈ t.freeIds u, d ∉ l ∧ t.dest d = w ∧ t.key d ≤ t.key f

namespace Leads

theorem key_lt (h : t.Leads u v (e :: l) w) (hf : f ∈ t.freeIds u) (hne : f ≠ e)
    (htouches : (t.graph.edge f).touches (t.origin e)) : t.key e < t.key f := by
  by_cases hmem : f ∈ l
  · exact List.rel_of_pairwise_cons h.ascends hmem
  · refine h.first e List.mem_cons_self f hf (fun hmem' => ?_) htouches
    exact (List.mem_cons.1 hmem').elim hne hmem

/-- On its way a walk does not wait: no other free edge at the vertex comes before the next one. -/
theorem not_waitsAt (ht : t.Sound) (h : t.Leads u v (e :: l) w) :
    ¬t.waitsAt u (t.origin e) (t.key e) := by
  rw [waitsAt_iff ht]
  rintro ⟨-, f, hf, hdest, hle⟩
  have hne : f ≠ e := by
    rintro rfl
    have hproper := h.proper f List.mem_cons_self
    rw [Edge.isDegenerate_iff.2 hdest.symm] at hproper
    cases hproper
  exact absurd hle (not_le.2 (h.key_lt hf hne (Edge.touches_iff.2 (.inr hdest))))

theorem tail (h : t.Leads u v (e :: l) w) (hd : t.directed) (hspends : t.Spends u [e] u')
    (hbalance : u'.balance = u.balance) : t.Leads u' (t.dest e) l w := by
  obtain ⟨hfirst, hascends⟩ := List.pairwise_cons.1 h.ascends
  have hfree : ∀ f, f ∈ t.freeIds u' ↔ f ∈ t.freeIds u ∧ f ≠ e := by
    intro f
    rw [hspends.mem_freeIds_iff hd, List.mem_singleton]
  have hcons : ∀ {f}, f ∈ t.freeIds u' → f ∉ l → f ∈ t.freeIds u ∧ f ∉ e :: l := by
    intro f hf hmem
    obtain ⟨hf, hne⟩ := (hfree f).1 hf
    exact ⟨hf, fun hcons => (List.mem_cons.1 hcons).elim hne hmem⟩
  refine ⟨h.joins.2, fun f hf => (hfree f).2 ⟨h.free f (List.mem_cons_of_mem _ hf), ?_⟩,
    fun f hf => h.proper f (List.mem_cons_of_mem _ hf), hascends, fun f hf d hd' hmem => ?_,
    fun f hf hmem horigin => ?_⟩
  · rintro rfl
    exact lt_irrefl _ (hfirst f hf)
  · obtain ⟨hd', hmem⟩ := hcons hd' hmem
    exact h.first f (List.mem_cons_of_mem _ hf) d hd' hmem
  · obtain ⟨hf, hmem⟩ := hcons hf hmem
    obtain ⟨hlacks, d, hd', hdmem, hdest, hle⟩ := h.waits f hf hmem horigin
    have hdl : d ∉ l := fun hdl => hdmem (List.mem_cons_of_mem _ hdl)
    have hde : d ≠ e := fun hde => hdmem (hde ▸ List.mem_cons_self)
    exact ⟨demand_congr hbalance w ▸ hlacks, d, (hfree d).2 ⟨hd', hde⟩, hdl, hdest, hle⟩

/-- A walk from where the way begins is the way itself. -/
theorem exists_walk_eq (ht : t.Sound) (hd : t.directed) (hu : t.Consistent u)
    (h : t.Leads u v l w) : ∃ u', t.walk u v = .ok (l, u') := by
  induction l generalizing u v with
  | nil =>
      obtain rfl : v = w := h.joins
      rw [walk]
      cases hleast : t.leastEdge? ((t.incidence.outIds v).filter u.isFree) with
      | none => exact ⟨u, rfl⟩
      | some f =>
          obtain ⟨hf, horigin, -⟩ := leastEdge?_free ht hleast
          obtain ⟨hlacks, d, hd', -, hdest, hle⟩ := h.waits f hf List.not_mem_nil horigin
          exact ⟨u, if_pos ((waitsAt_iff ht).2 ⟨hlacks, d, hd', hdest, hle⟩)⟩
  | cons e l ih =>
      have he := h.free e List.mem_cons_self
      obtain rfl : t.origin e = v := h.joins.1
      have hleast : t.leastEdge? ((t.incidence.outIds (t.origin e)).filter u.isFree) = some e := by
        apply leastEdge?_eq_some ht he rfl
        intro f hf horigin
        by_cases hfe : f = e
        · subst hfe
          exact ⟨le_refl _, fun _ => le_refl _⟩
        · have hlt := h.key_lt hf hfe (Edge.touches_iff.2 (.inl horigin))
          exact ⟨hlt.le, fun heq => absurd heq hlt.ne⟩
      obtain ⟨u₁, hmark, hu₁, hspends, hbalance⟩ := exists_mark ht hu (mem_freeIds.1 he).2
      obtain ⟨u', hrest⟩ := ih hu₁ (h.tail hd hspends hbalance)
      refine ⟨u', ?_⟩
      rw [walk, hleast]
      dsimp only
      rw [if_neg (h.not_waitsAt ht)]
      split
      · rename_i hmark'
        rw [hmark] at hmark'
        cases hmark'
      · rename_i hmark'
        rw [hmark] at hmark'
        cases hmark'
        rw [hrest]
        rfl

end Leads

/-! ### Following the polylines one after another -/

/-- What is left to draw while polylines are retraced: closed ones that were passed over, and the rest in
input order. -/
structure Retraces (t : Thread) (u : Usage) (left rest : List (List Nat)) : Prop where
  unjoinable : Unjoinable t.graph.edge (left ++ rest)
  closed : ∀ l ∈ left, closes t.graph.edge l
  free : (t.freeIds u).Perm (left ++ rest).flatten
  ascends : rest.flatten.Pairwise fun e f => t.key e < t.key f

namespace Retraces

theorem mem_freeIds (h : t.Retraces u left rest) :
    e ∈ t.freeIds u ↔ ∃ l ∈ left ++ rest, e ∈ l := by
  rw [h.free.mem_iff, List.mem_flatten]

/-- An edge that another polyline has at a vertex of the next one comes after it, and both polylines are
open. -/
theorem later (h : t.Retraces u left (l :: rest)) (hx : Visits t.graph.edge l x)
    (hf : f ∈ t.freeIds u) (hmem : f ∉ l) (htouches : (t.graph.edge f).touches x) :
    ∃ m ∈ rest, f ∈ m ∧ ¬closes t.graph.edge l ∧ ¬closes t.graph.edge m := by
  obtain ⟨m, hm, hfm⟩ := h.mem_freeIds.1 hf
  have hl : l ∈ left ++ l :: rest := List.mem_append_cons_self
  have hopen : ¬(closes t.graph.edge l ∨ closes t.graph.edge m) := fun hcloses =>
    h.unjoinable.not_visits hl hm (fun hlm => hmem (hlm ▸ hfm)) hcloses hx ⟨f, hfm, htouches⟩
  rw [not_or] at hopen
  refine ⟨m, ?_, hfm, hopen⟩
  rcases List.mem_append.1 hm with hleft | hcons
  · exact absurd (h.closed m hleft) hopen.2
  · exact (List.mem_cons.1 hcons).resolve_left fun hml => hmem (hml ▸ hfm)

theorem pairwise (h : t.Retraces u left (l :: rest)) :
    (l.Pairwise fun e f => t.key e < t.key f) ∧
      (rest.flatten.Pairwise fun e f => t.key e < t.key f) ∧
      ∀ e ∈ l, ∀ f ∈ rest.flatten, t.key e < t.key f := by
  have hascends := h.ascends
  rw [List.flatten_cons] at hascends
  exact List.pairwise_append.1 hascends

theorem key_lt (h : t.Retraces u left (l :: rest)) {m : List Nat} (he : e ∈ l) (hm : m ∈ rest)
    (hf : f ∈ m) : t.key e < t.key f := h.pairwise.2.2 e he f (List.mem_flatten_of_mem hm hf)

/-- The next polyline leads a walk to its end, if more walks are to end there. -/
theorem leads (h : t.Retraces u left (l :: rest)) (hjoins : Joins t.graph.edge v l w)
    (hlacks : ¬closes t.graph.edge l → t.Lacks (t.demand u w)) : t.Leads u v l w := by
  have hl : l ∈ left ++ l :: rest := List.mem_append_cons_self
  have hpolyline := h.unjoinable.polylines l hl
  have hends := hjoins.ends_eq hpolyline.ne_nil
  refine ⟨hjoins, fun e he => h.mem_freeIds.2 ⟨l, hl, he⟩, h.unjoinable.proper l hl, h.pairwise.1,
    fun e he f hf hmem htouches => ?_, fun f hf hmem horigin => ?_⟩
  · obtain ⟨m, hm, hfm, -⟩ :=
      h.later ⟨e, he, Edge.touches_iff.2 (.inl rfl)⟩ hf hmem htouches
    exact h.key_lt he hm hfm
  · obtain ⟨m, hm, hfm, hopen, hmopen⟩ :=
      h.later (hjoins.visits hpolyline.ne_nil).2 hf hmem (Edge.touches_iff.2 (.inl horigin))
    have hmem' : m ∈ left ++ l :: rest := List.mem_append_right _ (List.mem_cons_of_mem _ hm)
    obtain ⟨a, b, -, hmends⟩ := (h.unjoinable.polylines m hmem').exists_joins
    -- If `f` came first, `m` would begin where `l` ends.
    have hne : (t.graph.edge f).origin ≠ a := by
      intro hfa
      have haw : a = w := hfa.symm.trans horigin
      have hopens : opensAt t.graph.edge w m :=
        (opensAt_iff hmends).2 ⟨haw, fun hbw => hmopen ((closes_iff hmends).2 (haw.trans hbw.symm))⟩
      have hstops : stopsAt t.graph.edge w l :=
        (stopsAt_iff hends).2 ⟨rfl, fun hvw => hopen ((closes_iff hends).2 hvw)⟩
      exact h.unjoinable.thrifty w m hmem' hopens l hl hstops
    obtain ⟨front, d, back, hm', hdest⟩ :=
      (h.unjoinable.polylines m hmem').exists_before hmends hfm hne
    have hdm : d ∈ m := hm' ▸ List.mem_append_right _ List.mem_cons_self
    have hkeys : m.Pairwise fun e f => t.key e < t.key f :=
      h.pairwise.2.1.sublist (List.sublist_flatten_of_mem hm)
    rw [hm'] at hkeys
    have hdf := List.rel_of_pairwise_cons (List.pairwise_append.1 hkeys).2.1 List.mem_cons_self
    exact ⟨hlacks hopen, d, h.mem_freeIds.2 ⟨m, hmem', hdm⟩,
      fun hdl => lt_irrefl _ (h.key_lt hdl hm hdm), hdest.trans horigin, hdf.le⟩

/-- Drawing the next polyline leaves the others. -/
theorem draw (h : t.Retraces u left (l :: rest)) (hd : t.directed) (hspends : t.Spends u l u') :
    t.Retraces u' left rest where
  unjoinable := h.unjoinable.of_subperm
    ((List.sublist_cons_self l rest).append_left left).subperm
  closed := h.closed
  free := by
    have hfree : (t.freeIds u).Perm (l ++ (left ++ rest).flatten) := by
      refine h.free.trans ?_
      rw [List.flatten_append, List.flatten_cons, List.flatten_append]
      exact List.perm_append_comm_assoc _ _ _
    rw [Spends, both, if_pos hd] at hspends
    exact (List.perm_append_left_iff l).1 (hspends.symm.trans hfree)
  ascends := h.pairwise.2.1

/-- A closed polyline may be passed over. -/
theorem pass (h : t.Retraces u left (l :: rest)) (hcloses : closes t.graph.edge l) :
    t.Retraces u (left ++ [l]) rest where
  unjoinable := List.append_cons left l rest ▸ h.unjoinable
  closed := List.forall_mem_append.2 ⟨h.closed, List.forall_mem_singleton.2 hcloses⟩
  free := List.append_cons left l rest ▸ h.free
  ascends := h.pairwise.2.1

/-- What a vertex demands can be read off the polylines that are left. -/
theorem demand_eq (h : t.Retraces u left rest) (hd : t.directed) (hu : t.Ledger u)
    (hx : t.IsVertex x) : t.demand u x =
      (left ++ rest).countP (opensAt t.graph.edge x) -
        (left ++ rest).countP (stopsAt t.graph.edge x) := by
  have hagrees := hu.agrees x hx
  rw [Agrees, if_pos hd, net, if_pos hd, h.free.countP_eq, h.free.countP_eq,
    countP_flatten_sub h.unjoinable.polylines] at hagrees
  exact hagrees.symm

theorem isVertex_of_visits (h : t.Retraces u left rest) (hl : l ∈ left ++ rest)
    (hx : Visits t.graph.edge l x) : t.IsVertex x := by
  obtain ⟨e, he, htouches⟩ := hx
  have hlt := (Thread.mem_freeIds.1 (h.mem_freeIds.2 ⟨l, hl, he⟩)).1
  exact Graph.mem_vertexIds.1 (Graph.mem_vertexIds_of_touches hlt htouches)

/-- No open polyline begins or ends at a vertex of a closed one. -/
theorem isSettled_of_closes (h : t.Retraces u left rest) (hd : t.directed) (hu : t.Ledger u)
    (hl : l ∈ left ++ rest) (hcloses : closes t.graph.edge l) (hx : Visits t.graph.edge l x) :
    t.IsSettled u x := by
  have hnone : (left ++ rest).countP (opensAt t.graph.edge x) = 0 := by
    refine List.countP_eq_zero.2 fun m hm hopens => ?_
    have hmends : endsAt t.graph.edge x m := Bool.or_eq_true_iff.2 (.inl hopens)
    obtain ⟨hmopen, hmx⟩ := (h.unjoinable.polylines m hm).of_endsAt hmends
    have hne : l ≠ m := fun hlm => hmopen (hlm ▸ hcloses)
    exact h.unjoinable.not_visits hl hm hne (.inl hcloses) hx hmx
  rw [IsSettled, NoExcess, if_pos hd, h.demand_eq hd hu (h.isVertex_of_visits hl hx), hnone]
  omega

section Open

variable (h : t.Retraces u left (l :: rest)) (hd : t.directed) (hu : t.Ledger u)
  (hends : ends t.graph.edge l = (some v, some w)) (hne : v ≠ w)

include h hd hu hends hne

/-- A walk is to begin where the next open polyline begins. -/
theorem not_isSettled : ¬t.IsSettled u v := by
  have hl : l ∈ left ++ l :: rest := List.mem_append_cons_self
  have hopens : opensAt t.graph.edge v l := (opensAt_iff hends).2 ⟨rfl, hne.symm⟩
  have hvertex := h.isVertex_of_visits hl
    ((h.unjoinable.polylines l hl).of_endsAt (Bool.or_eq_true_iff.2 (.inl hopens))).2
  have hpos : 0 < (left ++ l :: rest).countP (opensAt t.graph.edge v) :=
    List.countP_pos_iff.2 ⟨l, hl, hopens⟩
  have hnone : (left ++ l :: rest).countP (stopsAt t.graph.edge v) = 0 :=
    List.countP_eq_zero.2 fun m hm => h.unjoinable.thrifty v l hl hopens m hm
  rw [IsSettled, NoExcess, if_pos hd, h.demand_eq hd hu hvertex, hnone]
  omega

/-- A walk is to end where the next open polyline ends. -/
theorem lacks_adjust : t.Lacks (t.demand (u.adjust v 1) w) := by
  have hl : l ∈ left ++ l :: rest := List.mem_append_cons_self
  have hpolyline := h.unjoinable.polylines l hl
  have hopens : opensAt t.graph.edge v l := (opensAt_iff hends).2 ⟨rfl, hne.symm⟩
  have hstops : stopsAt t.graph.edge w l := (stopsAt_iff hends).2 ⟨rfl, hne⟩
  have hv := h.isVertex_of_visits hl
    (hpolyline.of_endsAt (Bool.or_eq_true_iff.2 (.inl hopens))).2
  have hw := h.isVertex_of_visits hl
    (hpolyline.of_endsAt (Bool.or_eq_true_iff.2 (.inr hstops))).2
  have hpos : 0 < (left ++ l :: rest).countP (stopsAt t.graph.edge w) :=
    List.countP_pos_iff.2 ⟨l, hl, hstops⟩
  have hnone : (left ++ l :: rest).countP (opensAt t.graph.edge w) = 0 :=
    List.countP_eq_zero.2 fun m hm hopens => h.unjoinable.thrifty w m hm hopens l hl hstops
  rw [demand_adjust hu.consistent hv hw, if_neg hne.symm, Lacks, if_pos hd,
    h.demand_eq hd hu hw, hnone]
  omega

/-- The walk that begins where the next open polyline begins is that polyline. -/
theorem exists_opened (ht : t.Sound) (hjoins : Joins t.graph.edge v l w) :
    ∃ u', t.walk (u.adjust v 1) v = .ok (l, u') ∧ t.Opened u v l w (u'.adjust w (-1)) := by
  have hl : l ∈ left ++ l :: rest := List.mem_append_cons_self
  have hpolyline := h.unjoinable.polylines l hl
  have hv := h.isVertex_of_visits hl (hjoins.visits hpolyline.ne_nil).1
  have hunsettled := h.not_isSettled hd hu hends hne
  have hadjusted : t.Retraces (u.adjust v 1) left (l :: rest) :=
    ⟨h.unjoinable, h.closed, h.free, h.ascends⟩
  obtain ⟨u₁, hwalk⟩ := (hadjusted.leads hjoins fun _ => h.lacks_adjust hd hu hends hne).exists_walk_eq
    ht hd (hu.consistent.adjust v 1)
  obtain ⟨l', u', w', hwalk', hopened⟩ := Thread.exists_opened ht hu hv hunsettled
  cases hwalk.symm.trans hwalk'
  obtain rfl : w = w' := by
    have hends' := hopened.joins.ends_eq hpolyline.ne_nil
    rw [hends] at hends'
    exact Option.some.inj (congrArg Prod.snd hends')
  exact ⟨u₁, hwalk, hopened⟩

end Open

end Retraces

theorem openWalks_append (h : ∀ e ∈ l, ¬(u.isFree e && t.beginsAt u (t.origin e)) = true)
    (edges : List Nat) : t.openWalks u (l ++ edges) = t.openWalks u edges := by
  induction l with
  | nil => rfl
  | cons e l ih =>
      obtain ⟨he, hl⟩ := List.forall_mem_cons.1 h
      rw [List.cons_append, openWalks, if_neg he, ih hl]

/-- Walks for surplus are the open polylines in input order. -/
theorem Retraces.exists_openWalks (ht : t.Sound) (hd : t.directed) (h : t.Retraces u left rest)
    (hu : t.Ledger u) : ∃ u', t.openWalks u rest.flatten =
        .ok (rest.filter fun l => !closes t.graph.edge l, u') ∧ t.Consistent u' ∧
      (t.freeIds u').Perm (left ++ rest.filter (closes t.graph.edge)).flatten := by
  induction rest generalizing u left with
  | nil => exact ⟨u, rfl, hu.consistent, h.free⟩
  | cons l rest ih =>
      have hl : l ∈ left ++ l :: rest := List.mem_append_cons_self
      have hpolyline := h.unjoinable.polylines l hl
      rw [List.flatten_cons]
      by_cases hcloses : closes t.graph.edge l
      · have hskip : ∀ e ∈ l, ¬(u.isFree e && t.beginsAt u (t.origin e)) = true := by
          intro e he hbegins
          have hx : Visits t.graph.edge l (t.origin e) := ⟨e, he, Edge.touches_iff.2 (.inl rfl)⟩
          have hunsettled := (beginsAt_iff hu (h.isVertex_of_visits hl hx)).1
            (Bool.and_eq_true_iff.1 hbegins).2
          exact hunsettled (h.isSettled_of_closes hd hu hl hcloses hx)
        obtain ⟨u', hopen, hu', hfree⟩ := ih (h.pass hcloses) hu
        refine ⟨u', ?_, hu', ?_⟩
        · rw [openWalks_append hskip, hopen, List.filter_cons_of_neg (by simp [hcloses])]
        · rw [List.filter_cons_of_pos hcloses, List.append_cons]
          exact hfree
      · obtain ⟨v, w, hjoins, hends⟩ := hpolyline.exists_joins
        have hne : v ≠ w := fun hvw => hcloses ((closes_iff hends).2 hvw)
        have hunsettled := h.not_isSettled hd hu hends hne
        obtain ⟨u₁, hwalk, hopened⟩ := h.exists_opened hd hu hends hne ht hjoins
        obtain ⟨u', hopen, hu', hfree⟩ := ih (h.draw hd hopened.spends)
          (hopened.ledger hunsettled ht hu)
        refine ⟨u', ?_, hu', ?_⟩
        · have hskip : ∀ f ∈ l, ¬((u₁.adjust w (-1)).isFree f &&
              t.beginsAt (u₁.adjust w (-1)) (t.origin f)) = true := fun f hf hbegins =>
            hopened.spends.not_isFree hf (Bool.and_eq_true_iff.1 hbegins).1
          rw [List.filter_cons_of_pos (by simpa using hcloses)]
          obtain ⟨e, tail, rfl⟩ := List.exists_cons_of_ne_nil hpolyline.ne_nil
          obtain rfl : t.origin e = v := hjoins.1
          have hvertex := h.isVertex_of_visits hl (hjoins.visits hpolyline.ne_nil).1
          have hbegins : (u.isFree e && t.beginsAt u (t.origin e)) = true := by
            rw [Bool.and_eq_true, beginsAt_iff hu hvertex]
            exact ⟨(Thread.mem_freeIds.1 (h.mem_freeIds.2 ⟨_, hl, List.mem_cons_self⟩)).2, hunsettled⟩
          rw [List.cons_append]
          apply openWalks_cons hbegins hwalk hpolyline.ne_nil hjoins
          rw [openWalks_append fun f hf => hskip f (List.mem_cons_of_mem _ hf), hopen]
        · rw [List.filter_cons_of_neg hcloses]
          exact hfree

/-! ### Closed polylines -/

theorem walk_of_drained (ht : t.Sound) (h : t.Drained u v) : t.walk u v = .ok ([], u) := by
  have hnone : t.leastEdge? ((t.incidence.outIds v).filter u.isFree) = none := by
    rw [leastEdge?_eq_none_iff, List.eq_nil_iff_forall_not_mem]
    intro e he
    obtain ⟨hfree, horigin⟩ := (mem_free_outIds ht).1 he
    exact h e hfree (Edge.touches_iff.2 (.inl horigin))
  rw [walk, hnone]

/-- Where no free edge is left, nothing is spliced in. -/
theorem splice_of_drained (ht : t.Sound) (hv : t.Drained u v)
    (hl : ∀ x, Visits t.graph.edge l x → t.Drained u x) : t.splice u v l = .ok (l, u) := by
  fun_induction splice t u v l with
  | case1 u v l f hwalk =>
      rw [walk_of_drained ht hv] at hwalk
      cases hwalk
  | case2 u v l found u₁ hwalk hclosed hnil =>
      rw [walk_of_drained ht hv] at hwalk
      cases hwalk
      obtain rfl : l = [] := hnil
      rfl
  | case3 u v l found u₁ hwalk hclosed e rest hcons ih =>
      rw [walk_of_drained ht hv] at hwalk
      cases hwalk
      obtain rfl : l = e :: rest := hcons
      have hdest := hl (t.dest e) (visits_cons.2 (.inr (.inl rfl)))
      rw [ih hdest fun x hx => hl x (visits_cons.2 (.inr (.inr hx)))]
      rfl
  | case4 u v l found u₁ hwalk hopen =>
      rw [walk_of_drained ht hv] at hwalk
      cases hwalk
      exact absurd rfl hopen

theorem maximize_of_drained (ht : t.Sound) (hl : ∀ x, Visits t.graph.edge l x → t.Drained u x) :
    t.maximize u l = .ok (l, u) := by
  cases l with
  | nil => rfl
  | cons e l => exact splice_of_drained ht (hl _ (visits_cons.2 (.inl rfl))) hl

theorem maximizeAll_of_drained (ht : t.Sound)
    (h : ∀ l ∈ lines, ∀ x, Visits t.graph.edge l x → t.Drained u x) :
    t.maximizeAll u lines = .ok (lines, u) := by
  induction lines with
  | nil => rfl
  | cons l lines ih =>
      obtain ⟨hl, hlines⟩ := List.forall_mem_cons.1 h
      rw [maximizeAll, maximize_of_drained ht hl]
      show (t.maximizeAll u lines >>= _) = _
      rw [ih hlines]
      rfl

theorem closedWalks_of_remaining_eq_zero (starts : Usage → List Nat → Bool) (h : u.remaining = 0)
    (edges : List Nat) : t.closedWalks starts u edges = .ok ([], u) := by
  cases edges with
  | nil => rfl
  | cons e edges => rw [closedWalks, if_pos h]

theorem closedWalks_append (starts : Usage → List Nat → Bool) (h : ∀ e ∈ l, ¬u.isFree e)
    (edges : List Nat) : t.closedWalks starts u (l ++ edges) = t.closedWalks starts u edges := by
  by_cases hremaining : u.remaining = 0
  · rw [closedWalks_of_remaining_eq_zero starts hremaining,
      closedWalks_of_remaining_eq_zero starts hremaining]
  · induction l with
    | nil => rfl
    | cons e l ih =>
        obtain ⟨he, hl⟩ := List.forall_mem_cons.1 h
        rw [List.cons_append, closedWalks, if_neg hremaining, if_neg (by simp [he]), ih hl]

/-- A free edge with an id of its own begins a chain. -/
theorem startsInputChain_of_lt {edges : List Nat} (hfree : u.isFree e)
    (hproper : (t.graph.edge e).isDegenerate = false) (hlt : ∀ f ∈ edges, t.key e < t.key f) :
    t.startsInputChain u (e :: edges) := by
  have hrun : ((e :: edges).takeWhile fun f => t.key f == t.key e) = [e] := by
    rw [List.takeWhile_cons, if_pos (beq_self_eq_true (t.key e))]
    cases edges with
    | nil => rfl
    | cons f edges =>
        have hne := (hlt f List.mem_cons_self).ne'
        rw [List.takeWhile_cons, if_neg (by simpa using hne)]
  have hdest : ¬t.dest e = t.origin e := by
    intro heq
    rw [Edge.isDegenerate_iff.2 heq.symm] at hproper
    cases hproper
  unfold startsInputChain
  simp [hrun, hfree, hdest]

/-- Closed walks are the closed polylines in input order. -/
theorem exists_closedWalks_eq (ht : t.Sound) (hd : t.directed) (hu : t.Consistent u)
    (h : t.Retraces u [] (lines.filter (closes t.graph.edge)))
    (hascends : lines.flatten.Pairwise fun e f => t.key e < t.key f) :
    ∃ u', t.closedWalks t.startsInputChain u lines.flatten =
      .ok (lines.filter (closes t.graph.edge), u') ∧ u'.remaining = 0 := by
  induction lines generalizing u with
  | nil =>
      refine ⟨u, rfl, hu.remaining_eq_zero fun e he hfree => ?_⟩
      obtain ⟨l, hl, -⟩ := h.mem_freeIds.1 (mem_freeIds.2 ⟨he, hfree⟩)
      cases hl
  | cons l lines ih =>
      rw [List.flatten_cons] at hascends ⊢
      obtain ⟨-, hrest, hcross⟩ := List.pairwise_append.1 hascends
      by_cases hcloses : closes t.graph.edge l
      · rw [List.filter_cons_of_pos hcloses] at h ⊢
        have hl : l ∈ [] ++ l :: lines.filter (closes t.graph.edge) := List.mem_cons_self
        have hpolyline := h.unjoinable.polylines l hl
        obtain ⟨v, w, hjoins, hends⟩ := hpolyline.exists_joins
        obtain rfl : v = w := (closes_iff hends).1 hcloses
        obtain ⟨u₁, hwalk⟩ := (h.leads hjoins fun hopen => absurd hcloses hopen).exists_walk_eq ht hd hu
        obtain ⟨l', u₁', w', hwalk', hu₁, -, hspends, -⟩ := exists_walk ht hu v
        cases hwalk.symm.trans hwalk'
        have hdrained : ∀ x, Visits t.graph.edge l x → t.Drained u₁ x := by
          intro x hx f hf htouches
          obtain ⟨hfree, hmem⟩ := (hspends.mem_freeIds_iff hd).1 hf
          obtain ⟨m, -, -, hopen, -⟩ := h.later hx hfree hmem htouches
          exact hopen hcloses
        obtain ⟨u', hclosed, hremaining⟩ := ih hu₁ (h.draw hd hspends) hrest
        refine ⟨u', ?_, hremaining⟩
        obtain ⟨e, tail, rfl⟩ := List.exists_cons_of_ne_nil hpolyline.ne_nil
        obtain rfl : t.origin e = v := hjoins.1
        have hfree := (mem_freeIds.1 (h.mem_freeIds.2 ⟨_, hl, List.mem_cons_self⟩)).2
        have hbegins : (u.isFree e && t.startsInputChain u (e :: (tail ++ lines.flatten))) = true := by
          rw [Bool.and_eq_true]
          refine ⟨hfree, startsInputChain_of_lt hfree ?_ fun f hf => ?_⟩
          · exact h.unjoinable.proper _ hl e List.mem_cons_self
          · exact List.rel_of_pairwise_cons hascends hf
        have hskip : ∀ f ∈ tail, ¬u₁.isFree f := fun f hf =>
          hspends.not_isFree (List.mem_cons_of_mem _ hf)
        have hwhole : t.closedWalk u (t.origin e) = .ok ([e :: tail], u₁) := by
          rw [closedWalk, hwalk]
          show (t.maximize u₁ (e :: tail) >>= _) = _
          rw [maximize_of_drained ht hdrained]
          rfl
        rw [List.cons_append, closedWalks, if_neg fun hzero => hu.not_isFree hzero hfree,
          if_pos hbegins, hwhole]
        show (t.closedWalks t.startsInputChain u₁ (tail ++ lines.flatten) >>= _) = _
        rw [closedWalks_append _ hskip, hclosed]
        rfl
      · rw [List.filter_cons_of_neg hcloses] at h ⊢
        have hskip : ∀ e ∈ l, ¬u.isFree e := by
          intro e he hfree
          obtain ⟨m, hm, hem⟩ := h.mem_freeIds.1 (mem_freeIds.2 ⟨hu.lt hfree, hfree⟩)
          have hm := List.mem_of_mem_filter hm
          exact lt_irrefl _ (hcross e he e (List.mem_flatten_of_mem hm hem))
        rw [closedWalks_append _ hskip]
        exact ih hu h hrest

/-! ### All polylines -/

theorem orderChains_eq {key : Nat → Int} {chains : List (List Nat)} (hperm : chains.Perm lines)
    (hne : ∀ l ∈ lines, l ≠ []) (hascends : lines.flatten.Pairwise fun e f => key e < key f) :
    orderChains key chains = lines := by
  have hchains : lines.Pairwise fun l m => chainKey key l < chainKey key m := by
    refine (List.pairwise_flatten.1 hascends).2.imp_of_mem fun hl hm hlm => ?_
    obtain ⟨e, l, rfl⟩ := List.exists_cons_of_ne_nil (hne _ hl)
    obtain ⟨f, m, rfl⟩ := List.exists_cons_of_ne_nil (hne _ hm)
    exact hlm e List.mem_cons_self f List.mem_cons_self
  exact eq_of_perm_of_pairwise_lt ((orderChains_perm key chains).trans hperm)
    (pairwise_orderChains key chains) hchains

/-- Walks through unjoinable polylines are these polylines, the open ones first. -/
theorem walks_eq (ht : t.Sound) (hd : t.directed) (hlines : Unjoinable t.graph.edge lines)
    (horder : t.inputOrder = lines.flatten)
    (hascends : lines.flatten.Pairwise fun e f => t.key e < t.key f) :
    t.walks = .ok ((lines.filter fun l => !closes t.graph.edge l) ++
      lines.filter (closes t.graph.edge)) := by
  have hfree : (t.freeIds t.start).Perm lines.flatten := by
    rw [freeIds_start, ← horder]
    exact (inputOrder_perm ht).symm
  have hstart : t.Retraces t.start [] lines := ⟨hlines, by simp, hfree, hascends⟩
  obtain ⟨u, hopen, hu, hfree⟩ := hstart.exists_openWalks ht hd (ledger_start ht)
  have hclosed : t.Retraces u [] (lines.filter (closes t.graph.edge)) :=
    ⟨hlines.of_subperm List.filter_sublist.subperm, by simp, hfree,
      hascends.sublist List.filter_sublist.flatten⟩
  obtain ⟨u', hclosedWalks, hremaining⟩ := exists_closedWalks_eq ht hd hu hclosed hascends
  -- The edges left are those of closed polylines, which have no vertex in common with open ones.
  have hdrained : ∀ l ∈ lines.filter fun l => !closes t.graph.edge l,
      ∀ x, Visits t.graph.edge l x → t.Drained u x := by
    intro l hl x hx f hf htouches
    obtain ⟨hl, hopen⟩ := List.mem_filter.1 hl
    obtain ⟨m, hm, hfm⟩ := hclosed.mem_freeIds.1 hf
    obtain ⟨hm, hcloses⟩ := List.mem_filter.1 hm
    have hne : l ≠ m := by
      rintro rfl
      simp [hcloses] at hopen
    exact hlines.not_visits hl hm hne (.inr hcloses) hx ⟨f, hfm, htouches⟩
  have hclosing : (do
      let r ← t.closedWalks t.startsInputChain u t.inputOrder
      let s ← t.closedWalks (fun _ _ => true) r.2 t.inputOrder
      if s.2.remaining = 0 then
        return (lines.filter fun l => !closes t.graph.edge l) ++ r.1 ++ s.1
      else throw .brokenPairing) =
      Except.ok ((lines.filter fun l => !closes t.graph.edge l) ++
        lines.filter (closes t.graph.edge)) := by
    rw [horder, hclosedWalks]
    show (t.closedWalks _ u' lines.flatten >>= _) = _
    rw [closedWalks_of_remaining_eq_zero _ hremaining]
    show (if u'.remaining = 0 then _ else _) = _
    rw [if_pos hremaining, List.append_nil]
    rfl
  rw [← horder] at hopen
  rw [walks, hopen]
  show (if u.remaining = 0 then _ else _) = _
  split
  · exact hclosing
  · rw [maximizeAll_of_drained ht hdrained]
    exact hclosing

/-- Walks are unjoinable: a polyline that touches a closed one would have an edge in common with it. -/
theorem Drawn.unjoinable (ht : t.Sound) (hd : t.directed) (h : t.Drawn lines u)
    (hremaining : u.remaining = 0)
    (hproper : ∀ e < t.graph.numEdges, (t.graph.edge e).isDegenerate = false) :
    Unjoinable t.graph.edge lines := by
  have hcovers := h.draws.covers hremaining
  refine ⟨hcovers.polylines, fun l hl e he => hproper e (hcovers.lt hl e he),
    fun x l hl hopens m hm hstops => ?_, hcovers.pairwise_disjoint.imp_of_mem ?_⟩
  · have hends : endsAt t.graph.edge x l := Bool.or_eq_true_iff.2 (.inl hopens)
    have hvertex := hcovers.mem_vertexIds hl ((hcovers.polylines l hl).of_endsAt hends).2
    obtain ⟨hopened, hstopped⟩ := h.counts_eq ht hd hvertex
    have hopenedPos := List.countP_pos_iff.2 ⟨l, hl, hopens⟩
    have hstoppedPos := List.countP_pos_iff.2 ⟨m, hm, hstops⟩
    omega
  · rintro l m hl hm hdisjoint (hcloses | hcloses) x ⟨e, he, hex⟩ ⟨f, hf, hfx⟩
    · exact hdisjoint (h.whole l hl hcloses x ⟨e, he, hex⟩ f (hcovers.lt hm f hf) hfx)
        (subset_both m hf)
    · exact hdisjoint (subset_both l he)
        (h.whole m hm hcloses x ⟨f, hf, hfx⟩ e (hcovers.lt hl e he) hex)

end Thread

namespace Graph

variable {g : Graph} {t : Thread} {lines : List (List Nat)}

/-- Where unjoinable polylines come one after another in input order, each edge with an id of its own,
they are the walks. -/
theorem polylines_walk_of_unjoinable (hdegenerates : g.options.degenerates = .discard)
    (hsiblings : g.options.siblings = .discard ∨ g.options.siblings = .keep)
    (hthread : g.thread = .ok t) (ht : t.Sound) (hd : t.directed)
    (hlines : Unjoinable t.graph.edge lines) (horder : t.inputOrder = lines.flatten)
    (hascends : t.inputOrder.Pairwise fun e f => t.key e < t.key f) :
    g.polylines .walk = .ok lines := by
  rw [horder] at hascends
  rw [polylines_walk_eq hdegenerates hsiblings hthread (t.walks_eq ht hd hlines horder hascends)]
  refine congrArg Except.ok (Thread.orderChains_eq ?_ (fun l hl => (hlines.polylines l hl).ne_nil)
    hascends)
  exact List.perm_append_comm.trans (List.filter_append_perm _ _)

end Graph

end SnapGraph
