import Mathlib
import SnapGraph.Workspace
import SnapGraph.Proofs.Circuit
import SnapGraph.Proofs.Directions
import SnapGraph.Proofs.Sibling

/-! Routing loses and doubles no edge. At every vertex as many incoming edges find a turn as the
smaller of its two degrees allows, in whatever order its spokes are matched, and no two edges turn onto
one. An error names the least vertex at which routing is blocked: one with a degenerate edge, or one
that more edges enter than leave. Without an error the turns are a permutation of the edges. Where the
directions around a vertex are in no order, routing may give up instead, and around the center of one star it
does; nothing else can go wrong. -/

namespace SnapGraph

namespace Graph

variable (g : Graph)

/-- The spokes of every star, in some order. -/
def Arranges (inIds : List Nat) (arrange : Star Nat → List Spoke) : Prop :=
  ∀ s ∈ routingStars g.edges inIds, (arrange s).Perm (s.bundles.flatMap Bundle.spokes)

/-- The turns that come of matching the spokes of every star in a given order. -/
def routeBy (arrange : Star Nat → List Spoke) (inIds : List Nat) : Outcome Turns :=
  Turns.ofStars g.numEdges ((routingStars g.edges inIds).map fun s => (s, arrange s))

/-- The pairs that routing writes, star by star. -/
def routedPairs (arrange : Star Nat → List Spoke) (inIds : List Nat) : List (Nat × Nat) :=
  (routingStars g.edges inIds).flatMap fun s => (Matching.ofSpokes (arrange s)).turns

theorem value_routeBy (arrange : Star Nat → List Spoke) (inIds : List Nat) :
    (g.routeBy arrange inIds).value =
      Turns.record (Array.replicate g.numEdges none) (g.routedPairs arrange inIds) := by
  simp only [routeBy, Turns.ofStars, routedPairs, List.flatMap_map, List.map_map]
  rfl

theorem size_routeBy (arrange : Star Nat → List Spoke) (inIds : List Nat) :
    (g.routeBy arrange inIds).value.size = g.numEdges := by
  rw [value_routeBy, Turns.size_record, Array.size_replicate]

/-- Not every edge at the vertex can be routed: one of them is degenerate, or more edges enter than
leave. -/
def Blocked (v : Int) : Prop :=
  (∃ e < g.numEdges, g.edge e = ⟨v, v⟩) ∨ (g.departures v).length < (g.arrivals v).length

/-- The error names the least degenerate edge at the vertex, or if there is none, an edge that enters
the vertex and has no turn. -/
def Reports (turns : Turns) (v : Int) (err : BuildError) : Prop :=
  (∃ e < g.numEdges, g.edge e = ⟨v, v⟩ ∧ (∀ f < e, g.edge f ≠ ⟨v, v⟩) ∧ err = .degenerateEdge e) ∨
    (∀ e < g.numEdges, g.edge e ≠ ⟨v, v⟩) ∧
      ∃ e ∈ g.arrivals v, turns.next? e = none ∧ err = .unmatchedEdge e v

section InOrder

variable {g} {inIds : List Nat} {arrange : Star Nat → List Spoke} (h : g.InOrder inIds)
  (harrange : g.Arranges inIds arrange)

include h harrange

/-! ### The pairs of a star -/

theorem InOrder.turns_append_unmatched_perm {s : Star Nat} (hs : s ∈ routingStars g.edges inIds) :
    ((Matching.ofSpokes (arrange s)).turns.map Prod.fst ++
      (Matching.ofSpokes (arrange s)).unmatched).Perm (g.arrivals s.center) :=
  (Matching.ofSpokes_incoming_perm _).trans (h.incomingIds_perm hs (harrange s hs))

theorem InOrder.nodup_turns_append_unmatched {s : Star Nat}
    (hs : s ∈ routingStars g.edges inIds) :
    ((Matching.ofSpokes (arrange s)).turns.map Prod.fst ++
      (Matching.ofSpokes (arrange s)).unmatched).Nodup :=
  (h.turns_append_unmatched_perm harrange hs).nodup_iff.2 (g.nodup_edgeIds.filter _)

theorem InOrder.nodup_targets {s : Star Nat} (hs : s ∈ routingStars g.edges inIds) :
    ((Matching.ofSpokes (arrange s)).turns.map Prod.snd).Nodup := by
  obtain ⟨free, hperm, -⟩ := Matching.ofSpokes_outgoing_perm (arrange s)
  have hnodup := (hperm.trans (h.outgoingIds_perm hs (harrange s hs))).nodup_iff.2
    (g.nodup_edgeIds.filter _)
  exact (List.nodup_append.1 hnodup).1

theorem InOrder.mem_of_mem_turns {s : Star Nat} (hs : s ∈ routingStars g.edges inIds) {e f : Nat}
    (hef : (e, f) ∈ (Matching.ofSpokes (arrange s)).turns) :
    e ∈ g.arrivals s.center ∧ f ∈ g.departures s.center := by
  obtain ⟨free, hperm, -⟩ := Matching.ofSpokes_outgoing_perm (arrange s)
  constructor
  · refine (h.turns_append_unmatched_perm harrange hs).mem_iff.1 ?_
    exact List.mem_append_left _ (List.mem_map.2 ⟨_, hef, rfl⟩)
  · refine (hperm.trans (h.outgoingIds_perm hs (harrange s hs))).mem_iff.1 ?_
    exact List.mem_append_left _ (List.mem_map.2 ⟨_, hef, rfl⟩)

/-! ### All pairs -/

omit harrange in
/-- Lists of edges at the centers of distinct stars have nothing in common. -/
theorem InOrder.nodup_flatMap_stars (ids : Star Nat → List Nat) (vertex : Nat → Int)
    (hnodup : ∀ s ∈ routingStars g.edges inIds, (ids s).Nodup)
    (hvertex : ∀ s ∈ routingStars g.edges inIds, ∀ e ∈ ids s, vertex e = s.center) :
    ((routingStars g.edges inIds).flatMap ids).Nodup := by
  refine List.nodup_flatMap.2 ⟨hnodup, ?_⟩
  apply h.pairwise_stars.imp_of_mem
  intro _ _ hs ht hlt e hes het
  have := hvertex _ hs e hes
  have := hvertex _ ht e het
  omega

theorem InOrder.nodup_keys : ((g.routedPairs arrange inIds).map Prod.fst).Nodup := by
  rw [routedPairs, List.map_flatMap]
  refine h.nodup_flatMap_stars _ (fun e => (g.edge e).dest) (fun s hs => ?_) fun s hs e he => ?_
  · exact (List.nodup_append.1 (h.nodup_turns_append_unmatched harrange hs)).1
  · obtain ⟨p, hp, rfl⟩ := List.mem_map.1 he
    exact (mem_arrivals.1 (h.mem_of_mem_turns harrange hs hp).1).2.1

theorem InOrder.nodup_values : ((g.routedPairs arrange inIds).map Prod.snd).Nodup := by
  rw [routedPairs, List.map_flatMap]
  refine h.nodup_flatMap_stars _ (fun e => (g.edge e).origin) (fun s hs => ?_) fun s hs e he => ?_
  · exact h.nodup_targets harrange hs
  · obtain ⟨p, hp, rfl⟩ := List.mem_map.1 he
    exact (mem_departures.1 (h.mem_of_mem_turns harrange hs hp).2).2.1

/-- The table holds exactly the pairs of the stars. -/
theorem InOrder.next?_routeBy {e f : Nat} :
    (g.routeBy arrange inIds).value.next? e = some f ↔
      ∃ s ∈ routingStars g.edges inIds, (e, f) ∈ (Matching.ofSpokes (arrange s)).turns := by
  have hmem : (e, f) ∈ g.routedPairs arrange inIds ↔
      ∃ s ∈ routingStars g.edges inIds, (e, f) ∈ (Matching.ofSpokes (arrange s)).turns :=
    List.mem_flatMap
  rw [← hmem, value_routeBy]
  by_cases he : e < g.numEdges
  · rw [Turns.next?_record (h.nodup_keys harrange) _ (by rwa [Array.size_replicate])]
    simp [Turns.next?_replicate_none]
  · constructor
    · intro hnext
      have := Turns.lt_size_of_next? hnext
      rw [Turns.size_record, Array.size_replicate] at this
      exact absurd this he
    · intro hef
      obtain ⟨s, hs, hef⟩ := hmem.1 hef
      exact absurd (mem_arrivals.1 (h.mem_of_mem_turns harrange hs hef).1).1 he

/-- The edges that find a turn at the center of a star. -/
theorem InOrder.filter_arrivals_perm {s : Star Nat} (hs : s ∈ routingStars g.edges inIds) :
    ((g.arrivals s.center).filter fun e =>
      ((g.routeBy arrange inIds).value.next? e).isSome).Perm
        ((Matching.ofSpokes (arrange s)).turns.map Prod.fst) := by
  refine (List.perm_ext_iff_of_nodup ((g.nodup_edgeIds.filter _).filter _)
    (List.nodup_append.1 (h.nodup_turns_append_unmatched harrange hs)).1).2 fun e => ?_
  rw [List.mem_filter, Option.isSome_iff_exists]
  constructor
  · rintro ⟨he, f, hnext⟩
    obtain ⟨t, ht, hef⟩ := (h.next?_routeBy harrange).1 hnext
    have hcenter : t.center = s.center :=
      (mem_arrivals.1 (h.mem_of_mem_turns harrange ht hef).1).2.1.symm.trans
        (mem_arrivals.1 he).2.1
    obtain rfl := h.star_eq ht hs hcenter
    exact List.mem_map.2 ⟨_, hef, rfl⟩
  · intro he
    obtain ⟨⟨_, f⟩, hef, rfl⟩ := List.mem_map.1 he
    exact ⟨(h.mem_of_mem_turns harrange hs hef).1, f, (h.next?_routeBy harrange).2 ⟨s, hs, hef⟩⟩

theorem InOrder.unmatched_iff {s : Star Nat} (hs : s ∈ routingStars g.edges inIds) {e : Nat} :
    e ∈ (Matching.ofSpokes (arrange s)).unmatched ↔
      e ∈ g.arrivals s.center ∧ (g.routeBy arrange inIds).value.next? e = none := by
  have hturns := h.filter_arrivals_perm harrange hs
  have hnodup := h.nodup_turns_append_unmatched harrange hs
  have hmem := (h.turns_append_unmatched_perm harrange hs).mem_iff (a := e)
  rw [List.mem_append, ← hturns.mem_iff, List.mem_filter] at hmem
  constructor
  · intro he
    have hnot := fun he' => (List.nodup_append.1 hnodup).2.2 _ (hturns.mem_iff.1 he') e he rfl
    rw [List.mem_filter, Option.isSome_iff_ne_none] at hnot
    have harrives := hmem.1 (.inr he)
    exact ⟨harrives, by_contra fun hnext => hnot ⟨harrives, hnext⟩⟩
  · rintro ⟨he, hnext⟩
    refine (hmem.2 he).resolve_left ?_
    rw [hnext]
    exact fun hsome => nomatch hsome.2

/-! ### Errors -/

theorem InOrder.unmatched_eq_nil_iff {s : Star Nat} (hs : s ∈ routingStars g.edges inIds) :
    (Matching.ofSpokes (arrange s)).unmatched = [] ↔
      (g.arrivals s.center).length ≤ (g.departures s.center).length := by
  rw [Matching.unmatched_eq_nil_iff, (h.incomingIds_perm hs (harrange s hs)).length_eq,
    (h.outgoingIds_perm hs (harrange s hs)).length_eq]

/-- A star can be routed completely if its center is not blocked. -/
theorem InOrder.error?_eq_none_iff {s : Star Nat} (hs : s ∈ routingStars g.edges inIds) :
    s.error? (Matching.ofSpokes (arrange s)) = none ↔ ¬g.Blocked s.center := by
  have hdeg : (g.edgeIds.find? fun e => g.edge e == ⟨s.center, s.center⟩) = none ↔
      ¬∃ e < g.numEdges, g.edge e = ⟨s.center, s.center⟩ := by
    simp [mem_edgeIds]
  rw [Blocked, not_or, ← hdeg, Nat.not_lt, ← h.unmatched_eq_nil_iff harrange hs]
  rw [Star.error?_eq, h.head?_degenerate hs]
  cases g.edgeIds.find? fun e => g.edge e == ⟨s.center, s.center⟩ with
  | none => simp
  | some e => simp

/-- The error of a star names its least degenerate edge, or else an edge without a turn. -/
theorem InOrder.reports_error {s : Star Nat} (hs : s ∈ routingStars g.edges inIds)
    {err : BuildError} (herr : s.error? (Matching.ofSpokes (arrange s)) = some err) :
    g.Reports (g.routeBy arrange inIds).value s.center err := by
  rw [Star.error?_eq, h.head?_degenerate hs] at herr
  cases hfind : g.edgeIds.find? fun e => g.edge e == ⟨s.center, s.center⟩ with
  | some e =>
      rw [hfind] at herr
      cases herr
      obtain ⟨hedge, he, hleast⟩ := List.find?_range_eq_some.1 hfind
      refine .inl ⟨e, g.mem_edgeIds.1 he, beq_iff_eq.1 hedge, fun f hf hf' => ?_, rfl⟩
      have := hleast f hf
      rw [hf', beq_self_eq_true] at this
      cases this
  | none =>
      rw [hfind] at herr
      obtain ⟨e, he, rfl⟩ := Option.map_eq_some_iff.1 herr
      have hmem := (h.unmatched_iff harrange hs).1 (List.mem_of_getLast? he)
      refine .inr ⟨fun f hf hedge => ?_, e, hmem.1, hmem.2, rfl⟩
      have := List.find?_eq_none.1 hfind f (g.mem_edgeIds.2 hf)
      exact this (beq_iff_eq.2 hedge)

omit harrange in
theorem InOrder.exists_star_of_blocked {v : Int} (hv : g.Blocked v) :
    ∃ s ∈ routingStars g.edges inIds, s.center = v := by
  refine h.exists_star_iff.2 ?_
  rcases hv with ⟨e, he, hedge⟩ | hlt
  · exact ⟨e, he, .inl (congrArg Edge.origin hedge)⟩
  · obtain ⟨e, he⟩ := List.exists_mem_of_length_pos (Nat.zero_lt_of_lt hlt)
    obtain ⟨he, hdest, -⟩ := mem_arrivals.1 he
    exact ⟨e, he, .inr hdest⟩

/-- An error is reported if some vertex is blocked, and concerns the least such vertex. -/
theorem InOrder.error?_routeBy :
    ((g.routeBy arrange inIds).error? = none ↔ ∀ v, ¬g.Blocked v) ∧
      ∀ err, (g.routeBy arrange inIds).error? = some err →
        ∃ v, g.Blocked v ∧ (∀ w < v, ¬g.Blocked w) ∧
          g.Reports (g.routeBy arrange inIds).value v err := by
  have hroute : (g.routeBy arrange inIds).error? = (routingStars g.edges inIds).findSome?
      fun s => s.error? (Matching.ofSpokes (arrange s)) := by
    simp only [routeBy, Turns.ofStars, List.map_map, List.findSome?_map]
    rfl
  constructor
  · rw [hroute, List.findSome?_eq_none_iff]
    constructor
    · intro hnone v hv
      obtain ⟨s, hs, rfl⟩ := h.exists_star_of_blocked hv
      exact (h.error?_eq_none_iff harrange hs).1 (hnone s hs) hv
    · intro hall s hs
      exact (h.error?_eq_none_iff harrange hs).2 (hall s.center)
  · intro err herr
    rw [hroute] at herr
    obtain ⟨before, s, after, hstars, herror, hbefore⟩ := List.findSome?_eq_some_iff.1 herr
    have hs : s ∈ routingStars g.edges inIds := by simp [hstars]
    refine ⟨s.center, ?_, fun w hw hblocked => ?_, h.reports_error harrange hs herror⟩
    · by_contra hfree
      rw [(h.error?_eq_none_iff harrange hs).2 hfree] at herror
      cases herror
    · obtain ⟨t, ht, rfl⟩ := h.exists_star_of_blocked hblocked
      have htbefore : t ∈ before := by
        have hasc := h.pairwise_stars
        rw [hstars] at ht hasc
        rcases List.mem_append.1 ht with ht | ht
        · exact ht
        · have hle : s.center ≤ t.center := by
            rcases List.mem_cons.1 ht with rfl | ht
            · exact le_refl _
            · exact le_of_lt ((List.pairwise_cons.1 (List.pairwise_append.1 hasc).2.1).1 t ht)
          omega
      exact (h.error?_eq_none_iff harrange (hstars ▸ List.mem_append_left _ htbefore)).1
        (hbefore t htbefore) hblocked

end InOrder

/-! ### Balance -/

theorem length_arrivals (hproper : ∀ e < g.numEdges, (g.edge e).isDegenerate = false) (v : Int) :
    (g.arrivals v).length = (g.edgeIds.map fun e => (g.edge e).dest).count v := by
  rw [List.count, List.countP_map, List.countP_eq_length_filter, arrivals]
  refine congrArg List.length (List.filter_congr fun e he => ?_)
  simp [hproper e (g.mem_edgeIds.1 he)]

theorem length_departures (hproper : ∀ e < g.numEdges, (g.edge e).isDegenerate = false) (v : Int) :
    (g.departures v).length = (g.edgeIds.map fun e => (g.edge e).origin).count v := by
  rw [List.count, List.countP_map, List.countP_eq_length_filter, departures]
  refine congrArg List.length (List.filter_congr fun e he => ?_)
  simp [hproper e (g.mem_edgeIds.1 he)]

/-- If no vertex has more incoming than outgoing edges, none has fewer: there are as many of the one
as of the other in all. -/
theorem forall_not_blocked_iff : (∀ v, ¬g.Blocked v) ↔
    (∀ e < g.numEdges, (g.edge e).isDegenerate = false) ∧
      ∀ v, (g.arrivals v).length = (g.departures v).length := by
  constructor
  · intro hfree
    have hproper : ∀ e < g.numEdges, (g.edge e).isDegenerate = false := by
      intro e he
      rw [← Bool.not_eq_true, Edge.isDegenerate_iff]
      intro hloop
      exact hfree (g.edge e).origin (.inl ⟨e, he, Edge.ext_iff'.2 ⟨rfl, hloop.symm⟩⟩)
    refine ⟨hproper, fun v => ?_⟩
    rw [g.length_arrivals hproper, g.length_departures hproper]
    refine (perm_of_count_le (by simp) fun w => ?_).count_eq v
    rw [← g.length_arrivals hproper, ← g.length_departures hproper]
    exact Nat.le_of_not_lt fun hlt => hfree w (.inr hlt)
  · rintro ⟨hproper, hequal⟩ v (⟨e, he, hedge⟩ | hlt)
    · have := hproper e he
      simp [hedge, Edge.isDegenerate] at this
    · have := hequal v
      omega

/-! ### What routing grants -/

/-- What routing grants, whatever the order of directions around a vertex. -/
structure IsRouting (r : Outcome Turns) : Prop where
  size_eq : r.value.size = g.numEdges
  joins : ∀ e f, r.value.next? e = some f →
    e < g.numEdges ∧ f < g.numEdges ∧ (g.edge e).dest = (g.edge f).origin
  proper : ∀ e f, r.value.next? e = some f →
    (g.edge e).isDegenerate = false ∧ (g.edge f).isDegenerate = false
  injective : ∀ e e' f, r.value.next? e = some f → r.value.next? e' = some f → e = e'
  matched : ∀ v, ((g.arrivals v).filter fun e => (r.value.next? e).isSome).length =
    min (g.arrivals v).length (g.departures v).length
  error?_eq_none_iff : r.error? = none ↔ (∀ e < g.numEdges, (g.edge e).isDegenerate = false) ∧
    ∀ v, (g.arrivals v).length = (g.departures v).length
  permutes : r.error? = none → ∃ ids : List Nat, ids.Perm g.edgeIds ∧ r.value.toList = ids.map some
  reports : ∀ err, r.error? = some err → ∃ v, g.Blocked v ∧ (∀ w < v, ¬g.Blocked w) ∧
    g.Reports r.value v err

variable {g} {inIds : List Nat}

/-- A table in which every edge has a turn of its own is a permutation. -/
theorem exists_perm_of_turns {turns : Turns} (hsize : turns.size = g.numEdges)
    (hsome : ∀ e < g.numEdges, ∃ f, turns.next? e = some f)
    (hlt : ∀ e f, turns.next? e = some f → f < g.numEdges)
    (hinj : ∀ e e' f, turns.next? e = some f → turns.next? e' = some f → e = e') :
    ∃ ids : List Nat, ids.Perm g.edgeIds ∧ turns.toList = ids.map some := by
  have hnext : ∀ e < g.numEdges, turns.next? e = some ((turns.next? e).getD 0) := by
    intro e he
    obtain ⟨f, hf⟩ := hsome e he
    rw [hf]
    rfl
  refine ⟨g.edgeIds.map fun e => (turns.next? e).getD 0, ?_, ?_⟩
  · have hnodup : (g.edgeIds.map fun e => (turns.next? e).getD 0).Nodup := by
      refine List.Nodup.map_on (fun e he e' he' heq => ?_) g.nodup_edgeIds
      have hf := hnext e' (g.mem_edgeIds.1 he')
      rw [← heq] at hf
      exact hinj e e' _ (hnext e (g.mem_edgeIds.1 he)) hf
    refine (List.subperm_of_subset hnodup fun f hf => ?_).perm_of_length_le (by simp)
    obtain ⟨e, he, rfl⟩ := List.mem_map.1 hf
    exact g.mem_edgeIds.2 (hlt e _ (hnext e (g.mem_edgeIds.1 he)))
  · refine List.ext_getElem (by simp [edgeIds, hsize]) fun e he _ => ?_
    have hlt : e < turns.size := by simpa using he
    have hget := hnext e (hsize ▸ hlt)
    simp only [List.getElem_map, edgeIds, List.getElem_range]
    rw [← hget, Array.getElem_toList]
    unfold Turns.next?
    rw [Array.getElem?_eq_getElem hlt]
    rfl

/-- Spokes may be matched in any order. -/
theorem InOrder.isRouting_routeBy (h : g.InOrder inIds) {arrange : Star Nat → List Spoke}
    (harrange : g.Arranges inIds arrange) : g.IsRouting (g.routeBy arrange inIds) := by
  have hjoins : ∀ e f, (g.routeBy arrange inIds).value.next? e = some f →
      ∃ v, e ∈ g.arrivals v ∧ f ∈ g.departures v := by
    intro e f hnext
    obtain ⟨s, hs, hef⟩ := (h.next?_routeBy harrange).1 hnext
    exact ⟨s.center, h.mem_of_mem_turns harrange hs hef⟩
  have hinj : ∀ e e' f, (g.routeBy arrange inIds).value.next? e = some f →
      (g.routeBy arrange inIds).value.next? e' = some f → e = e' := by
    intro e e' f he he'
    have hmem : ∀ e, (g.routeBy arrange inIds).value.next? e = some f →
        (e, f) ∈ g.routedPairs arrange inIds := fun e he =>
      List.mem_flatMap.2 ((h.next?_routeBy harrange).1 he)
    exact congrArg Prod.fst
      (List.inj_on_of_nodup_map (h.nodup_values harrange) (hmem e he) (hmem e' he') rfl)
  have hmatched : ∀ v, ((g.arrivals v).filter fun e =>
      ((g.routeBy arrange inIds).value.next? e).isSome).length =
        min (g.arrivals v).length (g.departures v).length := by
    intro v
    by_cases hv : ∃ s ∈ routingStars g.edges inIds, s.center = v
    · obtain ⟨s, hs, rfl⟩ := hv
      rw [(h.filter_arrivals_perm harrange hs).length_eq, List.length_map, Matching.length_turns,
        (h.incomingIds_perm hs (harrange s hs)).length_eq, (h.outgoingIds_perm hs (harrange s hs)).length_eq]
    · have hnil : g.arrivals v = [] := by
        refine List.eq_nil_iff_forall_not_mem.2 fun e he => hv (h.exists_star_iff.2 ?_)
        exact ⟨e, (mem_arrivals.1 he).1, .inr (mem_arrivals.1 he).2.1⟩
      simp [hnil]
  have herror := (h.error?_routeBy harrange).1.trans g.forall_not_blocked_iff
  refine ⟨g.size_routeBy arrange inIds, fun e f hnext => ?_, fun e f hnext => ?_, hinj, hmatched,
    herror, fun hnone => ?_, (h.error?_routeBy harrange).2⟩
  · obtain ⟨v, he, hf⟩ := hjoins e f hnext
    obtain ⟨he, hdest, -⟩ := mem_arrivals.1 he
    obtain ⟨hf, horigin, -⟩ := mem_departures.1 hf
    exact ⟨he, hf, hdest.trans horigin.symm⟩
  · obtain ⟨v, he, hf⟩ := hjoins e f hnext
    exact ⟨(mem_arrivals.1 he).2.2, (mem_departures.1 hf).2.2⟩
  · obtain ⟨hproper, hequal⟩ := herror.1 hnone
    refine exists_perm_of_turns (g.size_routeBy arrange inIds) (fun e he => ?_) (fun e f hnext => ?_)
      hinj
    · have hfull := hmatched (g.edge e).dest
      rw [hequal, Nat.min_self, ← hequal, List.length_filter_eq_length_iff] at hfull
      exact Option.isSome_iff_exists.1 (hfull e (mem_arrivals.2 ⟨he, rfl, hproper e he⟩))
    · obtain ⟨v, -, hf⟩ := hjoins e f hnext
      exact (mem_departures.1 hf).1

theorem IsRouting.exists_next {r : Outcome Turns} (h : g.IsRouting r) (hnone : r.error? = none)
    {e : Nat} (he : e < g.numEdges) : ∃ f, r.value.next? e = some f := by
  obtain ⟨ids, -, hids⟩ := h.permutes hnone
  have hlt : e < r.value.size := by rwa [h.size_eq]
  have hmem : r.value[e] ∈ ids.map some := by
    rw [← hids]
    exact Array.mem_toList_iff.2 (Array.getElem_mem hlt)
  obtain ⟨f, -, hf⟩ := List.mem_map.1 hmem
  refine ⟨f, ?_⟩
  unfold Turns.next?
  rw [Array.getElem?_eq_getElem hlt, ← hf]
  rfl

theorem IsRouting.exists_next_iff {r : Outcome Turns} (h : g.IsRouting r) (hnone : r.error? = none)
    (e : Nat) : (∃ f, r.value.next? e = some f) ↔ e < g.numEdges := by
  constructor
  · rintro ⟨f, hf⟩
    exact (h.joins e f hf).1
  · exact h.exists_next hnone

theorem IsRouting.closed {r : Outcome Turns} (h : g.IsRouting r) (hnone : r.error? = none) :
    r.value.Closed where
  injective := h.injective
  onward e f hf := (h.exists_next_iff hnone f).2 (h.joins e f hf).2.1

/-- Where every edge occurs as often as its reverse, as many edges enter a vertex as leave it. -/
theorem length_arrivals_eq_length_departures
    (hpaired : ∀ e : Edge, g.edges.toList.count e = g.edges.toList.count e.reverse) (v : Int) :
    (g.arrivals v).length = (g.departures v).length := by
  have hcount : ∀ p : Edge → Bool,
      (g.edgeIds.filter fun e => p (g.edge e)).length = g.edges.toList.countP p := by
    intro p
    rw [← map_edge_edgeIds, List.countP_map, List.countP_eq_length_filter]
    rfl
  rw [departures, hcount fun e => e.origin == v && !e.isDegenerate,
    ← (g.map_reverse_perm_iff.2 hpaired).countP_eq, List.countP_map, arrivals,
    hcount fun e => e.dest == v && !e.isDegenerate]
  refine List.countP_congr fun e _ => ?_
  rw [Function.comp_apply, Edge.reverse_origin, Edge.isDegenerate_reverse]

/-! ### Sorting the spokes -/

section Route

variable (g) (sort : ComparisonSort Spoke) (compass : Compass) (inIds)

theorem route_cases :
    (∃ arrange : Star Nat → List Spoke,
      (∀ s ∈ routingStars g.edges inIds, s.spokes sort compass = .ok (arrange s)) ∧
        route sort compass g.edges inIds = .ok (g.routeBy arrange inIds)) ∨
      ∃ s ∈ routingStars g.edges inIds, ∃ f, s.spokes sort compass = .error f ∧
        route sort compass g.edges inIds = .error f := by
  cases hmap : (routingStars g.edges inIds).mapM (m := Except Fault) fun s => do
      return (s, ← s.spokes sort compass) with
  | ok stars =>
      have hspokes : ∀ s ∈ routingStars g.edges inIds, ∃ spokes,
          s.spokes sort compass = .ok spokes := by
        intro s hs
        obtain ⟨_, hpair⟩ := exists_of_mapM_eq_ok hmap s hs
        obtain ⟨spokes, hspokes, -⟩ := bind_eq_ok_iff.1 hpair
        exact ⟨spokes, hspokes⟩
      have hvalue : ∀ s ∈ routingStars g.edges inIds,
          s.spokes sort compass = .ok ((s.spokes sort compass).toOption.getD []) := by
        intro s hs
        obtain ⟨spokes, hspokes⟩ := hspokes s hs
        rw [hspokes]
        rfl
      have hpairs : (routingStars g.edges inIds).mapM (m := Except Fault) (fun s => do
          return (s, ← s.spokes sort compass)) = .ok ((routingStars g.edges inIds).map fun s =>
            (s, (s.spokes sort compass).toOption.getD [])) := by
        refine mapM_eq_ok fun s hs => ?_
        rw [hvalue s hs]
        rfl
      refine .inl ⟨fun s => (s.spokes sort compass).toOption.getD [], hvalue, ?_⟩
      rw [route, hpairs]
      rfl
  | error f =>
      obtain ⟨s, hs, hfail⟩ := exists_of_mapM_eq_error hmap
      refine .inr ⟨s, hs, f, ?_, ?_⟩
      · cases hspokes : s.spokes sort compass with
        | ok spokes =>
            rw [hspokes] at hfail
            cases hfail
        | error f' =>
            rw [hspokes] at hfail
            exact congrArg Except.error (Except.error.inj hfail)
      · rw [route, hmap]
        rfl

/-- If routing comes to an end, it has matched the spokes of every star in some order. -/
theorem exists_routeBy {r : Outcome Turns} (h : route sort compass g.edges inIds = .ok r) :
    ∃ arrange, g.Arranges inIds arrange ∧
      (∀ s ∈ routingStars g.edges inIds, s.spokes sort compass = .ok (arrange s)) ∧
        r = g.routeBy arrange inIds := by
  rcases g.route_cases inIds sort compass with ⟨arrange, hspokes, hroute⟩ | ⟨_, _, f, _, hroute⟩
  · rw [hroute] at h
    exact ⟨arrange, fun s hs => Star.spokes_perm (hspokes s hs), hspokes, (Except.ok.inj h).symm⟩
  · rw [hroute] at h
    cases h

end Route

/-- Left turns depend on positions and edges alone. -/
theorem leftTurns_congr {g g' : Graph} (hvertices : g'.vertices = g.vertices)
    (hedges : g'.edges = g.edges) (sort : ComparisonSort Spoke) :
    g'.leftTurns sort = g.leftTurns sort := by
  have hcompass : g'.compass = g.compass := by
    have hposition : g'.position = g.position := by
      funext v
      rw [position, position, hvertices]
    funext center anchor a b
    rw [compass, compass, hposition]
  have hin : g'.inEdgeIds = g.inEdgeIds := by
    rw [inEdgeIds, inEdgeIds, edgeIds_congr hedges, edge_congr hedges]
  rw [leftTurns, leftTurns, hcompass, hin, hedges]

/-! ### Routing a graph -/

/-- A step gives up because the directions around some vertex are in no order. -/
def GivesUp {α : Type} (g : Graph) (step : Except Fault α) : Prop :=
  step = .error .inconsistentOrder ∧ ¬g.OrdersClockwise

section Steps

variable (sort : ComparisonSort Spoke)

/-- Routing that gives up has met a vertex around which directions are in no order. -/
theorem InOrder.route_cases (h : g.InOrder inIds) : g.GivesUp (route sort g.compass g.edges inIds) ∨
    ∃ arrange, g.Arranges inIds arrange ∧
      (∀ s ∈ routingStars g.edges inIds, s.spokes sort g.compass = .ok (arrange s)) ∧
        route sort g.compass g.edges inIds = .ok (g.routeBy arrange inIds) := by
  rcases g.route_cases inIds sort g.compass with
    ⟨arrange, hspokes, hroute⟩ | ⟨s, hs, f, hfail, hroute⟩
  · exact .inr ⟨arrange, fun s hs => Star.spokes_perm (hspokes s hs), hspokes, hroute⟩
  · refine .inl ⟨?_, fun hclockwise => ?_⟩
    · rw [hroute, Star.eq_inconsistentOrder hfail]
    · obtain ⟨spokes, hspokes⟩ := exists_spokes h hs sort hclockwise
      rw [hfail] at hspokes
      cases hspokes

theorem leftTurns_cases : g.GivesUp (g.leftTurns sort) ∨
    ∃ r, g.leftTurns sort = .ok r ∧ g.IsRouting r := by
  rcases g.inOrder_inEdgeIds.route_cases sort with hgives | ⟨arrange, harrange, -, hroute⟩
  · exact .inl hgives
  · exact .inr ⟨_, hroute, g.inOrder_inEdgeIds.isRouting_routeBy harrange⟩

variable {sort} in
theorem isRouting_leftTurns {r : Outcome Turns} (h : g.leftTurns sort = .ok r) : g.IsRouting r := by
  obtain ⟨arrange, harrange, -, rfl⟩ := g.exists_routeBy g.inEdgeIds sort g.compass h
  exact g.inOrder_inEdgeIds.isRouting_routeBy harrange

variable {sort} in
/-- The left turns of a graph of sibling pairs are a permutation. -/
theorem isRouting_leftTurns_of_paired {r : Outcome Turns} (h : g.leftTurns sort = .ok r)
    (hpaired : ∀ e : Edge, g.edges.toList.count e = g.edges.toList.count e.reverse)
    (hproper : ∀ e < g.numEdges, (g.edge e).isDegenerate = false) :
    g.IsRouting r ∧ r.error? = none := by
  have hrouting := isRouting_leftTurns h
  exact ⟨hrouting, hrouting.error?_eq_none_iff.2
    ⟨hproper, length_arrivals_eq_length_departures hpaired⟩⟩

theorem InOrder.leftTurnsFrom (h : g.InOrder inIds) :
    g.leftTurnsFrom sort (inIds.map Int.ofNat) = route sort g.compass g.edges inIds := by
  have hlen : (inIds.map Int.ofNat).length = g.numEdges := by
    rw [List.length_map, h.perm.length_eq, edgeIds, List.length_range]
  unfold Graph.leftTurnsFrom
  rw [← hlen, List.take_length, hlen, mapM_indexOf fun e he => h.mem_iff.1 he,
    if_neg (Nat.lt_irrefl _)]
  rfl

/-- A step that routes a graph matches the spokes of every star in some order, unless it gives up. -/
theorem InOrder.routeLeft_cases (h : g.InOrder inIds) (w : Workspace) :
    g.GivesUp (w.routeLeft g (some (inIds.map Int.ofNat)) sort) ∨
      ∃ arrange, g.Arranges inIds arrange ∧
        (∀ s ∈ routingStars g.edges inIds, s.spokes sort g.compass = .ok (arrange s)) ∧
        w.routeLeft g (some (inIds.map Int.ofNat)) sort =
          .ok ({ w with turns := (g.routeBy arrange inIds).value },
            (g.routeBy arrange inIds).error?) := by
  simp only [Workspace.routeLeft, h.leftTurnsFrom]
  rcases h.route_cases sort with ⟨hroute, hclockwise⟩ | ⟨arrange, harrange, hspokes, hroute⟩
  · rw [hroute]
    exact .inl ⟨rfl, hclockwise⟩
  · rw [hroute]
    exact .inr ⟨arrange, harrange, hspokes, rfl⟩

/-- Routing a graph by its edge ids by destination, or by its sibling map. In whatever order the spokes
of the stars are matched, the outcome is a routing; and the step matches them in some order, unless it
gives up. -/
theorem isRouting_routeLeft (g : Graph) (w : Workspace) {ids : List Int}
    (hids : ids = g.inEdgeIds.map Int.ofNat ∨ g.siblingMap = .ok ids) :
    ∃ inIds : List Nat, ids = inIds.map Int.ofNat ∧
      (∀ arrange, g.Arranges inIds arrange → g.IsRouting (g.routeBy arrange inIds)) ∧
      (g.GivesUp (w.routeLeft g (some ids) sort) ∨ ∃ arrange, g.Arranges inIds arrange ∧
        w.routeLeft g (some ids) sort = .ok ({ w with turns := (g.routeBy arrange inIds).value },
          (g.routeBy arrange inIds).error?)) := by
  obtain ⟨inIds, rfl, h⟩ : ∃ inIds : List Nat, ids = inIds.map Int.ofNat ∧ g.InOrder inIds := by
    rcases hids with rfl | hids
    · exact ⟨g.inEdgeIds, rfl, g.inOrder_inEdgeIds⟩
    · exact g.exists_siblingMap hids
  refine ⟨inIds, rfl, fun arrange => h.isRouting_routeBy, (h.routeLeft_cases sort w).imp_right ?_⟩
  rintro ⟨arrange, harrange, -, hstep⟩
  exact ⟨arrange, harrange, hstep⟩

end Steps

/-- A pair of degenerate edges beside an edge and its sibling. -/
def pairedLoops : Graph where
  options := { edgeType := .undirected }
  vertices := #[default, default]
  edges := #[⟨0, 0⟩, ⟨0, 0⟩, ⟨0, 1⟩, ⟨1, 0⟩]
  inputHandles := #[0, 1, 2, 3]
  inputSets := .empty
  labelHandles := #[]
  labelSets := .empty
  valid := rfl

theorem isRouting_routeLeft_pairedLoops :
    ∃ inIds : List Nat, [1, 0, 3, 2] = inIds.map Int.ofNat ∧
      (∀ arrange, pairedLoops.Arranges inIds arrange →
        pairedLoops.IsRouting (pairedLoops.routeBy arrange inIds)) ∧
      ∃ arrange, pairedLoops.Arranges inIds arrange ∧
        Workspace.routeLeft {} pairedLoops (some [1, 0, 3, 2]) =
          .ok ({ turns := (pairedLoops.routeBy arrange inIds).value },
            (pairedLoops.routeBy arrange inIds).error?) := by
  have hclockwise : pairedLoops.OrdersClockwise := by decide +kernel
  obtain ⟨inIds, hids, hrouting, hstep⟩ :=
    @isRouting_routeLeft .standard pairedLoops {} [1, 0, 3, 2] (.inr (by cbv))
  exact ⟨inIds, hids, hrouting, hstep.resolve_left fun hgives => hgives.2 hclockwise⟩

/-! ### Giving up -/

/-- The standard sort gives up around a vertex with directions in a circle, if it has many edges. -/
theorem InOrder.route_standard_of_hasCircle (h : g.InOrder inIds) {v anchor a b c : Int}
    (hcircle : g.HasCircle v anchor a b c)
    (hmany : 21 < (g.arrivals v).length + (g.departures v).length) :
    route .standard g.compass g.edges inIds = .error .inconsistentOrder := by
  obtain ⟨-, e, he, hedge⟩ := hcircle.begins
  obtain ⟨s, hs, rfl⟩ : ∃ s ∈ routingStars g.edges inIds, s.center = v :=
    h.exists_star_iff.2 ⟨e, he, hedge.imp (congrArg Edge.origin) (congrArg Edge.dest)⟩
  have hlength : (s.bundles.flatMap Bundle.spokes).length =
      (g.arrivals s.center).length + (g.departures s.center).length := by
    rw [← (h.incomingIds_perm hs (.refl _)).length_eq, ← (h.outgoingIds_perm hs (.refl _)).length_eq,
      Spoke.incomingIds, Spoke.outgoingIds, List.length_map, List.length_map]
    exact List.length_eq_length_filter_add _
  have hfail := spokes_standard_of_hasCircle h hs hcircle (hlength ▸ hmany)
  rcases g.route_cases inIds .standard g.compass with ⟨arrange, hspokes, -⟩ | ⟨t, _, f, ht, hroute⟩
  · rw [hspokes s hs] at hfail
    cases hfail
  · rw [hroute, Star.eq_inconsistentOrder ht]

/-- A vertex, and eleven vertices nearly on one great circle through it: the points with coordinates
`(k, 3 * k, -10)`, scaled to unit length. -/
def collinearPoints : Array Point :=
  #[⟨.ofBits 0x0000000000000000, .ofBits 0x0000000000000000, .ofBits 0x3FF0000000000000⟩,
    ⟨.ofBits 0x3FB8689CC7E07E7D, .ofBits 0x3FD24E7595E85EDE, .ofBits 0xBFEE82C3F9D89E1C⟩,
    ⟨.ofBits 0x3FC5A2CD8C69D61A, .ofBits 0x3FE03A1A294F6094, .ofBits 0xBFEB0B80EF844BA0⟩,
    ⟨.ofBits 0x3FCBDBB8C33CB170, .ofBits 0x3FE4E4CA926D8514, .ofBits 0xBFE73719F807E932⟩,
    ⟨.ofBits 0x3FCFC0BD88A0F1DA, .ofBits 0x3FE7D08E2678B564, .ofBits 0xBFE3D87675649728⟩,
    ⟨.ofBits 0x3FD11ACEE5602429, .ofBits 0x3FE9A8365810363E, .ofBits 0xBFE11ACEE5602429⟩,
    ⟨.ofBits 0x3FD1E772981B4B48, .ofBits 0x3FEADB2BE428F0EC, .ofBits 0xBFDDD71452D82822⟩,
    ⟨.ofBits 0x3FD271A1574E4DBC, .ofBits 0x3FEBAA7202F5749B, .ofBits 0xBFDA592FA14B4A7B⟩,
    ⟨.ofBits 0x3FD2D24D73BE4ED4, .ofBits 0x3FEC3B742D9D763E, .ofBits 0xBFD786E0D0ADE289⟩,
    ⟨.ofBits 0x3FD3181E69D1BFE9, .ofBits 0x3FECA42D9EBA9FDE, .ofBits 0xBFD5373E3CB02A91⟩,
    ⟨.ofBits 0x3FD34BF63D156825, .ofBits 0x3FECF1F15BA01C38, .ofBits 0xBFD34BF63D156825⟩,
    ⟨.ofBits 0x3FD3736649966853, .ofBits 0x3FED2D196E619C7D, .ofBits 0xBFD1AEBA145A304C⟩]

/-- An edge from the first vertex to each of the others, and one back. -/
def starEdges : Array Edge :=
  #[⟨0, 1⟩, ⟨0, 2⟩, ⟨0, 3⟩, ⟨0, 4⟩, ⟨0, 5⟩, ⟨0, 6⟩, ⟨0, 7⟩, ⟨0, 8⟩, ⟨0, 9⟩, ⟨0, 10⟩, ⟨0, 11⟩,
    ⟨1, 0⟩, ⟨2, 0⟩, ⟨3, 0⟩, ⟨4, 0⟩, ⟨5, 0⟩, ⟨6, 0⟩, ⟨7, 0⟩, ⟨8, 0⟩, ⟨9, 0⟩, ⟨10, 0⟩, ⟨11, 0⟩]

def collinearStar (o : Options) : Graph where
  options := o
  vertices := collinearPoints
  edges := starEdges
  inputHandles := #[0, 1, 2, 3, 4, 5, 6, 7, 8, 9, 10, 11, 12, 13, 14, 15, 16, 17, 18, 19, 20, 21]
  inputSets := .empty
  labelHandles := #[]
  labelSets := .empty
  valid := rfl

theorem hasCircle_collinearStar : (collinearStar {}).HasCircle 0 1 3 6 11 where
  begins := by decide +kernel
  least w hw := by
    have hpositive := (mem_vertexIds.1 hw.mem_vertexIds).1
    have hne := hw.1
    omega
  neighbours := by decide +kernel
  circle := ⟨by decide, by decide +kernel, by decide +kernel, by decide +kernel⟩

theorem leftTurns_collinearStar (o : Options) :
    (collinearStar o).leftTurns .standard = .error .inconsistentOrder := by
  have hsame : (collinearStar o).leftTurns .standard = (collinearStar {}).leftTurns .standard :=
    leftTurns_congr rfl rfl .standard
  rw [hsame]
  exact (collinearStar {}).inOrder_inEdgeIds.route_standard_of_hasCircle hasCircle_collinearStar
    (by decide +kernel)

/-! Nothing else is the matter with the star. -/

theorem knowsInputs_collinearStar (o : Options) : (collinearStar o).KnowsInputs := by
  refine knowsInputs_of_singles ?_
  show ∀ handle ∈ (collinearStar {}).inputHandles.toList, 0 ≤ handle ∨ handle = IdSets.emptyId
  decide

theorem proper_collinearStar (o : Options) :
    ∀ e < (collinearStar o).numEdges, ((collinearStar o).edge e).isDegenerate = false := by
  show ∀ e < (collinearStar {}).numEdges, ((collinearStar {}).edge e).isDegenerate = false
  decide

theorem paired_collinearStar (o : Options) (e : Edge) :
    (collinearStar o).edges.toList.count e = (collinearStar o).edges.toList.count e.reverse := by
  refine Edge.map_reverse_perm_iff.1 ?_ e
  show (starEdges.toList.map Edge.reverse).Perm starEdges.toList
  decide

/-- No vertex of the star is blocked, and yet routing gives up around its center. -/
theorem not_isRouting_collinearStar : ∃ g : Graph, (∀ v, ¬g.Blocked v) ∧
    Workspace.routeLeft {} g (some (g.inEdgeIds.map Int.ofNat)) = .error .inconsistentOrder := by
  refine ⟨collinearStar {}, (forall_not_blocked_iff _).2 ⟨proper_collinearStar {},
    length_arrivals_eq_length_departures (paired_collinearStar {})⟩, ?_⟩
  have hroute : (collinearStar {}).leftTurnsFrom .standard
      ((collinearStar {}).inEdgeIds.map Int.ofNat) = .error .inconsistentOrder :=
    ((inOrder_inEdgeIds _).leftTurnsFrom .standard).trans (leftTurns_collinearStar {})
  simp only [Workspace.routeLeft, hroute, error_bind]

end Graph

end SnapGraph
