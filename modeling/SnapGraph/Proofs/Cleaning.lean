import Mathlib
import SnapGraph.Proofs.Bundle
import SnapGraph.Proofs.Graph
import SnapGraph.Proofs.IdSets

/-! How many copies of each edge cleaning leaves. The numbers are stated for the multiset of edges
alone, without bundles: `Options.copiesLeft`. Cleaning visits every edge that occurs in either
direction once, in ascending order, and decides from the copies of the edge, those of its reverse
and, for a degenerate edge, from whether its star holds nothing else. -/

namespace SnapGraph

/-! ### The copies that are left -/

namespace Options

/-- A number of copies, merged into one where duplicates are. -/
def capped (o : Options) (n : Nat) : Nat := if o.duplicates = .merge then min n 1 else n

/-- The copies left of `n` copies of an edge between two vertices, `m` edges running the other
way. -/
def properCopies (o : Options) (n m : Nat) : Nat :=
  match o.siblings with
  | .keep => o.capped n
  | .discard => if o.isUndirected then n % 2 else o.capped (n - m)
  | .require | .create =>
      if o.duplicates = .merge then if 0 < n + m then 1 else 0
      else if o.isUndirected then (n + 1) / 2 else max n m

/-- Whether degenerate edges at `v` are kept, if there are any: where excess is discarded, only if
no other edge touches `v`. -/
def keepsDegenerates (o : Options) (edges : List Edge) (v : Int) : Bool :=
  match o.degenerates with
  | .discard => false
  | .discardExcess => edges.all fun f => f == ⟨v, v⟩ || !f.touches v
  | .keep => true

/-- The copies left of `n` copies of a degenerate edge that is kept. -/
def degenerateCopies (o : Options) (n : Nat) : Nat :=
  if n = 0 then 0
  else if o.duplicates = .merge ∨ o.degenerates = .discardExcess then
    if o.isUndirected ∧ ¬o.siblings.pairsUp then 2 else 1
  else if o.isUndirected ∧ o.siblings.pairsUp then n / 2 else n

/-- The copies of an edge that cleaning leaves of a multiset of edges. -/
def copiesLeft (o : Options) (edges : List Edge) (e : Edge) : Nat :=
  if e.isDegenerate then
    if o.keepsDegenerates edges e.origin then o.degenerateCopies (edges.count e) else 0
  else o.properCopies (edges.count e) (edges.count e.reverse)

theorem count_planProper (o : Options) {n m : Nat} (h : 0 < n + m) :
    (o.planProper n m).count n = o.properCopies n m := by
  unfold planProper properCopies capped
  cases o.siblings with
  | keep =>
      by_cases hm : o.duplicates = .merge
      · by_cases hn : 1 < n
        · simp [hm, hn, Plan.count]
          omega
        · simp [hm, hn, Plan.count]
          omega
      · simp [hm, Plan.count]
  | discard =>
      by_cases hu : o.isUndirected
      · rcases Nat.mod_two_eq_zero_or_one n with hn | hn <;> simp [hu, hn, Plan.count]
      · by_cases hnm : n ≤ m
        · simp [hu, hnm, Plan.count]
        · by_cases hm : o.duplicates = .merge
          · simp [hu, hnm, hm, Plan.count]
            omega
          · simp [hu, hnm, hm, Plan.count]
  | require | create =>
      by_cases hm : o.duplicates = .merge
      · simp [hm, h, Plan.count]
      · by_cases hu : o.isUndirected
        · simp [hm, hu, Plan.count]
        · simp [hm, hu, Plan.count]
          omega

/-- The plan for a degenerate edge fails only for an odd number of undirected copies that have to be
paired up. -/
theorem exists_planDegenerate (o : Options) {edges : List Edge} {v : Int} {alone : Bool} {n : Nat}
    (hn : 0 < n) (halone : o.degenerates = .discardExcess → alone = o.keepsDegenerates edges v)
    (heven : o.isUndirected → o.siblings.pairsUp → o.keepsDegenerates edges v → n % 2 = 0) :
    ∃ plan, o.planDegenerate alone n = .ok plan ∧
      plan.count n = if o.keepsDegenerates edges v then o.degenerateCopies n else 0 := by
  have hn : n ≠ 0 := Nat.ne_of_gt hn
  by_cases hkeep : o.keepsDegenerates edges v
  · have hkept : ¬(o.degenerates = .discard || o.degenerates = .discardExcess && !alone) := by
      cases hd : o.degenerates with
      | discard => simp [keepsDegenerates, hd] at hkeep
      | discardExcess => simp [halone hd, hkeep]
      | keep => simp
    unfold planDegenerate degenerateCopies
    rw [if_neg hkept, if_pos hkeep, if_neg hn]
    by_cases hpaired : o.isUndirected && o.siblings.pairsUp
    · rw [if_pos hpaired]
      rw [Bool.and_eq_true] at hpaired
      rw [if_pos (heven hpaired.1 hpaired.2 hkeep)]
      by_cases hunited : o.duplicates = .merge ∨ o.degenerates = .discardExcess <;>
        simp [hunited, hpaired, Plan.count]
    · rw [if_neg hpaired]
      rw [Bool.and_eq_true] at hpaired
      by_cases hunited : o.duplicates = .merge ∨ o.degenerates = .discardExcess
      · by_cases hu : o.isUndirected <;> simp_all [Plan.count]
      · rw [if_neg hunited, if_neg hpaired]
        by_cases hs : o.siblings = .discard <;> simp [hunited, hs, Plan.count]
  · refine ⟨.drop, ?_, by simp [hkeep, Plan.count]⟩
    unfold planDegenerate
    rw [if_pos]
    cases hd : o.degenerates with
    | discard => simp
    | discardExcess => simp [halone hd, hkeep]
    | keep => simp [keepsDegenerates, hd] at hkeep

theorem copiesLeft_eq_zero (o : Options) {edges : List Edge} {e : Edge} (he : e ∉ edges)
    (he' : e.reverse ∉ edges) : o.copiesLeft edges e = 0 := by
  unfold copiesLeft
  rw [List.count_eq_zero_of_not_mem he, List.count_eq_zero_of_not_mem he']
  split
  · simp [degenerateCopies]
  · unfold properCopies capped
    split <;> simp

end Options

/-! ### Bundles as cleaning sees them -/

theorem cleaningBundles_eq {rows : List Row} (hr : reservedEdge ∉ rows.map Tagged.edge) :
    cleaningBundles rows = (Star.ofBundles (Bundle.ofTagged rows)).flatMap Star.marked := by
  have hrows : (rows.filter fun t => t.edge ≠ reservedEdge) = rows := by
    refine List.filter_eq_self.2 fun t ht => ?_
    exact decide_eq_true fun h => hr (h ▸ List.mem_map_of_mem ht)
  rw [cleaningBundles, hrows]

theorem map_snd_cleaningBundles {rows : List Row} (hr : reservedEdge ∉ rows.map Tagged.edge) :
    (cleaningBundles rows).map Prod.snd = Bundle.ofTagged rows := by
  rw [cleaningBundles_eq hr, List.map_flatMap]
  conv_rhs => rw [← Star.flatMap_bundles_ofBundles (Bundle.ofTagged rows)]
  refine congrArg (List.flatMap · _) (funext fun s => ?_)
  simp [Star.marked]

theorem mem_ofTagged_of_mem_cleaningBundles {rows : List Row}
    (hr : reservedEdge ∉ rows.map Tagged.edge) {alone : Bool} {b : Bundle Int}
    (h : (alone, b) ∈ cleaningBundles rows) : b ∈ Bundle.ofTagged rows :=
  map_snd_cleaningBundles hr ▸ List.mem_map_of_mem (f := Prod.snd) h

theorem length_eq_one_iff_of_mem {bs : List (Bundle Int)} (hlt : bs.Pairwise (·.edge < ·.edge))
    {b : Bundle Int} (hb : b ∈ bs) : bs.length = 1 ↔ ∀ c ∈ bs, c.edge = b.edge := by
  constructor
  · intro h c hc
    obtain ⟨d, rfl⟩ := List.length_eq_one_iff.1 h
    rw [List.mem_singleton.1 hb, List.mem_singleton.1 hc]
  · intro h
    rw [← List.filter_eq_self.2 fun c hc => beq_iff_eq.2 (h c hc),
      Bundle.filter_edge_eq_singleton hlt hb, List.length_singleton]

/-- A bundle is marked as alone exactly if no other bundle leaves its vertex. -/
theorem alone_iff_of_mem {rows : List Row} (hr : reservedEdge ∉ rows.map Tagged.edge)
    {alone : Bool} {b : Bundle Int} (h : (alone, b) ∈ cleaningBundles rows) :
    alone = true ↔
      ∀ c ∈ Bundle.ofTagged rows, c.edge.origin = b.edge.origin → c.edge = b.edge := by
  have hlt := Bundle.pairwise_ofTagged rows
  have horigin : (Bundle.ofTagged rows).Pairwise (·.edge.origin ≤ ·.edge.origin) := by
    apply hlt.imp
    intro _ _ hab
    rw [Edge.lt_def] at hab
    omega
  rw [cleaningBundles_eq hr] at h
  obtain ⟨s, hs, h⟩ := List.mem_flatMap.1 h
  obtain ⟨c, hc, heq⟩ := List.mem_map.1 h
  obtain ⟨rfl, rfl⟩ := Prod.mk.inj heq
  have hcenter := (Star.bundles_of_mem_ofBundles hs).2 c hc
  have hbundles := Star.bundles_eq_filter horigin hs
  rw [hbundles] at hc
  rw [beq_iff_eq, hbundles, length_eq_one_iff_of_mem (hlt.sublist List.filter_sublist) hc, hcenter]
  simp only [List.mem_filter, beq_iff_eq, and_imp]

/-- A degenerate edge is alone exactly if no other edge touches its vertex. -/
theorem alone_eq_all {rows : List Row} (hr : reservedEdge ∉ rows.map Tagged.edge)
    {alone : Bool} {b : Bundle Int} (h : (alone, b) ∈ cleaningBundles rows)
    (hdeg : b.edge.isDegenerate) :
    alone = (rows.map Tagged.edge).all fun f =>
      f == ⟨b.edge.origin, b.edge.origin⟩ || !f.touches b.edge.origin := by
  have hloop : (⟨b.edge.origin, b.edge.origin⟩ : Edge) = b.edge :=
    Edge.ext_iff'.2 ⟨rfl, Edge.isDegenerate_iff.1 hdeg⟩
  rw [Bool.eq_iff_iff, alone_iff_of_mem hr h, List.all_eq_true, hloop]
  simp only [Bool.or_eq_true, beq_iff_eq, Bool.not_eq_true', List.mem_map,
    forall_exists_index, and_imp, forall_apply_eq_imp_iff₂]
  constructor
  · intro hall t ht
    by_contra hcon
    rw [not_or, Bool.not_eq_false] at hcon
    have htouch : t.edge.origin = b.edge.origin ∨ t.edge.dest = b.edge.origin := by
      simpa [Edge.touches] using hcon.2
    rcases htouch with horigin | hdest
    · obtain ⟨c, hc, hct⟩ := Bundle.exists_mem_ofTagged_iff.2 ⟨t, ht, .inl rfl⟩
      exact hcon.1 (hct ▸ hall c hc (hct ▸ horigin))
    · obtain ⟨c, hc, hct⟩ := Bundle.exists_mem_ofTagged_iff.2 ⟨t, ht, .inr rfl⟩
      have hcb : t.edge.reverse = b.edge := hct ▸ hall c hc (hct ▸ hdest)
      rw [← Edge.reverse_eq_self_iff, ← hcb, Edge.reverse_inj] at hdeg
      exact hcon.1 (hdeg ▸ hcb)
  · intro hall c hc horigin
    obtain ⟨t, ht, htc⟩ := Bundle.exists_mem_ofTagged_iff.1 ⟨c, hc, rfl⟩
    rcases htc with htc | htc
    · rcases hall t ht with heq | htouch
      · rw [← htc, heq]
      · simp [Edge.touches, htc, horigin] at htouch
    · rcases hall t ht with heq | htouch
      · rw [← htc, heq, Edge.reverse_eq_self_iff.2 hdeg]
      · have hdest : t.edge.dest = b.edge.origin := by
          rw [← horigin, ← htc, Edge.reverse_origin]
        simp [Edge.touches, hdest] at htouch

/-! ### Realizing the plans -/

theorem length_forward_ofTagged {rows : List Row} {b : Bundle Int} (hb : b ∈ Bundle.ofTagged rows) :
    b.forward.length = (rows.map Tagged.edge).count b.edge := by
  rw [Bundle.forward_of_mem_ofTagged hb, List.length_map, List.count, List.countP_map,
    List.countP_eq_length_filter]
  rfl

theorem length_backward_ofTagged {rows : List Row} {b : Bundle Int} (hb : b ∈ Bundle.ofTagged rows) :
    b.backward.length = (rows.map Tagged.edge).count b.edge.reverse := by
  rw [Bundle.backward_of_mem_ofTagged hb, List.length_map, List.count, List.countP_map,
    List.countP_eq_length_filter]
  rfl

theorem mem_edges_of_mem_ofTagged {rows : List Row} {b : Bundle Int}
    (hb : b ∈ Bundle.ofTagged rows) :
    b.edge ∈ rows.map Tagged.edge ∨ b.edge.reverse ∈ rows.map Tagged.edge := by
  obtain ⟨t, ht, h | h⟩ := Bundle.exists_mem_ofTagged_iff.1 ⟨b, hb, rfl⟩
  · exact .inl (h ▸ List.mem_map_of_mem ht)
  · rw [← h, Edge.reverse_reverse]
    exact .inr (List.mem_map_of_mem ht)

theorem not_mem_edges_of_forall_ne {rows : List Row} {e : Edge}
    (h : ∀ b ∈ Bundle.ofTagged rows, b.edge ≠ e) :
    e ∉ rows.map Tagged.edge ∧ e.reverse ∉ rows.map Tagged.edge := by
  have hnone : ∀ t ∈ rows, ¬(t.edge = e ∨ t.edge.reverse = e) := by
    intro t ht hte
    obtain ⟨b, hb, hbe⟩ := Bundle.exists_mem_ofTagged_iff.2 ⟨t, ht, hte⟩
    exact h b hb hbe
  constructor
  · intro hmem
    obtain ⟨t, ht, rfl⟩ := List.mem_map.1 hmem
    exact hnone t ht (.inl rfl)
  · intro hmem
    obtain ⟨t, ht, hte⟩ := List.mem_map.1 hmem
    exact hnone t ht (.inr (by rw [hte, Edge.reverse_reverse]))

theorem knows_of_mem_forward {rows : List Row} {sets : IdSets}
    (hknown : ∀ t ∈ rows, sets.Knows t.item) {b : Bundle Int} (hb : b ∈ Bundle.ofTagged rows) :
    ∀ handle ∈ b.forward, sets.Knows handle := by
  intro handle hhandle
  rw [Bundle.forward_of_mem_ofTagged hb] at hhandle
  obtain ⟨t, ht, rfl⟩ := List.mem_map.1 hhandle
  exact hknown t (List.mem_of_mem_filter ht)

/-- The plan for a bundle leaves the promised number of copies. -/
theorem exists_plan (o : Options) {rows : List Row} (hr : reservedEdge ∉ rows.map Tagged.edge)
    (heven : o.isUndirected → o.siblings.pairsUp → ∀ v,
      o.keepsDegenerates (rows.map Tagged.edge) v → (rows.map Tagged.edge).count ⟨v, v⟩ % 2 = 0)
    {alone : Bool} {b : Bundle Int} (h : (alone, b) ∈ cleaningBundles rows) :
    ∃ plan, b.plan o alone = .ok plan ∧
      plan.count b.forward.length = o.copiesLeft (rows.map Tagged.edge) b.edge := by
  have hb := mem_ofTagged_of_mem_cleaningBundles hr h
  have hmem := mem_edges_of_mem_ofTagged hb
  rw [length_forward_ofTagged hb]
  unfold Bundle.plan Options.copiesLeft
  rw [length_forward_ofTagged hb, length_backward_ofTagged hb]
  by_cases hdeg : b.edge.isDegenerate
  · rw [if_pos hdeg, if_pos hdeg]
    rw [Edge.reverse_eq_self_iff.2 hdeg, or_self] at hmem
    refine o.exists_planDegenerate (List.count_pos_iff.2 hmem) (fun hd => ?_) fun hu hs hkeep => ?_
    · rw [alone_eq_all hr h hdeg, Options.keepsDegenerates, hd]
    · have hloop : (⟨b.edge.origin, b.edge.origin⟩ : Edge) = b.edge :=
        Edge.ext_iff'.2 ⟨rfl, Edge.isDegenerate_iff.1 hdeg⟩
      exact hloop ▸ heven hu hs b.edge.origin hkeep
  · rw [if_neg hdeg, if_neg hdeg]
    refine ⟨_, rfl, o.count_planProper ?_⟩
    rcases hmem with hmem | hmem
    · have := List.count_pos_iff.2 hmem
      omega
    · have := List.count_pos_iff.2 hmem
      omega

theorem exists_realize {sets : IdSets} (hs : sets.WellFormed) {b : Bundle Int}
    (hk : ∀ handle ∈ b.forward, sets.Knows handle) (plan : Plan) :
    ∃ rows sets', b.realize sets plan = .ok (rows, sets') ∧
      rows.map Tagged.edge = List.replicate (plan.count b.forward.length) b.edge ∧
      sets'.WellFormed ∧ sets.Extends sets' := by
  cases plan with
  | drop => exact ⟨[], sets, rfl, rfl, hs, IdSets.Extends.refl sets⟩
  | copy created =>
      refine ⟨_, sets, rfl, ?_, hs, IdSets.Extends.refl sets⟩
      simp [Plan.count, Function.comp_def]
  | unite count =>
      obtain ⟨handle, sets', hunite, hs', hext, -⟩ := hs.exists_unite hk
      refine ⟨List.replicate count ⟨b.edge, handle⟩, sets', ?_, by simp [Plan.count], hs', hext⟩
      rw [Bundle.realize, hunite]
      rfl

/-- What bundles become, each the rows that its plan makes of it, while sets are only added. -/
structure Realized (o : Options) (copies : Edge → Nat) (sets : IdSets)
    (bundles : List (Bool × Bundle Int)) (kept : List Row) (after : IdSets) : Prop where
  edges : kept.map Tagged.edge =
    ((bundles.map Prod.snd).map Bundle.edge).flatMap fun e => List.replicate (copies e) e
  wellFormed : after.WellFormed
  keeps : sets.Extends after
  rows : ∀ x ∈ bundles, ∃ plan before mid, x.2.plan o x.1 = .ok plan ∧ before.WellFormed ∧
    sets.Extends before ∧ mid.Extends after ∧
    x.2.realize before plan = .ok (kept.filter fun t => t.edge == x.2.edge, mid)

theorem Realized.exists_bundle {o : Options} {copies : Edge → Nat} {sets after : IdSets}
    {bundles : List (Bool × Bundle Int)} {kept : List Row}
    (h : Realized o copies sets bundles kept after) {t : Row} (ht : t ∈ kept) :
    ∃ x ∈ bundles, x.2.edge = t.edge := by
  have hedge : t.edge ∈ kept.map Tagged.edge := List.mem_map_of_mem ht
  rw [h.edges, List.map_map] at hedge
  obtain ⟨e, he, hmem⟩ := List.mem_flatMap.1 hedge
  obtain ⟨x, hx, rfl⟩ := List.mem_map.1 he
  exact ⟨x, hx, (List.eq_of_mem_replicate hmem).symm⟩

/-- A bundle in front of others with other edges. -/
theorem Realized.cons {o : Options} {copies : Edge → Nat} {sets mid after : IdSets} {alone : Bool}
    {b : Bundle Int} {plan : Plan} {rows kept : List Row} {bundles : List (Bool × Bundle Int)}
    (hs : sets.WellFormed) (hplan : b.plan o alone = .ok plan)
    (hrealize : b.realize sets plan = .ok (rows, mid)) (hmid : sets.Extends mid)
    (hrows : rows.map Tagged.edge = List.replicate (copies b.edge) b.edge)
    (hne : ∀ x ∈ bundles, b.edge ≠ x.2.edge) (h : Realized o copies mid bundles kept after) :
    Realized o copies sets ((alone, b) :: bundles) (rows ++ kept) after := by
  have hedge : ∀ t ∈ rows, t.edge = b.edge := fun t ht =>
    List.eq_of_mem_replicate (hrows ▸ List.mem_map_of_mem ht)
  refine ⟨?_, h.wellFormed, hmid.trans h.keeps, List.forall_mem_cons.2 ⟨?_, fun x hx => ?_⟩⟩
  · rw [List.map_append, hrows, h.edges]
    rfl
  · refine ⟨plan, sets, mid, hplan, hs, .refl sets, h.keeps, ?_⟩
    rw [List.filter_append, List.filter_eq_self.2 fun t ht => beq_iff_eq.2 (hedge t ht),
      List.filter_eq_nil_iff.2 fun t ht heq => ?_, List.append_nil, hrealize]
    obtain ⟨x, hx, hxt⟩ := h.exists_bundle ht
    exact hne x hx ((beq_iff_eq.1 heq).symm.trans hxt.symm)
  · obtain ⟨plan, before, mid', hplan, hbefore, hext, hafter, hrealize⟩ := h.rows x hx
    refine ⟨plan, before, mid', hplan, hbefore, hmid.trans hext, hafter, ?_⟩
    rw [List.filter_append, List.filter_eq_nil_iff.2 fun t ht heq => ?_, List.nil_append, hrealize]
    exact hne x hx ((hedge t ht).symm.trans (beq_iff_eq.1 heq))

theorem exists_realizeAll (o : Options) (copies : Edge → Nat) {bundles : List (Bool × Bundle Int)}
    {sets : IdSets} (hs : sets.WellFormed) (hne : bundles.Pairwise fun x y => x.2.edge ≠ y.2.edge)
    (hk : ∀ x ∈ bundles, ∀ handle ∈ x.2.forward, sets.Knows handle)
    (hplan : ∀ x ∈ bundles, ∃ plan, x.2.plan o x.1 = .ok plan ∧
      plan.count x.2.forward.length = copies x.2.edge) :
    ∃ kept after, realizeAll o sets bundles = .ok (kept, after) ∧
      Realized o copies sets bundles kept after := by
  induction bundles generalizing sets with
  | nil => exact ⟨[], sets, rfl, rfl, hs, .refl sets, by simp⟩
  | cons x bundles ih =>
      obtain ⟨alone, b⟩ := x
      obtain ⟨hb, hne⟩ := List.pairwise_cons.1 hne
      obtain ⟨hkb, hk⟩ := List.forall_mem_cons.1 hk
      obtain ⟨⟨plan, hplanb, hcount⟩, hplan⟩ := List.forall_mem_cons.1 hplan
      obtain ⟨rows, mid, hrows, hedges, hmid, hext⟩ := exists_realize hs hkb plan
      obtain ⟨kept, after, hkept, hrealized⟩ := ih hmid hne
        (fun y hy handle hh => hext.knows (hk y hy handle hh)) hplan
      refine ⟨rows ++ kept, after, ?_, .cons hs hplanb hrows hext (hcount ▸ hedges) hb hrealized⟩
      rw [realizeAll, hplanb]
      show (b.realize sets plan >>= _) = _
      rw [hrows]
      show (realizeAll o mid bundles >>= _) = _
      rw [hkept]
      rfl

/-! ### The cleaned table -/

theorem pairwise_flatMap_replicate (copies : Edge → Nat) {es : List Edge} (hes : es.Pairwise (· < ·)) :
    (es.flatMap fun e => List.replicate (copies e) e).Pairwise (· ≤ ·) := by
  refine List.pairwise_flatMap.2 ⟨fun e _ => ?_, hes.imp fun hlt a ha b hb => ?_⟩
  · exact List.pairwise_replicate.2 (.inr (Edge.le_refl e))
  · rw [List.eq_of_mem_replicate ha, List.eq_of_mem_replicate hb]
    exact (Edge.lt_iff_le_and_ne.1 hlt).1

theorem count_flatMap_replicate (copies : Edge → Nat) {es : List Edge} (hes : es.Nodup) (e : Edge) :
    (es.flatMap fun e => List.replicate (copies e) e).count e = if e ∈ es then copies e else 0 := by
  induction es with
  | nil => rfl
  | cons f es ih =>
      obtain ⟨hf, hes⟩ := List.nodup_cons.1 hes
      rw [List.flatMap_cons, List.count_append, ih hes, List.count_replicate]
      by_cases hef : f = e
      · subst hef
        simp [hf]
      · simp [hef, Ne.symm hef]

/-- What cleaning makes of a table under the options: a sorted table with the promised number of
copies of every edge. -/
structure IsCleaned (o : Options) (sets : IdSets) (rows : List Row) (c : Cleaned) : Prop where
  options : c.options = o.afterCleaning
  sorted : c.rows.Pairwise (·.edge ≤ ·.edge)
  count : ∀ e, (c.rows.map Tagged.edge).count e = o.copiesLeft (rows.map Tagged.edge) e
  realized : Realized o (o.copiesLeft (rows.map Tagged.edge)) sets (cleaningBundles rows) c.rows
    c.sets

/-- Cleaning succeeds where the sets of input ids are known, and degenerate edges that must be paired
up can be. -/
theorem exists_isCleaned (o : Options) {rows : List Row} {sets : IdSets} (hsets : sets.WellFormed)
    (hr : reservedEdge ∉ rows.map Tagged.edge) (hknown : ∀ t ∈ rows, sets.Knows t.item)
    (heven : o.isUndirected → o.siblings.pairsUp → ∀ v,
      o.keepsDegenerates (rows.map Tagged.edge) v → (rows.map Tagged.edge).count ⟨v, v⟩ % 2 = 0) :
    ∃ c, clean o rows sets = .ok c ∧ IsCleaned o sets rows c := by
  have hbundles := map_snd_cleaningBundles hr
  have hforward : ∀ x ∈ cleaningBundles rows, ∀ handle ∈ x.2.forward, sets.Knows handle :=
    fun x hx => knows_of_mem_forward hknown (mem_ofTagged_of_mem_cleaningBundles hr hx)
  have hlt : ((Bundle.ofTagged rows).map Bundle.edge).Pairwise (· < ·) :=
    List.pairwise_map.2 (Bundle.pairwise_ofTagged rows)
  have hne : ((Bundle.ofTagged rows).map Bundle.edge).Pairwise (· ≠ ·) :=
    hlt.imp fun h => (Edge.lt_iff_le_and_ne.1 h).2
  have hdistinct : (cleaningBundles rows).Pairwise fun x y => x.2.edge ≠ y.2.edge := by
    rw [← hbundles, List.map_map] at hne
    exact List.pairwise_map.1 hne
  obtain ⟨kept, after, hkept, hrealized⟩ := exists_realizeAll o
    (o.copiesLeft (rows.map Tagged.edge)) hsets hdistinct hforward
    fun x hx => exists_plan o hr heven hx
  have hedges := hrealized.edges
  rw [hbundles] at hedges
  refine ⟨_, by rw [clean, hkept]; rfl, rfl, ?_, fun e => ?_, hrealized⟩
  · have hsorted : (kept.map Tagged.edge).Pairwise (· ≤ ·) :=
      hedges ▸ pairwise_flatMap_replicate _ hlt
    exact List.pairwise_map.1 hsorted
  · show (kept.map Tagged.edge).count e = _
    rw [hedges, count_flatMap_replicate _ hne]
    split
    · rfl
    · rename_i he
      obtain ⟨hforward, hbackward⟩ := not_mem_edges_of_forall_ne fun b hb hbe =>
        he (List.mem_map.2 ⟨b, hb, hbe⟩)
      exact (o.copiesLeft_eq_zero hforward hbackward).symm

theorem zipRows_map (rows : List Row) :
    zipRows (rows.map Tagged.edge) (rows.map Tagged.item) = .ok rows := by
  rw [zipRows, if_pos (by rw [List.length_map, List.length_map]), List.zipWith_map,
    List.zipWith_self]
  exact congrArg _ (List.map_id rows)

theorem exists_zipRows {edges : List Edge} {handles : List Int}
    (h : edges.length = handles.length) :
    ∃ rows, zipRows edges handles = .ok rows ∧ rows.map Tagged.edge = edges ∧
      rows.map Tagged.item = handles := by
  refine ⟨_, if_pos h, ?_, ?_⟩
  · rw [← List.map_uncurry_zip_eq_zipWith, List.map_map]
    exact List.map_fst_zip h.le
  · rw [← List.map_uncurry_zip_eq_zipWith, List.map_map]
    exact List.map_snd_zip h.ge

/-! ### Room for ids -/

theorem size_realize_le {b : Bundle Int} {sets after : IdSets} {plan : Plan} {rows : List Row}
    (h : b.realize sets plan = .ok (rows, after)) :
    2 * after.large.size ≤ 2 * sets.large.size + b.forward.length := by
  cases plan with
  | drop =>
      cases h
      exact Nat.le_add_right _ _
  | copy created =>
      cases h
      exact Nat.le_add_right _ _
  | unite count =>
      obtain ⟨⟨handle, after'⟩, hunite, hrows⟩ := bind_eq_ok_iff.1 h
      cases hrows
      exact IdSets.size_unite_le hunite

/-- At most half as many sets are stored as there are copies. -/
theorem size_realizeAll_le {o : Options} {bundles : List (Bool × Bundle Int)} {sets after : IdSets}
    {rows : List Row} (h : realizeAll o sets bundles = .ok (rows, after)) :
    2 * after.large.size ≤
      2 * sets.large.size + ((bundles.map Prod.snd).flatMap Bundle.rows).length := by
  induction bundles generalizing sets rows with
  | nil =>
      cases h
      exact Nat.le_refl _
  | cons x bundles ih =>
      obtain ⟨plan, -, h⟩ := bind_eq_ok_iff.1 h
      obtain ⟨⟨kept, mid⟩, hrealize, h⟩ := bind_eq_ok_iff.1 h
      obtain ⟨⟨others, last⟩, hothers, h⟩ := bind_eq_ok_iff.1 h
      cases h
      have hfirst := size_realize_le hrealize
      have hrest := ih hothers
      rw [List.map_cons, List.flatMap_cons, List.length_append, Bundle.rows, List.length_map]
      omega

theorem size_clean_le {o : Options} {rows : List Row} {sets : IdSets} {c : Cleaned}
    (hr : reservedEdge ∉ rows.map Tagged.edge) (h : clean o rows sets = .ok c) :
    2 * c.sets.large.size ≤ 2 * sets.large.size + rows.length := by
  obtain ⟨⟨kept, after⟩, hrealize, hc⟩ := bind_eq_ok_iff.1 h
  cases hc
  have hsize := size_realizeAll_le hrealize
  rw [map_snd_cleaningBundles hr, Bundle.ofTagged, Bundle.flatMap_rows_merge, Bundle.sortByEdge,
    List.length_mergeSort] at hsize
  exact hsize

/-- Of an edge no more copies are left than there were of it and its reverse. -/
theorem Options.copiesLeft_le (o : Options) (edges : List Edge) (e : Edge) :
    o.copiesLeft edges e ≤ edges.count e + edges.count e.reverse := by
  unfold copiesLeft
  split
  · rename_i hdegenerate
    rw [Edge.reverse_eq_self_iff.2 hdegenerate]
    unfold degenerateCopies
    split_ifs <;> omega
  · unfold properCopies capped
    cases o.siblings with
    | keep => dsimp only; split <;> omega
    | discard => dsimp only; split_ifs <;> omega
    | require | create => dsimp only; split_ifs <;> omega

/-- So a table at most doubles. -/
theorem IsCleaned.length_le {o : Options} {sets : IdSets} {rows : List Row} {c : Cleaned}
    (h : IsCleaned o sets rows c) : c.rows.length ≤ 2 * rows.length := by
  have hsubperm : (c.rows.map Tagged.edge).Subperm
      (rows.map Tagged.edge ++ (rows.map Tagged.edge).map Edge.reverse) := by
    refine List.subperm_ext_iff.2 fun e _ => ?_
    rw [h.count, List.count_append, Edge.count_map_reverse]
    exact o.copiesLeft_le _ e
  have hlength := hsubperm.length_le
  simp only [List.length_append, List.length_map] at hlength
  omega

/-- Edge ids and handles are 32-bit integers. This says that there are enough of them. -/
structure Cleaned.Fits (c : Cleaned) : Prop where
  rows_lt : c.rows.length < 2 ^ 31
  sets : c.sets.Fits

theorem IsCleaned.fits {o : Options} {sets : IdSets} {rows : List Row} {c : Cleaned}
    (hr : reservedEdge ∉ rows.map Tagged.edge) (hclean : clean o rows sets = .ok c)
    (h : IsCleaned o sets rows c) (hrows : rows.length < 2 ^ 30)
    (hsets : 2 * sets.large.size + rows.length < 2 ^ 32) : c.Fits := by
  have hlength := h.length_le
  have hsize := size_clean_le hr hclean
  exact ⟨by omega, ⟨by omega⟩⟩

/-- Cleaning never fails on known sets of input ids, and of every edge it leaves the promised number
of copies, in a sorted table with one set of input ids for each edge. There are enough 32-bit ids for
what is left of a table of fewer than `2 ^ 30` edges, unless too many sets had been stored before. -/
theorem exists_clean_copiesLeft (o : Options) {edges : List Edge} {handles : List Int}
    {sets : IdSets} (hsets : sets.Built) (hlen : edges.length = handles.length)
    (hreserved : reservedEdge ∉ edges) (hknown : ∀ handle ∈ handles, sets.Knows handle)
    (heven : o.isUndirected → o.siblings.pairsUp → ∀ v, o.keepsDegenerates edges v →
      edges.count ⟨v, v⟩ % 2 = 0) :
    ∃ rows c, zipRows edges handles = .ok rows ∧ clean o rows sets = .ok c ∧
      (c.rows.map Tagged.edge).Pairwise (· ≤ ·) ∧
      (c.rows.map Tagged.edge).length = (c.rows.map Tagged.item).length ∧
      (∀ e, (c.rows.map Tagged.edge).count e = o.copiesLeft edges e) ∧
      (edges.length < 2 ^ 30 → 2 * sets.large.size + edges.length < 2 ^ 32 → c.Fits) := by
  obtain ⟨rows, hzip, rfl, rfl⟩ := exists_zipRows hlen
  obtain ⟨c, hclean, hcleaned⟩ := exists_isCleaned o hsets.wellFormed hreserved
    (fun t ht => hknown _ (List.mem_map_of_mem ht)) heven
  refine ⟨rows, c, hzip, hclean, List.pairwise_map.2 hcleaned.sorted, ?_, hcleaned.count, ?_⟩
  · rw [List.length_map, List.length_map]
  · rw [List.length_map]
    exact hcleaned.fits hreserved hclean

theorem clean_copiesLeft_undirected_pairs :
    ∃ rows c,
      zipRows [⟨0, 1⟩, ⟨1, 0⟩, ⟨2, 2⟩, ⟨2, 2⟩] [0, IdSets.emptyId, 1, IdSets.emptyId] = .ok rows ∧
        clean { edgeType := .undirected, siblings := .create } rows .empty = .ok c ∧
        (c.rows.map Tagged.edge).count ⟨0, 1⟩ = 1 ∧ (c.rows.map Tagged.edge).count ⟨1, 0⟩ = 1 ∧
        (c.rows.map Tagged.edge).count ⟨2, 2⟩ = 1 := by
  have hknown : ∀ handle ∈ [0, IdSets.emptyId, 1, IdSets.emptyId], IdSets.empty.Knows handle := by
    intro handle hhandle
    simp only [List.mem_cons, List.not_mem_nil, or_false] at hhandle
    rcases hhandle with rfl | rfl | rfl | rfl
    all_goals exact ⟨_, rfl⟩
  have heven : ∀ v : Int,
      ([⟨0, 1⟩, ⟨1, 0⟩, ⟨2, 2⟩, ⟨2, 2⟩] : List Edge).count ⟨v, v⟩ % 2 = 0 := by
    intro v
    by_cases hv : v = 2
    · subst hv
      rfl
    · have hnone : ([⟨0, 1⟩, ⟨1, 0⟩, ⟨2, 2⟩, ⟨2, 2⟩] : List Edge).count ⟨v, v⟩ = 0 := by
        rw [List.count_eq_zero]
        simp [hv]
        omega
      rw [hnone]
  obtain ⟨rows, c, hzip, hclean, -, -, hcount, -⟩ := exists_clean_copiesLeft
    { edgeType := .undirected, siblings := .create } .empty rfl (by decide) hknown
    fun _ _ v _ => heven v
  exact ⟨rows, c, hzip, hclean, (hcount _).trans (by decide), (hcount _).trans (by decide),
    (hcount _).trans (by decide)⟩

end SnapGraph
