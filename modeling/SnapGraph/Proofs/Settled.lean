import Mathlib
import SnapGraph.Proofs.Cleaning
import SnapGraph.Proofs.Star

/-! Cleaning a table that has just been cleaned changes nothing. The first run may turn undirected
options into directed ones, and then the second run takes other branches; but the numbers of copies
that the first run leaves are a fixed point of these branches, and where copies are united again,
they were united before, so they already share one set of input ids. -/

namespace SnapGraph

namespace Options

/-! ### Options after a run -/

theorem isUndirected_afterCleaning (o : Options) :
    o.afterCleaning.isUndirected = (o.isUndirected && !o.siblings.pairsUp) := by
  unfold afterCleaning
  split
  · rename_i h
    rw [h]
    simp [isUndirected]
  · rename_i h
    rw [Bool.not_eq_true] at h
    simp [h]

@[simp] theorem siblings_afterCleaning (o : Options) : o.afterCleaning.siblings = o.siblings := by
  unfold afterCleaning
  split <;> rfl

@[simp] theorem duplicates_afterCleaning (o : Options) :
    o.afterCleaning.duplicates = o.duplicates := by
  unfold afterCleaning
  split <;> rfl

@[simp] theorem degenerates_afterCleaning (o : Options) :
    o.afterCleaning.degenerates = o.degenerates := by
  unfold afterCleaning
  split <;> rfl

theorem keepsDegenerates_afterCleaning (o : Options) (edges : List Edge) (v : Int) :
    o.afterCleaning.keepsDegenerates edges v = o.keepsDegenerates edges v := by
  unfold keepsDegenerates
  rw [degenerates_afterCleaning]

/-! ### Copies left again -/

/-- Where edges are paired up, as many copies of an edge are left as of its reverse. -/
theorem properCopies_comm {o : Options} (hsiblings : o.siblings.pairsUp) {n m : Nat}
    (hpaired : o.isUndirected → n = m) : o.properCopies n m = o.properCopies m n := by
  unfold properCopies
  cases hs : o.siblings with
  | keep | discard => simp [hs, SiblingPolicy.pairsUp] at hsiblings
  | require | create =>
      by_cases hu : o.isUndirected
      · rw [hpaired hu]
      · simp [hu, Nat.add_comm n m, Nat.max_comm n m]

/-- The copies that are left of an edge and its reverse are left again. -/
theorem properCopies_properCopies (o : Options) {n m : Nat} (hpaired : o.isUndirected → n = m) :
    o.afterCleaning.properCopies (o.properCopies n m) (o.properCopies m n) =
      o.properCopies n m := by
  have hu := o.isUndirected_afterCleaning
  unfold properCopies capped
  simp only [hu, siblings_afterCleaning, duplicates_afterCleaning]
  cases o.siblings with
  | keep =>
      by_cases hm : o.duplicates = .merge
      · simp [hm]
      · simp [hm]
  | discard =>
      by_cases hu : o.isUndirected
      · simp [hu, SiblingPolicy.pairsUp]
      · by_cases hm : o.duplicates = .merge
        · simp [hm, hu]
          omega
        · simp [hm, hu]
          omega
  | require | create =>
      by_cases hm : o.duplicates = .merge
      · by_cases hnone : 0 < n + m
        · simp [hm, hnone]
        · simp [hm, hnone, Nat.add_comm m n]
      · by_cases hu : o.isUndirected
        · simp [hm, hu, hpaired hu, SiblingPolicy.pairsUp]
        · simp [hm, hu]
          omega

/-- So are the copies of a degenerate edge. -/
theorem degenerateCopies_degenerateCopies (o : Options) (n : Nat) :
    o.afterCleaning.degenerateCopies (o.degenerateCopies n) = o.degenerateCopies n := by
  have hu := o.isUndirected_afterCleaning
  unfold degenerateCopies
  simp only [hu, siblings_afterCleaning, duplicates_afterCleaning, degenerates_afterCleaning]
  by_cases hn : n = 0
  · simp [hn]
  · by_cases hunited : o.duplicates = .merge ∨ o.degenerates = .discardExcess
    · by_cases hpair : o.isUndirected ∧ o.siblings.pairsUp = false
      · simp [hn, hunited, hpair]
      · simp [hn, hunited, hpair]
    · by_cases hpair : o.isUndirected ∧ o.siblings.pairsUp
      · simp [hunited, hpair]
        omega
      · have hpair' : ¬((o.isUndirected ∧ o.siblings.pairsUp = false) ∧ o.siblings.pairsUp) := by
          simp_all
        simp [hn, hunited, hpair, hpair']

section Left

variable {o : Options} {edges left : List Edge}
  (hleft : ∀ e, left.count e = o.copiesLeft edges e)

include hleft

theorem mem_or_of_mem_left {e : Edge} (he : e ∈ left) : e ∈ edges ∨ e.reverse ∈ edges := by
  by_contra hnot
  rw [not_or] at hnot
  have hcount := hleft e
  rw [o.copiesLeft_eq_zero hnot.1 hnot.2] at hcount
  exact List.count_eq_zero.1 hcount he

/-- A vertex at which degenerate edges are kept is touched by no other edge that is left. -/
theorem keepsDegenerates_left {v : Int} (h : o.keepsDegenerates edges v) :
    o.keepsDegenerates left v := by
  cases hd : o.degenerates with
  | discard => simp [keepsDegenerates, hd] at h
  | keep => simp [keepsDegenerates, hd]
  | discardExcess =>
      simp only [keepsDegenerates, hd, List.all_eq_true] at h ⊢
      intro f hf
      rcases mem_or_of_mem_left hleft hf with hf | hf
      · exact h f hf
      · have hreverse := h _ hf
        simp only [Edge.touches, Edge.reverse, Bool.or_eq_true, beq_iff_eq, Edge.ext_iff',
          Bool.not_eq_true', Bool.or_eq_false_iff, beq_eq_false_iff_ne] at hreverse ⊢
        exact hreverse.imp And.symm And.symm

/-- The copies that cleaning leaves are left when it is done again. -/
theorem copiesLeft_left
    (hpaired : o.isUndirected → ∀ e : Edge, edges.count e = edges.count e.reverse) (e : Edge) :
    o.afterCleaning.copiesLeft left e = left.count e := by
  have hcount := hleft e
  unfold copiesLeft at hcount ⊢
  rw [keepsDegenerates_afterCleaning]
  by_cases hdegenerate : e.isDegenerate
  · rw [if_pos hdegenerate] at hcount ⊢
    by_cases hkeep : o.keepsDegenerates edges e.origin
    · rw [if_pos hkeep] at hcount
      rw [if_pos (keepsDegenerates_left hleft hkeep), hcount, degenerateCopies_degenerateCopies]
    · rw [if_neg hkeep] at hcount
      rw [hcount]
      simp [degenerateCopies]
  · rw [if_neg hdegenerate] at hcount ⊢
    have hreverse := hleft e.reverse
    unfold copiesLeft at hreverse
    rw [Edge.isDegenerate_reverse, if_neg hdegenerate, Edge.reverse_reverse] at hreverse
    rw [hcount, hreverse]
    exact o.properCopies_properCopies fun hu => hpaired hu e

end Left

/-! ### Plans that unite copies again -/

/-- Copies of an edge are united again only if they were united before. -/
theorem exists_planProper_eq_unite (o : Options) {n m count : Nat} (hmany : 1 < o.properCopies n m)
    (h : o.afterCleaning.planProper (o.properCopies n m) (o.properCopies m n) = .unite count) :
    ∃ k, o.planProper n m = .unite k := by
  have hu := o.isUndirected_afterCleaning
  by_cases hm : o.duplicates = .merge
  · unfold properCopies capped at hmany
    cases hs : o.siblings with
    | keep | discard | require | create => grind
  · unfold planProper at h
    simp only [hu, siblings_afterCleaning, duplicates_afterCleaning] at h
    unfold planProper
    unfold properCopies capped at hmany
    cases hs : o.siblings with
    | keep => simp [hs, hm] at h
    | discard =>
        by_cases hu : o.isUndirected
        · simp [hs, hu] at hmany
          omega
        · simp [hs, hu, hm] at hmany
          have hlt : ¬n ≤ m := by omega
          simp [hu, hlt]
    | require | create => simp [hs, hm, SiblingPolicy.pairsUp] at h

theorem exists_planDegenerate_eq_unite (o : Options) {alone again : Bool} {n n' count : Nat}
    {plan : Plan} (hplan : o.planDegenerate alone n = .ok plan) (hne : plan.count n ≠ 0)
    (h : o.afterCleaning.planDegenerate again n' = .ok (.unite count)) :
    ∃ k, plan = .unite k := by
  have hu := o.isUndirected_afterCleaning
  unfold planDegenerate at h hplan
  simp only [hu, siblings_afterCleaning, duplicates_afterCleaning, degenerates_afterCleaning] at h
  grind [Plan.count]

end Options

/-! ### Bundles that stay as they are -/

namespace Bundle

/-- A plan that leaves the number of copies leaves the copies, if those it unites share their set of
input ids. -/
theorem realize_eq_rows {sets : IdSets} (hsets : sets.WellFormed) {b : Bundle Int} {plan : Plan}
    (hcount : plan.count b.forward.length = b.forward.length)
    (hunited : ∀ count, plan = .unite count → 1 < count →
      ∃ handle, sets.Knows handle ∧ ∀ a ∈ b.forward, a = handle) :
    b.realize sets plan = .ok (b.rows, sets) := by
  obtain ⟨e, forward, backward⟩ := b
  cases plan with
  | drop =>
      have hnil : forward = [] := List.length_eq_zero_iff.1 hcount.symm
      subst hnil
      rfl
  | copy created =>
      have hnone : created = 0 := by
        simpa [Plan.count] using hcount
      subst hnone
      simp [realize, rows]
  | unite count =>
      have hunite : ∃ handle, sets.unite forward = .ok (handle, sets) ∧
          forward = List.replicate count handle := by
        rcases forward with - | ⟨first, - | ⟨second, rest⟩⟩
        · obtain rfl : count = 0 := hcount
          exact ⟨IdSets.emptyId, sets.unite_nil, rfl⟩
        · obtain rfl : count = 1 := hcount
          exact ⟨first, rfl, rfl⟩
        · obtain rfl : count = rest.length + 1 + 1 := hcount
          obtain ⟨handle, hknows, hall⟩ := hunited _ rfl (by omega)
          have hforward : first :: second :: rest = List.replicate (rest.length + 1 + 1) handle :=
            List.eq_replicate_iff.2 ⟨rfl, hall⟩
          refine ⟨handle, ?_, hforward⟩
          rw [hforward]
          exact hsets.unite_replicate hknows _
      obtain ⟨handle, hunite, rfl⟩ := hunite
      rw [realize, hunite]
      simp [rows, bind, Except.bind, pure, Except.pure]

/-- United copies share a set of input ids that is known afterwards. -/
theorem exists_handle_of_realize {sets after : IdSets} (hsets : sets.WellFormed) {b : Bundle Int}
    (hknown : ∀ handle ∈ b.forward, sets.Knows handle) {count : Nat} {kept : List Row}
    (h : b.realize sets (.unite count) = .ok (kept, after)) :
    ∃ handle, after.Knows handle ∧ kept = List.replicate count ⟨b.edge, handle⟩ := by
  obtain ⟨handle, after', hunite, -, -, hknows⟩ := hsets.exists_unite hknown
  rw [realize, hunite] at h
  cases h
  exact ⟨handle, hknows, rfl⟩

end Bundle

/-! ### The second run -/

theorem realizeAll_eq_rows {o : Options} {sets : IdSets} {bundles : List (Bool × Bundle Int)}
    (h : ∀ x ∈ bundles, ∃ plan, x.2.plan o x.1 = .ok plan ∧
      x.2.realize sets plan = .ok (x.2.rows, sets)) :
    realizeAll o sets bundles = .ok ((bundles.map Prod.snd).flatMap Bundle.rows, sets) := by
  induction bundles with
  | nil => rfl
  | cons x bundles ih =>
      obtain ⟨⟨plan, hplan, hrealize⟩, hbundles⟩ := List.forall_mem_cons.1 h
      rw [realizeAll, hplan]
      show (x.2.realize sets plan >>= _) = _
      rw [hrealize]
      show (realizeAll o sets bundles >>= _) = _
      rw [ih hbundles]
      rfl

section Again

variable {o : Options} {rows : List Row} {sets : IdSets} {c : Cleaned}
  (hcleaned : IsCleaned o sets rows c) (hr : reservedEdge ∉ rows.map Tagged.edge)

include hcleaned hr

theorem IsCleaned.reservedEdge_not_mem : reservedEdge ∉ c.rows.map Tagged.edge := by
  rw [← List.count_eq_zero, hcleaned.count]
  exact o.copiesLeft_eq_zero hr hr

/-- Where the second run unites several copies of an edge, the first run united them. -/
theorem IsCleaned.exists_plan_eq_unite
    (heven : o.isUndirected → o.siblings.pairsUp → ∀ v,
      o.keepsDegenerates (rows.map Tagged.edge) v → (rows.map Tagged.edge).count ⟨v, v⟩ % 2 = 0)
    {alone again : Bool} {b b' : Bundle Int} {plan : Plan} {count : Nat}
    (hb : (alone, b) ∈ cleaningBundles rows) (hb' : b' ∈ Bundle.ofTagged c.rows)
    (hedge : b.edge = b'.edge) (hplan : b.plan o alone = .ok plan)
    (hplan' : b'.plan o.afterCleaning again = .ok (.unite count)) (hmany : 1 < b'.forward.length) :
    ∃ k, plan = .unite k := by
  have hof := mem_ofTagged_of_mem_cleaningBundles hr hb
  have hforward : b'.forward.length = o.copiesLeft (rows.map Tagged.edge) b'.edge :=
    (length_forward_ofTagged hb').trans (hcleaned.count _)
  have hbackward : b'.backward.length = o.copiesLeft (rows.map Tagged.edge) b'.edge.reverse :=
    (length_backward_ofTagged hb').trans (hcleaned.count _)
  obtain ⟨planned, hplanned, hcount⟩ := exists_plan o hr heven hb
  cases hplan.symm.trans hplanned
  rw [hedge, ← hforward] at hcount
  unfold Bundle.plan at hplan hplan'
  rw [hedge] at hplan
  by_cases hdegenerate : b'.edge.isDegenerate
  · rw [if_pos hdegenerate] at hplan hplan'
    apply o.exists_planDegenerate_eq_unite hplan _ hplan'
    omega
  · rw [if_neg hdegenerate] at hplan hplan'
    unfold Options.copiesLeft at hforward hbackward
    rw [if_neg hdegenerate] at hforward
    rw [Edge.isDegenerate_reverse, if_neg hdegenerate, Edge.reverse_reverse] at hbackward
    rw [hforward] at hmany
    rw [hforward, hbackward] at hplan'
    rw [length_forward_ofTagged hof, length_backward_ofTagged hof, hedge] at hplan
    obtain ⟨k, hk⟩ := o.exists_planProper_eq_unite hmany (Except.ok.inj hplan')
    exact ⟨k, (Except.ok.inj hplan).symm.trans hk⟩

/-- These copies have one set of input ids. -/
theorem IsCleaned.exists_handle (hknown : ∀ t ∈ rows, sets.Knows t.item)
    (heven : o.isUndirected → o.siblings.pairsUp → ∀ v,
      o.keepsDegenerates (rows.map Tagged.edge) v → (rows.map Tagged.edge).count ⟨v, v⟩ % 2 = 0)
    {again : Bool} {b' : Bundle Int} {count : Nat} (hb' : b' ∈ Bundle.ofTagged c.rows)
    (hplan' : b'.plan o.afterCleaning again = .ok (.unite count)) (hmany : 1 < b'.forward.length) :
    ∃ handle, c.sets.Knows handle ∧ ∀ a ∈ b'.forward, a = handle := by
  obtain ⟨t, ht, hedge⟩ : ∃ t ∈ c.rows, t.edge = b'.edge := by
    have hpos : 0 < (c.rows.map Tagged.edge).count b'.edge := by
      rw [← length_forward_ofTagged hb']
      omega
    exact List.mem_map.1 (List.count_pos_iff.1 hpos)
  obtain ⟨⟨alone, b⟩, hb, hbt⟩ := hcleaned.realized.exists_bundle ht
  have hedge : b.edge = b'.edge := hbt.trans hedge
  obtain ⟨plan, before, mid, hplan, hbefore, hext, hafter, hrealize⟩ :=
    hcleaned.realized.rows _ hb
  obtain ⟨k, rfl⟩ :=
    hcleaned.exists_plan_eq_unite hr heven hb hb' hedge hplan hplan' hmany
  have hof := mem_ofTagged_of_mem_cleaningBundles hr hb
  obtain ⟨handle, hknows, hkept⟩ := Bundle.exists_handle_of_realize hbefore
    (fun a ha => hext.knows (knows_of_mem_forward hknown hof a ha)) hrealize
  refine ⟨handle, hafter.knows hknows, fun a ha => ?_⟩
  rw [Bundle.forward_of_mem_ofTagged hb', ← hedge, hkept] at ha
  obtain ⟨u, hu, rfl⟩ := List.mem_map.1 ha
  rw [List.eq_of_mem_replicate hu]

omit hr in
/-- After cleaning no sibling is missing. -/
theorem IsCleaned.missesSibling_eq_false
    (hpaired : o.isUndirected → ∀ e : Edge,
      (rows.map Tagged.edge).count e = (rows.map Tagged.edge).count e.reverse)
    {b : Bundle Int} (hb : b ∈ Bundle.ofTagged c.rows) :
    b.missesSibling o.afterCleaning = false := by
  by_contra hmisses
  rw [Bool.not_eq_false] at hmisses
  simp only [Bundle.missesSibling, Options.siblings_afterCleaning, Bool.and_eq_true, beq_iff_eq,
    Bool.not_eq_true'] at hmisses
  obtain ⟨⟨hrequire, hdegenerate⟩, hlacks⟩ := hmisses
  have hpairsUp : o.siblings.pairsUp := by
    rw [hrequire]
    rfl
  rw [length_forward_ofTagged hb, length_backward_ofTagged hb, hcleaned.count, hcleaned.count]
    at hlacks
  unfold Options.copiesLeft Options.lacksSibling at hlacks
  rw [o.isUndirected_afterCleaning, hpairsUp, if_neg (by simp), Edge.isDegenerate_reverse,
    hdegenerate, if_neg Bool.false_ne_true, if_neg Bool.false_ne_true, Edge.reverse_reverse,
    bne_iff_ne] at hlacks
  exact hlacks (Options.properCopies_comm hpairsUp fun hu => hpaired hu b.edge)

end Again

/-- Cleaning a second time leaves the table, the sets of input ids and the options as they are, and
misses no siblings. -/
theorem clean_clean (o : Options) {edges : List Edge} {handles : List Int} {sets : IdSets}
    (hsets : sets.Built) (hlen : edges.length = handles.length) (hreserved : reservedEdge ∉ edges)
    (hknown : ∀ handle ∈ handles, sets.Knows handle)
    (hpaired : o.isUndirected → ∀ e : Edge, edges.count e = edges.count e.reverse)
    (heven : o.isUndirected → ∀ v, edges.count ⟨v, v⟩ % 2 = 0) :
    ∃ rows c, zipRows edges handles = .ok rows ∧ clean o rows sets = .ok c ∧
      ∃ again, zipRows (c.rows.map Tagged.edge) (c.rows.map Tagged.item) = .ok again ∧
        clean c.options again c.sets = .ok { c with error? := none } := by
  obtain ⟨rows, hzip, rfl, rfl⟩ := exists_zipRows hlen
  have hknown : ∀ t ∈ rows, sets.Knows t.item := fun t ht => hknown _ (List.mem_map_of_mem ht)
  obtain ⟨c, hclean, hcleaned⟩ := exists_isCleaned o hsets.wellFormed hreserved hknown
    fun hu _ v _ => heven hu v
  refine ⟨rows, c, hzip, hclean, c.rows, zipRows_map c.rows, ?_⟩
  have hreserved' := hcleaned.reservedEdge_not_mem hreserved
  have hcopies := Options.copiesLeft_left hcleaned.count hpaired
  have hbundles : (cleaningBundles c.rows).map Prod.snd = Bundle.ofTagged c.rows :=
    map_snd_cleaningBundles hreserved'
  have hdirected : o.afterCleaning.isUndirected → o.afterCleaning.siblings.pairsUp → ∀ v,
      o.afterCleaning.keepsDegenerates (c.rows.map Tagged.edge) v →
        (c.rows.map Tagged.edge).count ⟨v, v⟩ % 2 = 0 := by
    intro hu hs
    rw [Options.siblings_afterCleaning] at hs
    simp [o.isUndirected_afterCleaning, hs] at hu
  have hrealize : realizeAll o.afterCleaning c.sets (cleaningBundles c.rows) =
      .ok (c.rows, c.sets) := by
    have hrows := Bundle.flatMap_rows_ofTagged hcleaned.sorted
    rw [← hbundles] at hrows
    rw [realizeAll_eq_rows, hrows]
    rintro ⟨alone, b⟩ hx
    have hb := mem_ofTagged_of_mem_cleaningBundles hreserved' hx
    obtain ⟨plan, hplan, hcount⟩ := exists_plan o.afterCleaning hreserved'
      hdirected hx
    rw [hcopies, ← length_forward_ofTagged hb] at hcount
    refine ⟨plan, hplan, Bundle.realize_eq_rows hcleaned.realized.wellFormed hcount ?_⟩
    rintro count rfl hmany
    have hmany : 1 < b.forward.length := hcount ▸ hmany
    exact hcleaned.exists_handle hreserved hknown (fun hu _ v _ => heven hu v) hb hplan hmany
  have hmisses : (cleaningBundles c.rows).any (fun x => x.2.missesSibling o.afterCleaning) = false := by
    rw [List.any_eq_false]
    rintro ⟨alone, b⟩ hx
    rw [hcleaned.missesSibling_eq_false hpaired
      (mem_ofTagged_of_mem_cleaningBundles hreserved' hx)]
    exact Bool.false_ne_true
  rw [hcleaned.options, clean, hrealize]
  show Except.ok _ = _
  rw [hmisses, Options.afterCleaning_afterCleaning, ← hcleaned.options]
  rfl

theorem clean_clean_missingSiblings :
    ∃ rows c, zipRows [⟨0, 1⟩, ⟨1, 0⟩, ⟨2, 2⟩, ⟨2, 2⟩] [0, IdSets.emptyId, 1, 2] = .ok rows ∧
      clean { edgeType := .undirected, siblings := .require, duplicates := .merge } rows .empty =
        .ok c ∧
      c.error? = some .missingSiblings ∧
      ∃ again, zipRows (c.rows.map Tagged.edge) (c.rows.map Tagged.item) = .ok again ∧
        clean c.options again c.sets = .ok { c with error? := none } := by
  have hknown : ∀ handle ∈ [0, IdSets.emptyId, 1, 2], IdSets.empty.Knows handle := by
    intro handle hhandle
    simp only [List.mem_cons, List.not_mem_nil, or_false] at hhandle
    rcases hhandle with rfl | rfl | rfl | rfl
    all_goals exact ⟨_, rfl⟩
  have hreverse : ([⟨0, 1⟩, ⟨1, 0⟩, ⟨2, 2⟩, ⟨2, 2⟩] : List Edge).Perm
      ([⟨0, 1⟩, ⟨1, 0⟩, ⟨2, 2⟩, ⟨2, 2⟩].map Edge.reverse) := by decide
  have heven : ∀ v : Int,
      ([⟨0, 1⟩, ⟨1, 0⟩, ⟨2, 2⟩, ⟨2, 2⟩] : List Edge).count ⟨v, v⟩ % 2 = 0 := by
    intro v
    by_cases hv : v = 2
    · subst hv
      rfl
    · rw [List.count_eq_zero.2]
      simp [hv]
      omega
  have herror : (clean { edgeType := .undirected, siblings := .require, duplicates := .merge }
      [⟨⟨0, 1⟩, 0⟩, ⟨⟨1, 0⟩, IdSets.emptyId⟩, ⟨⟨2, 2⟩, 1⟩, ⟨⟨2, 2⟩, 2⟩] .empty).map
      Cleaned.error? = .ok (some .missingSiblings) := by cbv
  obtain ⟨rows, c, hzip, hclean, hagain⟩ := clean_clean
    { edgeType := .undirected, siblings := .require, duplicates := .merge } .empty rfl (by decide)
    hknown (fun _ e => by
      rw [hreverse.count_eq e.reverse,
        List.count_map_of_injective _ _ fun _ _ => Edge.reverse_inj.1]) fun _ => heven
  refine ⟨rows, c, hzip, hclean, ?_, hagain⟩
  cases hzip
  have hok := (congrArg (Except.map Cleaned.error?) hclean).symm.trans herror
  exact Except.ok.inj hok

end SnapGraph
