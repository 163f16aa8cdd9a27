import Mathlib
import SnapGraph.Proofs.Cleaning

/-! Where the input ids of cleaned edges come from. A bundle whose plan is to copy keeps the handles of
its copies in their order, and what is created beside them has the empty set; every other plan gives
each edge that is left the union of the sets of all copies. Handles given out before keep their
meaning, so this holds of the table as a whole. -/

namespace SnapGraph

/-! ### Copied and united edges -/

namespace Options

/-- Copies of the edge stay as they are, each with its own input ids. -/
def KeepsCopies (o : Options) (e : Edge) : Prop :=
  o.duplicates = .keep ∧ o.siblings ≠ .discard ∧ ¬(o.isUndirected ∧ o.siblings.pairsUp) ∧
    (e.isDegenerate → o.degenerates = .keep)

instance (o : Options) (e : Edge) : Decidable (o.KeepsCopies e) :=
  inferInstanceAs (Decidable (_ ∧ _ ∧ ¬_ ∧ (_ → _)))

/-- The plan for `n` copies of an edge treats their input ids as the options want; a lone copy may as
well be copied where copies are united. -/
def Suits (o : Options) (e : Edge) (n : Nat) : Plan → Prop
  | .copy created => o.KeepsCopies e ∨ created = 0 ∧ n ≤ 1
  | .drop | .unite _ => ¬o.KeepsCopies e

variable {o : Options} {e : Edge}

theorem suits_planDegenerate (hdegenerate : e.isDegenerate) {alone : Bool} {n : Nat} {plan : Plan}
    (h : o.planDegenerate alone n = .ok plan) : o.Suits e n plan := by
  unfold planDegenerate at h
  cases hd : o.degenerates with
  | discard | discardExcess => grind [Suits, KeepsCopies]
  | keep => cases hm : o.duplicates <;> grind [Suits, KeepsCopies]

theorem suits_planProper (hproper : e.isDegenerate = false) (n m : Nat) :
    o.Suits e n (o.planProper n m) := by
  unfold planProper
  cases hs : o.siblings with
  | keep | discard | require | create =>
      cases hm : o.duplicates <;> grind [Suits, KeepsCopies, SiblingPolicy.pairsUp]

end Options

theorem Bundle.suits_plan {α : Type} {o : Options} {alone : Bool} {b : Bundle α} {plan : Plan}
    (h : b.plan o alone = .ok plan) : o.Suits b.edge b.forward.length plan := by
  unfold Bundle.plan at h
  cases hdegenerate : b.edge.isDegenerate with
  | true =>
      rw [if_pos hdegenerate] at h
      exact Options.suits_planDegenerate hdegenerate h
  | false =>
      rw [if_neg (Bool.eq_false_iff.1 hdegenerate)] at h
      cases h
      exact Options.suits_planProper hdegenerate _ _

/-! ### The handles of the copies of an edge -/

/-- The handles of the copies of an edge, in the order of the table. -/
def handlesOf (rows : List Row) (e : Edge) : List Int :=
  (rows.filter fun t => t.edge == e).map Tagged.item

/-- What a plan that suits makes of a bundle: either the handles of its copies and after them the
empty set, or for each edge that is left the union of the sets of all copies. -/
theorem Bundle.items_of_realize {o : Options} {b : Bundle Int} {plan : Plan} {sets after : IdSets}
    {kept : List Row} (hsuits : o.Suits b.edge b.forward.length plan)
    (hknown : ∀ handle ∈ b.forward, sets.Knows handle) (hfits : after.Fits)
    (h : b.realize sets plan = .ok (kept, after)) :
    (o.KeepsCopies b.edge → ∃ created,
      kept.map Tagged.item = b.forward ++ List.replicate created IdSets.emptyId) ∧
    (¬o.KeepsCopies b.edge → ∀ t ∈ kept, sets.Unites b.forward after t.item) := by
  cases plan with
  | drop =>
      cases h
      exact ⟨fun hkeeps => absurd hkeeps hsuits, by simp⟩
  | copy created =>
      cases h
      have hitems : ((b.forward ++ List.replicate created IdSets.emptyId).map
          (Tagged.mk b.edge)).map Tagged.item = b.forward ++ List.replicate created IdSets.emptyId := by
        simp [Function.comp_def]
      refine ⟨fun _ => ⟨created, hitems⟩, fun hnot t ht => ?_⟩
      obtain ⟨rfl, hlone⟩ := hsuits.resolve_left hnot
      rw [List.replicate_zero, List.append_nil] at ht
      obtain ⟨handle, hhandle, rfl⟩ := List.mem_map.1 ht
      have hforward : b.forward = [handle] := by
        have hpos := List.length_pos_of_mem hhandle
        obtain ⟨first, hfirst⟩ := List.length_eq_one_iff.1 (Nat.le_antisymm hlone hpos)
        rw [hfirst] at hhandle ⊢
        rw [List.mem_singleton.1 hhandle]
      rw [hforward]
      exact IdSets.unites_singleton (hknown handle hhandle)
  | unite count =>
      obtain ⟨⟨handle, after'⟩, hunite, hkept⟩ := bind_eq_ok_iff.1 h
      cases hkept
      refine ⟨fun hkeeps => absurd hkeeps hsuits, fun _ t ht => ?_⟩
      rw [List.eq_of_mem_replicate ht]
      exact IdSets.unites_of_unite hknown hfits hunite

/-! ### Runs that succeed -/

theorem exists_plan_of_realizeAll {o : Options} {sets after : IdSets}
    {bundles : List (Bool × Bundle Int)} {kept : List Row}
    (h : realizeAll o sets bundles = .ok (kept, after)) :
    ∀ x ∈ bundles, ∃ plan, x.2.plan o x.1 = .ok plan := by
  induction bundles generalizing sets kept with
  | nil => simp
  | cons x bundles ih =>
      obtain ⟨plan, hplan, h⟩ := bind_eq_ok_iff.1 h
      obtain ⟨⟨rows, mid⟩, -, h⟩ := bind_eq_ok_iff.1 h
      obtain ⟨⟨others, last⟩, hothers, h⟩ := bind_eq_ok_iff.1 h
      cases h
      exact List.forall_mem_cons.2 ⟨⟨plan, hplan⟩, ih hothers⟩

theorem Options.even_of_planDegenerate {o : Options} {edges : List Edge} {v : Int} {alone : Bool}
    {n : Nat} {plan : Plan} (hundirected : o.isUndirected) (hsiblings : o.siblings.pairsUp)
    (hkeep : o.keepsDegenerates edges v)
    (halone : o.degenerates = .discardExcess → alone = o.keepsDegenerates edges v)
    (h : o.planDegenerate alone n = .ok plan) : n % 2 = 0 := by
  unfold planDegenerate at h
  cases hd : o.degenerates with
  | discard => simp [keepsDegenerates, hd] at hkeep
  | discardExcess | keep => grind

/-- Where cleaning succeeds, degenerate edges that are kept and must be paired up can be. -/
theorem even_of_clean {o : Options} {rows : List Row} {sets : IdSets} {c : Cleaned}
    (hr : reservedEdge ∉ rows.map Tagged.edge) (h : clean o rows sets = .ok c)
    (hundirected : o.isUndirected) (hsiblings : o.siblings.pairsUp) (v : Int)
    (hkeep : o.keepsDegenerates (rows.map Tagged.edge) v) :
    (rows.map Tagged.edge).count ⟨v, v⟩ % 2 = 0 := by
  obtain ⟨⟨kept, after⟩, hrealize, -⟩ := bind_eq_ok_iff.1 h
  by_cases hmem : (⟨v, v⟩ : Edge) ∈ rows.map Tagged.edge
  · obtain ⟨t, ht, hedge⟩ := List.mem_map.1 hmem
    obtain ⟨b, hb, hbe⟩ := Bundle.exists_mem_ofTagged_iff.2 ⟨t, ht, .inl hedge⟩
    have hmarked := hb
    rw [← map_snd_cleaningBundles hr] at hmarked
    obtain ⟨⟨alone, b⟩, hx, rfl⟩ := List.mem_map.1 hmarked
    obtain ⟨plan, hplan⟩ := exists_plan_of_realizeAll hrealize _ hx
    have hdegenerate : b.edge.isDegenerate := by
      rw [hbe, Edge.isDegenerate_iff]
    rw [← hbe, ← length_forward_ofTagged hb]
    unfold Bundle.plan at hplan
    rw [if_pos hdegenerate] at hplan
    apply Options.even_of_planDegenerate hundirected hsiblings hkeep _ hplan
    intro hd
    rw [alone_eq_all hr hx hdegenerate, hbe, Options.keepsDegenerates, hd]
  · rw [List.count_eq_zero.2 hmem]

/-! ### The cleaned table -/

/-- Where the input ids of a cleaned table come from: copies that stay as they are keep their handles
in order, before those created beside them, which have none; united copies have the union of all. -/
structure KeepsInputs (o : Options) (sets : IdSets) (rows : List Row) (c : Cleaned) : Prop where
  copied : ∀ e, o.KeepsCopies e → ∃ created,
    handlesOf c.rows e = handlesOf rows e ++ List.replicate created IdSets.emptyId
  united : ∀ e, ¬o.KeepsCopies e →
    ∀ handle ∈ handlesOf c.rows e, sets.Unites (handlesOf rows e) c.sets handle
  keeps : ∀ handle set, sets.find handle = .ok set → c.sets.find handle = .ok set

theorem handlesOf_eq_nil {rows : List Row} {e : Edge} (h : e ∉ rows.map Tagged.edge) :
    handlesOf rows e = [] := by
  rw [handlesOf, List.map_eq_nil_iff, List.filter_eq_nil_iff]
  intro t ht hte
  exact h (beq_iff_eq.1 hte ▸ List.mem_map_of_mem ht)

section Cleaned

variable {o : Options} {sets : IdSets} {rows : List Row} {c : Cleaned}
  (hcleaned : IsCleaned o sets rows c) (hr : reservedEdge ∉ rows.map Tagged.edge)

include hcleaned hr

/-- An edge that is in the table before or after cleaning has a bundle. -/
theorem IsCleaned.exists_bundle_or (e : Edge) :
    (∃ x ∈ cleaningBundles rows, x.2.edge = e) ∨
      handlesOf rows e = [] ∧ handlesOf c.rows e = [] := by
  by_cases hnone : ∃ b ∈ Bundle.ofTagged rows, b.edge = e
  · obtain ⟨b, hb, rfl⟩ := hnone
    rw [← map_snd_cleaningBundles hr] at hb
    obtain ⟨x, hx, rfl⟩ := List.mem_map.1 hb
    exact .inl ⟨x, hx, rfl⟩
  · obtain ⟨hforward, hbackward⟩ := not_mem_edges_of_forall_ne fun b hb hbe =>
      hnone ⟨b, hb, hbe⟩
    refine .inr ⟨handlesOf_eq_nil hforward, handlesOf_eq_nil ?_⟩
    rw [← List.count_eq_zero, hcleaned.count, o.copiesLeft_eq_zero hforward hbackward]

/-- The handles that cleaning leaves at an edge. -/
theorem IsCleaned.handlesOf_spec (hknown : ∀ t ∈ rows, sets.Knows t.item) (hfits : c.sets.Fits)
    (e : Edge) :
    (o.KeepsCopies e → ∃ created,
      handlesOf c.rows e = handlesOf rows e ++ List.replicate created IdSets.emptyId) ∧
    (¬o.KeepsCopies e →
      ∀ handle ∈ handlesOf c.rows e, sets.Unites (handlesOf rows e) c.sets handle) := by
  rcases hcleaned.exists_bundle_or hr e with ⟨⟨alone, b⟩, hx, rfl⟩ | ⟨hbefore, hafter⟩
  · have hb := mem_ofTagged_of_mem_cleaningBundles hr hx
    have hforward : b.forward = handlesOf rows b.edge := Bundle.forward_of_mem_ofTagged hb
    have hbknown := knows_of_mem_forward hknown hb
    obtain ⟨plan, before, mid, hplan, -, hext, hafter, hrealize⟩ := hcleaned.realized.rows _ hx
    obtain ⟨hcopied, hunited⟩ := Bundle.items_of_realize (Bundle.suits_plan hplan)
      (fun handle hhandle => hext.knows (hbknown handle hhandle)) (hafter.fits hfits) hrealize
    rw [← hforward]
    refine ⟨hcopied, fun hnot handle hhandle => ?_⟩
    obtain ⟨t, ht, rfl⟩ := List.mem_map.1 hhandle
    exact (hunited hnot t ht).extend hbknown hext hafter
  · rw [hbefore, hafter]
    exact ⟨fun _ => ⟨0, rfl⟩, by simp⟩

theorem IsCleaned.keepsInputs (hknown : ∀ t ∈ rows, sets.Knows t.item) (hfits : c.sets.Fits) :
    KeepsInputs o sets rows c where
  copied e := (hcleaned.handlesOf_spec hr hknown hfits e).1
  united e := (hcleaned.handlesOf_spec hr hknown hfits e).2
  keeps := hcleaned.realized.keeps.find

end Cleaned

theorem map_of_zipRows {edges : List Edge} {handles : List Int} {rows : List Row}
    (h : zipRows edges handles = .ok rows) :
    rows.map Tagged.edge = edges ∧ rows.map Tagged.item = handles := by
  unfold zipRows at h
  split at h
  · rename_i hlen
    obtain ⟨rows', hrows', hmaps⟩ := exists_zipRows hlen
    cases h
    rw [zipRows, if_pos hlen] at hrows'
    cases hrows'
    exact hmaps
  · cases h

/-- Wherever cleaning succeeds, input ids come from the copies of the same edge. -/
theorem clean_keepsInputs (o : Options) {edges : List Edge} {handles : List Int} {sets : IdSets}
    {rows : List Row} {c : Cleaned} (hsets : sets.Built) (hreserved : reservedEdge ∉ edges)
    (hknown : ∀ handle ∈ handles, sets.Knows handle) (hzip : zipRows edges handles = .ok rows)
    (hclean : clean o rows sets = .ok c) (hfits : c.sets.Fits) : KeepsInputs o sets rows c := by
  obtain ⟨rfl, rfl⟩ := map_of_zipRows hzip
  have hknown : ∀ t ∈ rows, sets.Knows t.item := fun t ht => hknown _ (List.mem_map_of_mem ht)
  obtain ⟨c', hclean', hcleaned⟩ := exists_isCleaned o hsets.wellFormed hreserved hknown
    (even_of_clean hreserved hclean)
  cases hclean.symm.trans hclean'
  exact hcleaned.keepsInputs hreserved hknown hfits

theorem clean_keepsInputs_createdSibling :
    ∃ rows c,
      zipRows [⟨2, 2⟩, ⟨0, 1⟩, ⟨1, 0⟩, ⟨2, 2⟩, ⟨0, 1⟩] [IdSets.emptyId, 7, 6, 3, 5] = .ok rows ∧
      clean { siblings := .create, degenerates := .discardExcess } rows .empty = .ok c ∧
      c.sets.Fits ∧
      KeepsInputs { siblings := .create, degenerates := .discardExcess } .empty rows c ∧
      handlesOf c.rows ⟨0, 1⟩ = [7, 5] ∧ handlesOf c.rows ⟨1, 0⟩ = [6, IdSets.emptyId] ∧
      handlesOf c.rows ⟨2, 2⟩ = [3] := by
  have hknown : ∀ handle ∈ [IdSets.emptyId, 7, 6, 3, 5], IdSets.empty.Knows handle := by
    intro handle hhandle
    simp only [List.mem_cons, List.not_mem_nil, or_false] at hhandle
    rcases hhandle with rfl | rfl | rfl | rfl | rfl
    all_goals exact ⟨_, rfl⟩
  have hclean : clean { siblings := .create, degenerates := .discardExcess }
      [⟨⟨2, 2⟩, IdSets.emptyId⟩, ⟨⟨0, 1⟩, 7⟩, ⟨⟨1, 0⟩, 6⟩,
        ⟨⟨2, 2⟩, 3⟩, ⟨⟨0, 1⟩, 5⟩] .empty =
      .ok ⟨{ siblings := .create, degenerates := .discardExcess },
        [⟨⟨0, 1⟩, 7⟩, ⟨⟨0, 1⟩, 5⟩, ⟨⟨1, 0⟩, 6⟩,
          ⟨⟨1, 0⟩, IdSets.emptyId⟩, ⟨⟨2, 2⟩, 3⟩],
        .empty, none⟩ := by cbv
  have hfits : IdSets.empty.Fits := ⟨Nat.two_pow_pos 31⟩
  have hreserved : reservedEdge ∉ [⟨2, 2⟩, ⟨0, 1⟩, ⟨1, 0⟩, ⟨2, 2⟩, ⟨0, 1⟩] := by decide
  exact ⟨_, _, rfl, hclean, hfits, clean_keepsInputs _ .empty hreserved hknown rfl hclean hfits,
    by decide⟩

end SnapGraph
