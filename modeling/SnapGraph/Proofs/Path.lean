import Mathlib
import SnapGraph.Path
import SnapGraph.Proofs.ChainOrder
import SnapGraph.Proofs.Ends
import SnapGraph.Proofs.Thread

/-! Paths use up all edges. A path that comes to an interior vertex other than its start finds a free
edge to go on by, since there the free edges are one too many, so it ends at a vertex that is not
interior or where it began. Once no path can begin at a vertex that is not interior, no free edge
touches one, and the paths that are left are closed. -/

namespace SnapGraph.Thread

/-- A path passes interior vertices only, from a vertex that is not interior to one that is not, or
around from its canonical start. -/
inductive IsPath (t : Thread) (l : List Nat) : Prop
  | opened {u v : Int} (hjoins : Joins t.graph.edge u l v) (hu : ¬t.isInterior u)
      (hv : ¬t.isInterior v) (hinner : ∀ x ∈ inner t.graph.edge l, t.isInterior x)
  | closed {v : Int} (hjoins : Joins t.graph.edge v l v)
      (hall : ∀ x ∈ vertices t.graph.edge l, t.isInterior x) (hstart : canonicalLoop t.key l = l)

variable {t : Thread} {u u' : Usage} {e : Nat} {l : List Nat} {v w : Int}

/-- One step of a path. -/
theorem path_eq (t : Thread) (start : Int) (u : Usage) (e : Nat) : t.path start u e = (do
    let u ← t.mark u e
    if !t.isInterior (t.dest e) || t.dest e == start then .ok ([e], u)
    else
      match ((t.incidence.outIds (t.dest e)).filter u.isFree).getLast? with
      | none => .ok ([e], u)
      | some next => (t.path start u next).map fun r => (e :: r.1, r.2)) := by
  rw [path]
  split
  · rename_i f hmark
    rw [hmark]
    rfl
  · rename_i u₁ hmark
    rw [hmark]
    rfl

/-- Where a path from `start` has come to `v`, one free edge more leaves `v`, and one less leaves
`start`. -/
theorem agrees_after (ht : t.Sound) (h : t.Spends u l u') (hl : Joins t.graph.edge v l w)
    {x start : Int}
    (hx : t.Agrees (t.net u x) ((if x = v then 1 else 0) - if x = start then 1 else 0)) :
    t.Agrees (t.net u' x) ((if x = w then 1 else 0) - if x = start then 1 else 0) := by
  have hafter := agrees_of_spends ht h hl hx
  rw [sub_right_comm, sub_self, zero_sub, neg_add_eq_sub] at hafter
  exact hafter

/-- A path passes interior vertices, and ends at a vertex that is not interior or at its start. -/
theorem exists_path (ht : t.Sound) (start : Int) (hu : t.Consistent u) (he : u.isFree e)
    (hinner : ∀ x, t.isInterior x → t.Agrees (t.net u x)
      ((if x = t.origin e then 1 else 0) - if x = start then 1 else 0)) :
    ∃ l u' w, t.path start u e = .ok (e :: l, u') ∧ t.Consistent u' ∧ t.Spends u (e :: l) u' ∧
      Joins t.graph.edge (t.origin e) (e :: l) w ∧ (t.isInterior w → w = start) ∧
      ∀ x ∈ inner t.graph.edge (e :: l), t.isInterior x := by
  fun_induction path t start u e with
  | case1 u e f hmark =>
      obtain ⟨u', hmark', -⟩ := exists_mark ht hu he
      rw [hmark'] at hmark
      cases hmark
  | case2 u e u₁ hmark v hstop =>
      obtain ⟨hu₁, hspends, -⟩ := mark_spec ht hu hmark
      refine ⟨[], u₁, v, rfl, hu₁, hspends, ⟨rfl, rfl⟩, fun hv => ?_,
        fun x hx => absurd hx List.not_mem_nil⟩
      simpa [hv] using hstop
  | case3 u e u₁ hmark v hgo hnone =>
      obtain ⟨hu₁, hspends, -⟩ := mark_spec ht hu hmark
      simp only [Bool.or_eq_true, Bool.not_eq_true', beq_iff_eq, not_or, Bool.not_eq_false] at hgo
      have hjoins : Joins t.graph.edge (t.origin e) [e] v := ⟨rfl, rfl⟩
      have hone := agrees_after ht hspends hjoins (hinner v hgo.1)
      rw [if_pos rfl, if_neg hgo.2, sub_zero] at hone
      obtain ⟨f, hf, horigin⟩ := exists_free_of_agrees hone
      have hmem := (mem_free_outIds ht).2 ⟨hf, horigin⟩
      rw [List.getLast?_eq_none_iff.1 hnone] at hmem
      cases hmem
  | case4 u e u₁ hmark v hgo next hnext ih =>
      obtain ⟨hu₁, hspends, -⟩ := mark_spec ht hu hmark
      simp only [Bool.or_eq_true, Bool.not_eq_true', beq_iff_eq, not_or, Bool.not_eq_false] at hgo
      obtain ⟨hfree, horigin⟩ := (mem_free_outIds ht).1 (List.mem_of_getLast? hnext)
      have hjoins : Joins t.graph.edge (t.origin e) [e] v := ⟨rfl, rfl⟩
      have horigin : t.origin next = v := horigin
      obtain ⟨l, u', w, hpath, hu', hspends', hl, hend, hpass⟩ := ih hu₁ (mem_freeIds.1 hfree).2
        fun x hx => horigin ▸ agrees_after ht hspends hjoins (hinner x hx)
      refine ⟨next :: l, u', w, by rw [hpath]; rfl, hu', hspends.trans hspends', ⟨rfl, ?_⟩, hend,
        List.forall_mem_cons.2 ⟨hgo.1, hpass⟩⟩
      rw [horigin] at hl
      exact hl

/-! ### Paths between vertices that are not interior -/

/-- Between vertices that are not interior, paths leave the interior ones as they are, and use up the
edges that they may begin with. -/
theorem exists_openPaths (ht : t.Sound) (hu : t.Consistent u)
    (hinner : ∀ x, t.isInterior x → t.Agrees (t.net u x) 0) (edges : List Nat) :
    ∃ lines u', t.openPaths u edges = .ok (lines, u') ∧ t.Draws u lines u' ∧
      (∀ l ∈ lines, t.IsPath l) ∧ (∀ x, t.isInterior x → t.Agrees (t.net u' x) 0) ∧
      ∀ e ∈ edges, u'.isFree e → t.isInterior (t.origin e) := by
  induction edges generalizing u with
  | nil =>
      exact ⟨[], u, rfl, .nil hu, fun l hl => absurd hl List.not_mem_nil, hinner,
        fun e he => absurd he List.not_mem_nil⟩
  | cons e edges ih =>
      by_cases hbegins : u.isFree e && !t.isInterior (t.origin e)
      · obtain ⟨he, hv⟩ := (Bool.and_eq_true _ _).mp hbegins
        have hv : ¬t.isInterior (t.origin e) := by simpa using hv
        obtain ⟨l, u₁, w, hpath, hu₁, hspends, hjoins, hend, hpass⟩ :=
          exists_path ht (t.origin e) hu he fun x hx => (Int.sub_self _).symm ▸ hinner x hx
        have hw : ¬t.isInterior w := fun hw => hv (hend hw ▸ hw)
        have hinner₁ : ∀ x, t.isInterior x → t.Agrees (t.net u₁ x) 0 := by
          intro x hx
          have hxv : x ≠ t.origin e := fun h => hv (h ▸ hx)
          have hxw : x ≠ w := fun h => hw (h ▸ hx)
          have hmove := agrees_of_spends ht hspends hjoins (hinner x hx)
          rw [if_neg hxw, if_neg hxv] at hmove
          exact hmove
        obtain ⟨lines, u', hrest, hdraws, hpaths, hinner', hdone⟩ := ih hu₁ hinner₁
        refine ⟨(e :: l) :: lines, u', ?_, hdraws.cons hspends hjoins.isPolyline,
          List.forall_mem_cons.2 ⟨.opened hjoins hv hw hpass, hpaths⟩, hinner', ?_⟩
        · rw [openPaths, if_pos hbegins, hpath]
          show (t.openPaths u₁ edges >>= _) = _
          rw [hrest]
          rfl
        · refine List.forall_mem_cons.2 ⟨fun hfree => ?_, hdone⟩
          have hfree₁ := hdraws.spends.isFree (hu.lt he) hfree
          exact absurd hfree₁ (hspends.not_isFree List.mem_cons_self)
      · obtain ⟨lines, u', hrest, hdraws, hpaths, hinner', hdone⟩ := ih hu hinner
        refine ⟨lines, u', by rw [openPaths, if_neg hbegins, hrest], hdraws, hpaths, hinner', ?_⟩
        refine List.forall_mem_cons.2 ⟨fun hfree => ?_, hdone⟩
        by_contra hv
        have he := hdraws.consistent.lt hfree
        exact hbegins (by simp [hdraws.spends.isFree he hfree, hv])

/-! ### Closed paths -/

/-- Where every free edge leaves from an interior vertex, it enters one. -/
theorem isInterior_dest (ht : t.Sound) (hu : t.Consistent u)
    (hinner : ∀ x, t.isInterior x → t.Agrees (t.net u x) 0)
    (horigin : ∀ e, u.isFree e → t.isInterior (t.origin e)) (he : u.isFree e) :
    t.isInterior (t.dest e) := by
  by_cases hd : t.directed
  · by_contra hv
    have hnone : ∀ v, ¬t.isInterior v → ∀ e ∈ t.freeIds u, t.origin e ≠ v := by
      rintro v hv e he rfl
      exact hv (horigin e (mem_freeIds.1 he).2)
    have hnoExcess : ∀ v, t.NoExcess (t.net u v) := by
      intro v
      by_cases hv : t.isInterior v
      · exact (hinner v hv).noExcess noExcess_zero
      · exact noExcess_of_no_free (hnone v hv)
    have hzero := agrees_zero_of_noExcess hnoExcess (t.dest e)
    have hout : ((t.freeIds u).countP fun f => (t.graph.edge f).origin == t.dest e) = 0 :=
      List.countP_eq_zero.2 fun f hf hfv => hnone _ hv f hf (beq_iff_eq.1 hfv)
    have hin : 0 < (t.freeIds u).countP fun f => (t.graph.edge f).dest == t.dest e :=
      List.countP_pos_iff.2 ⟨e, mem_freeIds.2 ⟨hu.lt he, he⟩, beq_iff_eq.2 rfl⟩
    rw [Agrees, net, if_pos hd, if_pos hd] at hzero
    omega
  · have hd : t.directed = false := by simpa using hd
    have hsibling := horigin (t.sibling e) ((hu.paired hd e (hu.lt he)).trans he)
    rw [origin, (ht.pairs hd).edge e (hu.lt he)] at hsibling
    exact hsibling

/-- Among interior vertices a path closes: its last edge is free before, so that it enters an interior
vertex. -/
theorem exists_closedPath (ht : t.Sound) (hu : t.Consistent u)
    (hinner : ∀ x, t.isInterior x → t.Agrees (t.net u x) 0)
    (horigin : ∀ e, u.isFree e → t.isInterior (t.origin e)) (he : u.isFree e) :
    ∃ l u', t.path (t.origin e) u e = .ok (e :: l, u') ∧ t.Consistent u' ∧
      t.Spends u (e :: l) u' ∧ Joins t.graph.edge (t.origin e) (e :: l) (t.origin e) := by
  obtain ⟨l, u', w, hpath, hu', hspends, hjoins, hend, -⟩ := exists_path ht (t.origin e) hu he
    fun x hx => (Int.sub_self _).symm ▸ hinner x hx
  have hw : w = t.origin e := by
    obtain ⟨front, last, hlast⟩ :=
      (List.eq_nil_or_concat' (e :: l)).resolve_left (List.cons_ne_nil e l)
    rw [hlast, joins_concat] at hjoins
    have hmem : last ∈ e :: l := by simp [hlast]
    obtain ⟨hlt, hfree⟩ := mem_freeIds.1 (hspends.mem_freeIds hmem)
    exact hend (hjoins.2 ▸ isInterior_dest ht hu hinner horigin hfree)
  exact ⟨l, u', hpath, hu', hspends, hw ▸ hjoins⟩

/-- Where every free edge leaves from an interior vertex, free edges that lead around are a path as soon
as they begin at their canonical start. -/
theorem isPath_canonicalLoop (ht : t.Sound) (hu : t.Consistent u)
    (hinner : ∀ x, t.isInterior x → t.Agrees (t.net u x) 0)
    (horigin : ∀ e, u.isFree e → t.isInterior (t.origin e)) (hl : ∀ e ∈ l, u.isFree e)
    (hjoins : Joins t.graph.edge v l v) : t.IsPath (canonicalLoop t.key l) := by
  obtain ⟨w, hloop⟩ := hjoins.isRotated (canonicalLoop_isRotated t.key l)
  refine .closed hloop (fun x hx => ?_) (canonicalLoop_canonicalLoop t.key l)
  obtain ⟨e, he, hex⟩ := visits_of_mem_vertices hx
  have hfree := hl e ((canonicalLoop_perm t.key l).mem_iff.1 he)
  rcases Edge.touches_iff.1 hex with rfl | rfl
  · exact horigin e hfree
  · exact isInterior_dest ht hu hinner horigin hfree

/-- Among interior vertices paths leave no edge behind. -/
theorem exists_closedPaths (ht : t.Sound) (hu : t.Consistent u)
    (hinner : ∀ x, t.isInterior x → t.Agrees (t.net u x) 0)
    (horigin : ∀ e, u.isFree e → t.isInterior (t.origin e)) (edges : List Nat) :
    ∃ lines u', t.closedPaths u edges = .ok (lines, u') ∧ t.Draws u lines u' ∧
      (∀ l ∈ lines, t.IsPath l) ∧ ∀ e ∈ edges, ¬u'.isFree e := by
  induction edges generalizing u with
  | nil =>
      exact ⟨[], u, rfl, .nil hu, fun l hl => absurd hl List.not_mem_nil,
        fun e he => absurd he List.not_mem_nil⟩
  | cons e edges ih =>
      by_cases hremaining : u.remaining = 0
      · refine ⟨[], u, ?_, .nil hu, fun l hl => absurd hl List.not_mem_nil,
          fun f _ => hu.not_isFree hremaining⟩
        rw [closedPaths, if_pos hremaining]
      · by_cases he : u.isFree e
        · obtain ⟨l, u₁, hpath, hu₁, hspends, hjoins⟩ :=
            exists_closedPath ht hu hinner horigin he
          have hinner₁ : ∀ x, t.isInterior x → t.Agrees (t.net u₁ x) 0 := by
            intro x hx
            have hmove := agrees_of_spends ht hspends hjoins (hinner x hx)
            rw [Int.sub_add_cancel] at hmove
            exact hmove
          obtain ⟨lines, u', hrest, hdraws, hpaths, hdone⟩ := ih hu₁ hinner₁ fun f hf =>
            horigin f (hspends.isFree (hu₁.lt hf) hf)
          obtain ⟨v, hloop⟩ := hjoins.isRotated (canonicalLoop_isRotated t.key (e :: l))
          have hperm := canonicalLoop_perm t.key (e :: l)
          have hfrees : ∀ f ∈ e :: l, u.isFree f := fun f hf =>
            (mem_freeIds.1 (hspends.mem_freeIds hf)).2
          have hclosed := isPath_canonicalLoop ht hu hinner horigin hfrees hjoins
          refine ⟨canonicalLoop t.key (e :: l) :: lines, u', ?_, ?_,
            List.forall_mem_cons.2 ⟨hclosed, hpaths⟩, ?_⟩
          · rw [closedPaths, if_neg hremaining, if_pos he, hpath]
            show (t.closedPaths u₁ edges >>= _) = _
            rw [hrest]
            rfl
          · refine hdraws.cons (hspends.of_perm hperm.symm) ⟨fun hnil => ?_, hloop.isChain⟩
            rw [hnil, List.nil_perm] at hperm
            cases hperm
          · refine List.forall_mem_cons.2 ⟨fun hfree => ?_, hdone⟩
            have hfree₁ := hdraws.spends.isFree (hu.lt he) hfree
            exact hspends.not_isFree List.mem_cons_self hfree₁
        · obtain ⟨lines, u', hrest, hdraws, hpaths, hdone⟩ := ih hu hinner horigin
          refine ⟨lines, u', ?_, hdraws, hpaths, List.forall_mem_cons.2 ⟨fun hfree => ?_, hdone⟩⟩
          · rw [closedPaths, if_neg hremaining, if_neg he, hrest]
          · exact he (hdraws.spends.isFree (hdraws.consistent.lt hfree) hfree)

theorem exists_isPath (ht : t.Sound) :
    ∃ lines, t.paths = .ok lines ∧ (∀ l ∈ lines, t.IsPath l) ∧
      (∀ l ∈ lines, IsPolyline t.graph.edge l) ∧ (t.both lines.flatten).Perm t.graph.edgeIds := by
  obtain ⟨opened, u₁, hopened, hdraws, hpaths, hinner, hdone⟩ := exists_openPaths ht
    (consistent_start ht) (fun x hx => agrees_start_of_isInterior ht hx) t.inputOrder
  have hu₁ := hdraws.consistent
  obtain ⟨closed, u₂, hclosed, hdraws', hpaths', hnone⟩ := exists_closedPaths ht hu₁ hinner
    (fun e he => hdone e ((mem_inputOrder ht).2 (hu₁.lt he)) he) t.inputOrder
  have hu₂ := hdraws'.consistent
  have hremaining : u₂.remaining = 0 := by
    apply hu₂.remaining_eq_zero
    intro e he
    exact hnone e ((mem_inputOrder ht).2 he)
  have hall := hdraws.append hdraws'
  refine ⟨opened ++ closed, ?_, List.forall_mem_append.2 ⟨hpaths, hpaths'⟩, hall.polylines,
    hall.spends.perm_edgeIds hu₂ hremaining⟩
  rw [paths, hopened]
  show (t.closedPaths u₁ t.inputOrder >>= _) = _
  rw [hclosed]
  exact if_pos hremaining

/-- Paths use every edge, or one of every pair of siblings, once. -/
theorem exists_paths (ht : t.Sound) :
    ∃ lines, t.paths = .ok lines ∧ (∀ l ∈ lines, IsPolyline t.graph.edge l) ∧
      (t.both lines.flatten).Perm t.graph.edgeIds := by
  obtain ⟨lines, hpaths, -, hspec⟩ := exists_isPath ht
  exact ⟨lines, hpaths, hspec⟩

end SnapGraph.Thread
