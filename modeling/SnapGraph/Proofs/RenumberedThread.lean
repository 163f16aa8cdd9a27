import Mathlib
import SnapGraph.Polyline
import SnapGraph.Proofs.Path
import SnapGraph.Proofs.Renumbering
import SnapGraph.Proofs.Walk

/-! Renumbering the vertices of a graph in order changes no polyline. Edges are looked up by vertex, found in
the same order under the old and the new number, and counted alike; what is kept for each vertex while
walks are drawn is kept under the number it has. So a thread through the renumbered graph takes every step
that the thread through the graph takes. -/

namespace SnapGraph

/-! ### Steps taken alike -/

/-- Both fail for the same reason, or both succeed with results in relation. -/
inductive Alike {ε α : Type} (R : α → α → Prop) : Except ε α → Except ε α → Prop
  | error (e : ε) : Alike R (.error e) (.error e)
  | ok {a a' : α} (h : R a a') : Alike R (.ok a) (.ok a')

namespace Alike

variable {ε α β : Type} {R : α → α → Prop} {S : β → β → Prop} {x x' : Except ε α}

theorem bind (h : Alike R x x') {f f' : α → Except ε β}
    (hf : ∀ a a', x = .ok a → R a a' → Alike S (f a) (f' a')) : Alike S (x >>= f) (x' >>= f') := by
  cases h with
  | error e => exact .error e
  | ok hR => exact hf _ _ rfl hR

/-- After one of two steps, chosen alike, both go on alike. -/
theorem bind_ite {c c' : Prop} [Decidable c] [Decidable c'] (hc : c ↔ c') (hx : Alike R x x')
    {y y' : Except ε α} (hy : Alike R y y') {f f' : α → Except ε β}
    (hf : ∀ a a', R a a' → Alike S (f a) (f' a')) :
    Alike S (if c then x >>= f else y >>= f) (if c' then x' >>= f' else y' >>= f') := by
  by_cases h : c
  · rw [if_pos h, if_pos (hc.1 h)]
    exact hx.bind fun a a' _ => hf a a'
  · rw [if_neg h, if_neg (mt hc.2 h)]
    exact hy.bind fun a a' _ => hf a a'

theorem map (h : Alike R x x') {f f' : α → β} (hf : ∀ a a', R a a' → S (f a) (f' a')) :
    Alike S (x.map f) (x'.map f') := by
  cases h with
  | error e => exact .error e
  | ok hR => exact .ok (hf _ _ hR)

theorem eq (h : Alike (· = ·) x x') : x = x' := by
  cases h with
  | error e => rfl
  | ok heq => rw [heq]

end Alike

namespace Thread

variable {old : Int → Int} {t t' : Thread} {u u' : Usage} {e : Nat} {l : List Nat} {v : Int}

/-! ### The recursions as steps -/

theorem walk_eq (t : Thread) (u : Usage) (v : Int) : t.walk u v =
    match t.leastEdge? ((t.incidence.outIds v).filter u.isFree) with
    | none => .ok ([], u)
    | some e =>
        if t.waitsAt u v (t.key e) then .ok ([], u)
        else (do
          let u ← t.mark u e
          (t.walk u (t.dest e)).map fun r => (e :: r.1, r.2)) := by
  rw [walk]
  cases t.leastEdge? ((t.incidence.outIds v).filter u.isFree) with
  | none => rfl
  | some e =>
      dsimp only
      split
      · rfl
      · split
        · rename_i f hmark
          rw [hmark]
          rfl
        · rename_i u₁ hmark
          rw [hmark]
          rfl

theorem splice_eq (t : Thread) (u : Usage) (v : Int) (rest : List Nat) : t.splice u v rest = (do
    let r ← t.walk u v
    if r.1.getLast?.all fun e => t.dest e == v then
      match r.1 ++ rest with
      | [] => .ok ([], r.2)
      | e :: rest => (t.splice r.2 (t.dest e) rest).map fun r => (e :: r.1, r.2)
    else .error .brokenPairing) := by
  rw [splice]
  split
  · rename_i f hwalk
    rw [hwalk]
    rfl
  · rename_i found u₁ hwalk
    rw [hwalk]
    show _ = if _ then _ else _
    split
    · split
      · rename_i hr
        dsimp only
        rw [hr]
      · rename_i e rest hr
        dsimp only
        rw [hr]
    · rfl

/-! ### What stays in step -/

/-- The tables of the second thread are those of the first, and its graph has the vertices renumbered. -/
structure Renumbers (old : Int → Int) (t t' : Thread) : Prop where
  graph : t.graph.toLayer.Renumbers old t'.graph.toLayer
  incidence : t.incidence = t.graph.incidence
  incidence' : t'.incidence = t'.graph.incidence
  sibling : t'.sibling = t.sibling
  ids : t'.ids = t.ids

/-- The same edges are used, and the vertices have the same balances. -/
structure InStep (old : Int → Int) (t t' : Thread) (u u' : Usage) : Prop where
  used : u'.used = u.used
  remaining : u'.remaining = u.remaining
  size : u.used.size = t.graph.numEdges
  balances : u.balance.size = t.graph.numVertices
  balances' : u'.balance.size = t'.graph.numVertices
  balance : ∀ v, t'.IsVertex v → u.balanceOf (old v) = u'.balanceOf v

theorem InStep.isFree (hu : InStep old t t' u u') : u.isFree = u'.isFree := by
  funext e
  rw [Usage.isFree, Usage.isFree, hu.used]

theorem InStep.lt (hu : InStep old t t' u u') (he : u'.isFree e) : e < t.graph.numEdges := by
  rw [← hu.size, ← hu.used]
  exact lt_size_of_isFree he

/-- A list of edges of the graph. -/
def HasEdges (t : Thread) (l : List Nat) : Prop := ∀ e ∈ l, e < t.graph.numEdges

/-- The same has been drawn, and both go on in step. -/
inductive DrawsAlike {α : Type} (old : Int → Int) (t t' : Thread) (P : α → Prop) :
    α × Usage → α × Usage → Prop
  | intro (a : α) {u u' : Usage} (ha : P a) (hu : InStep old t t' u u') :
      DrawsAlike old t t' P (a, u) (a, u')

namespace Renumbers

variable (h : Renumbers old t t')

include h

theorem numEdges : t'.graph.numEdges = t.graph.numEdges := h.graph.numEdges

theorem directed : t.directed = t'.directed := by
  rw [Thread.directed, Thread.directed, h.graph.options]

theorem key : t.key = t'.key := by
  funext e
  rw [Thread.key, Thread.key, h.ids]

theorem inputOrder : t.inputOrder = t'.inputOrder := by
  rw [Thread.inputOrder, Thread.inputOrder, h.ids]

theorem origin (he : e < t.graph.numEdges) : t.origin e = old (t'.origin e) := by
  rw [Thread.origin, h.graph.edge he]
  rfl

theorem dest (he : e < t.graph.numEdges) : t.dest e = old (t'.dest e) := by
  rw [Thread.dest, h.graph.edge he]
  rfl

theorem isVertex_origin (he : e < t.graph.numEdges) : t'.IsVertex (t'.origin e) :=
  Thread.isVertex_origin (h.numEdges.symm ▸ he)

theorem isVertex_dest (he : e < t.graph.numEdges) : t'.IsVertex (t'.dest e) :=
  Graph.mem_vertexIds.1 (Graph.mem_vertexIds_of_touches (h.numEdges.symm ▸ he)
    (Edge.touches_iff.2 (.inr rfl)))

theorem isVertex (hv : t'.IsVertex v) : t.IsVertex (old v) := by
  obtain ⟨hnonneg, hlt, -⟩ := h.graph.vertex v hv.1 hv.2
  exact ⟨hnonneg, hlt⟩

theorem beq_old (v w : Int) : (old v == old w) = (v == w) := by
  rw [Bool.eq_iff_iff, beq_iff_eq, beq_iff_eq]
  exact h.graph.strictMono.injective.eq_iff

/-! ### The edges at a vertex -/

theorem outIds (v : Int) : t.incidence.outIds (old v) = t'.incidence.outIds v := by
  rw [h.incidence, h.incidence', Graph.outIds_incidence, Graph.outIds_incidence, h.graph.edgeIds]
  refine List.filter_congr fun e he => ?_
  rw [h.graph.edge (t.graph.mem_edgeIds.1 he), Edge.map_origin, h.beq_old]

theorem inIds (v : Int) : t.incidence.inIds (old v) = t'.incidence.inIds v := by
  rw [h.incidence, h.incidence', Graph.inIds_incidence, Graph.inIds_incidence, h.graph.inEdgeIds]
  refine List.filter_congr fun e he => ?_
  rw [h.graph.edge (t.graph.inOrder_inEdgeIds.mem_iff.1 he), Edge.map_dest, h.beq_old]

theorem outDegree (v : Int) : t.incidence.outDegree (old v) = t'.incidence.outDegree v := by
  rw [Incidence.outDegree_eq_length, Incidence.outDegree_eq_length, h.outIds]

theorem inDegree (v : Int) : t.incidence.inDegree (old v) = t'.incidence.inDegree v := by
  rw [Incidence.inDegree_eq_length, Incidence.inDegree_eq_length, h.inIds]

theorem isInterior (v : Int) : t.isInterior (old v) = t'.isInterior v := by
  rw [Thread.isInterior, Thread.isInterior, h.directed, h.inDegree, h.outDegree]

theorem surplus (v : Int) : t.surplus (old v) = t'.surplus v := by
  rw [Thread.surplus, Thread.surplus, h.directed, h.inDegree, h.outDegree]

/-! ### Using edges -/

theorem start : InStep old t t' t.start t'.start where
  used := by rw [Thread.start, Thread.start, h.numEdges]
  remaining := by
    rw [Thread.start, Thread.start, h.directed, h.numEdges]
  size := Array.size_replicate
  balances := Array.size_replicate
  balances' := Array.size_replicate
  balance v _ := by rw [balanceOf_start, balanceOf_start]

theorem adjust (hu : InStep old t t' u u') (hv : t'.IsVertex v) (change : Int) :
    InStep old t t' (u.adjust (old v) change) (u'.adjust v change) where
  used := hu.used
  remaining := hu.remaining
  size := hu.size
  balances := (Array.size_modify ..).trans hu.balances
  balances' := (Array.size_modify ..).trans hu.balances'
  balance w hw := by
    rw [balanceOf_adjust hu.balances (h.isVertex hv) (h.isVertex hw),
      balanceOf_adjust hu.balances' hv hw, hu.balance w hw]
    simp only [h.graph.strictMono.injective.eq_iff]

/-- An edge that is used in one graph is used in the other. -/
theorem mark (hu : InStep old t t' u u') (e : Nat) :
    Alike (fun u u' => e < t.graph.numEdges ∧ InStep old t t' u u') (t.mark u e) (t'.mark u' e) := by
  unfold Thread.mark
  rw [hu.isFree, hu.remaining, hu.used, h.directed, h.sibling]
  split
  · rename_i hfree
    refine .ok ⟨hu.lt hfree.1, rfl, rfl, ?_, hu.balances, hu.balances', hu.balance⟩
    dsimp only
    split
    · exact Array.size_setIfInBounds.trans hu.size
    · exact (Array.size_setIfInBounds.trans Array.size_setIfInBounds).trans hu.size
  · exact .error _

/-! ### Paths -/

/-- A path goes on by the same edges. As the recursions follow edges that they mark, the proofs do too. -/
theorem path (start : Int) {u u' : Usage} (hu : InStep old t t' u u') (e : Nat) :
    Alike (DrawsAlike old t t' t.HasEdges) (t.path (old start) u e) (t'.path start u' e) := by
  rw [path_eq, path_eq]
  refine (h.mark hu e).bind ?_
  rintro u₁ u₁' hmark ⟨he, hu₁⟩
  have hsingle : t.HasEdges [e] := List.forall_mem_singleton.2 he
  rw [h.dest he, h.isInterior, h.beq_old, h.outIds, hu₁.isFree]
  split
  · exact .ok (.intro _ hsingle hu₁)
  · cases ((t'.incidence.outIds (t'.dest e)).filter u₁'.isFree).getLast? with
    | none => exact .ok (.intro _ hsingle hu₁)
    | some next =>
        refine (path start hu₁ next).map ?_
        rintro _ _ ⟨rest, hrest, hu₂⟩
        exact .intro _ (List.forall_mem_cons.2 ⟨he, hrest⟩) hu₂
termination_by u.free
decreasing_by exact free_mark_lt hmark

theorem openPaths (hu : InStep old t t' u u') (edges : List Nat) :
    Alike (DrawsAlike old t t' fun _ => True) (t.openPaths u edges) (t'.openPaths u' edges) := by
  induction edges generalizing u u' with
  | nil => exact .ok (.intro _ trivial hu)
  | cons e edges ih =>
      rw [Thread.openPaths, Thread.openPaths, hu.isFree]
      by_cases he : u'.isFree e
      · rw [h.origin (hu.lt he), h.isInterior]
        split
        · refine (h.path _ hu e).bind ?_
          rintro _ _ - ⟨p, -, hu₁⟩
          refine (ih hu₁).bind ?_
          rintro _ _ - ⟨ps, -, hu₂⟩
          exact .ok (.intro _ trivial hu₂)
        · exact ih hu
      · rw [Bool.not_eq_true] at he
        rw [he]
        exact ih hu

theorem closedPaths (hu : InStep old t t' u u') (edges : List Nat) :
    Alike (DrawsAlike old t t' fun _ => True) (t.closedPaths u edges) (t'.closedPaths u' edges) := by
  induction edges generalizing u u' with
  | nil => exact .ok (.intro _ trivial hu)
  | cons e edges ih =>
      rw [Thread.closedPaths, Thread.closedPaths, hu.isFree, hu.remaining, h.key]
      split
      · exact .ok (.intro _ trivial hu)
      · split
        · rename_i he
          rw [h.origin (hu.lt he)]
          refine (h.path _ hu e).bind ?_
          rintro _ _ - ⟨p, -, hu₁⟩
          refine (ih hu₁).bind ?_
          rintro _ _ - ⟨ps, -, hu₂⟩
          exact .ok (.intro _ trivial hu₂)
        · exact ih hu

theorem paths : t.paths = t'.paths := by
  refine Alike.eq ?_
  rw [Thread.paths, Thread.paths, h.inputOrder]
  refine (h.openPaths h.start t'.inputOrder).bind ?_
  rintro _ _ - ⟨opened, -, hu₁⟩
  refine (h.closedPaths hu₁ t'.inputOrder).bind ?_
  rintro _ _ - ⟨closed, -, hu₂⟩
  dsimp only
  rw [hu₂.remaining]
  split
  · exact .ok rfl
  · exact .error _

/-! ### Walks -/

theorem leastEdge? (l : List Nat) : t.leastEdge? l = t'.leastEdge? l := by
  induction l with
  | nil => rfl
  | cons e l ih => rw [Thread.leastEdge?, Thread.leastEdge?, ih, h.key]

theorem waitsAt (hu : InStep old t t' u u') (hv : t'.IsVertex v) (id : Int) :
    t.waitsAt u (old v) id = t'.waitsAt u' v id := by
  rw [Thread.waitsAt, Thread.waitsAt, h.surplus, hu.balance v hv, h.directed, h.inIds, hu.isFree, h.key]

/-- A walk goes on by the same edges and stops where a walk is to end under either number. -/
theorem walk {u u' : Usage} (hu : InStep old t t' u u') {v : Int} (hv : t'.IsVertex v) :
    Alike (DrawsAlike old t t' t.HasEdges) (t.walk u (old v)) (t'.walk u' v) := by
  have hnil : t.HasEdges [] := List.forall_mem_nil _
  rw [walk_eq, walk_eq, h.outIds, hu.isFree, h.leastEdge?, h.key]
  cases t'.leastEdge? ((t'.incidence.outIds v).filter u'.isFree) with
  | none => exact .ok (.intro _ hnil hu)
  | some e =>
      dsimp only
      rw [h.waitsAt hu hv]
      split
      · exact .ok (.intro _ hnil hu)
      · refine (h.mark hu e).bind ?_
        rintro u₁ u₁' hmark ⟨he, hu₁⟩
        rw [h.dest he]
        refine (walk hu₁ (h.isVertex_dest he)).map ?_
        rintro _ _ ⟨rest, hrest, hu₂⟩
        exact .intro _ (List.forall_mem_cons.2 ⟨he, hrest⟩) hu₂
termination_by u.free
decreasing_by exact free_mark_lt hmark

theorem beginsAt (hu : InStep old t t' u u') (hv : t'.IsVertex v) :
    t.beginsAt u (old v) = t'.beginsAt u' v := by
  rw [Thread.beginsAt, Thread.beginsAt, h.surplus, hu.balance v hv, h.directed]

theorem openWalks (hu : InStep old t t' u u') (edges : List Nat) :
    Alike (DrawsAlike old t t' fun ws => ∀ w ∈ ws, t.HasEdges w) (t.openWalks u edges)
      (t'.openWalks u' edges) := by
  induction edges generalizing u u' with
  | nil => exact .ok (.intro _ (List.forall_mem_nil _) hu)
  | cons e edges ih =>
      rw [Thread.openWalks, Thread.openWalks, hu.isFree]
      by_cases he : u'.isFree e
      · have hlt := hu.lt he
        have hv := h.isVertex_origin hlt
        rw [h.origin hlt, h.beginsAt hu hv]
        split
        · refine (h.walk (h.adjust hu hv 1) hv).bind ?_
          rintro _ _ - ⟨w, hw, hu₁⟩
          dsimp only
          split
          · rename_i last hlast
            have hlt := hw last (List.mem_of_getLast? hlast)
            rw [h.dest hlt]
            refine (ih (h.adjust hu₁ (h.isVertex_dest hlt) (-1))).bind ?_
            rintro _ _ - ⟨ws, hws, hu₂⟩
            exact .ok (.intro _ (List.forall_mem_cons.2 ⟨hw, hws⟩) hu₂)
          · exact ih (h.adjust hu₁ hv (-1))
        · exact ih hu
      · rw [Bool.not_eq_true] at he
        rw [he]
        exact ih hu

/-- The same closed walks are spliced in. -/
theorem splice {u u' : Usage} (hu : InStep old t t' u u') {v : Int} (hv : t'.IsVertex v)
    {rest : List Nat} (hrest : t.HasEdges rest) :
    Alike (DrawsAlike old t t' t.HasEdges) (t.splice u (old v) rest) (t'.splice u' v rest) := by
  rw [splice_eq, splice_eq]
  refine (h.walk hu hv).bind ?_
  rintro _ _ hwalk ⟨found, hfound, hu₁⟩
  have hcloses : (found.getLast?.all fun e => t.dest e == old v) =
      found.getLast?.all fun e => t'.dest e == v := by
    cases hlast : found.getLast? with
    | none => rfl
    | some last =>
        rw [Option.all_some, Option.all_some, h.dest (hfound last (List.mem_of_getLast? hlast)), h.beq_old]
  rw [hcloses]
  split
  · cases hr : found ++ rest with
    | nil => exact .ok (.intro _ (List.forall_mem_nil _) hu₁)
    | cons e onward =>
        have hall : t.HasEdges (e :: onward) := hr ▸ List.forall_mem_append.2 ⟨hfound, hrest⟩
        obtain ⟨he, honward⟩ := List.forall_mem_cons.1 hall
        dsimp only
        rw [h.dest he]
        refine (splice hu₁ (h.isVertex_dest he) honward).map ?_
        rintro _ _ ⟨spliced, hspliced, hu₂⟩
        exact .intro _ (List.forall_mem_cons.2 ⟨he, hspliced⟩) hu₂
  · exact .error _
termination_by u.free + rest.length
decreasing_by
  have := free_walk_le t hwalk
  have := congrArg List.length hr
  simp only [List.length_append, List.length_cons] at this
  omega

theorem maximize (hu : InStep old t t' u u') {w : List Nat} (hw : t.HasEdges w) :
    Alike (DrawsAlike old t t' t.HasEdges) (t.maximize u w) (t'.maximize u' w) := by
  cases w with
  | nil => exact .ok (.intro _ hw hu)
  | cons e w =>
      have he := (List.forall_mem_cons.1 hw).1
      rw [Thread.maximize, Thread.maximize, h.origin he]
      exact h.splice hu (h.isVertex_origin he) hw

theorem maximizeAll (hu : InStep old t t' u u') {ws : List (List Nat)} (hws : ∀ w ∈ ws, t.HasEdges w) :
    Alike (DrawsAlike old t t' fun _ => True) (t.maximizeAll u ws) (t'.maximizeAll u' ws) := by
  induction ws generalizing u u' with
  | nil => exact .ok (.intro _ trivial hu)
  | cons w ws ih =>
      obtain ⟨hw, hws⟩ := List.forall_mem_cons.1 hws
      rw [Thread.maximizeAll, Thread.maximizeAll]
      refine (h.maximize hu hw).bind ?_
      rintro _ _ - ⟨w', -, hu₁⟩
      refine (ih hu₁ hws).bind ?_
      rintro _ _ - ⟨ws', -, hu₂⟩
      exact .ok (.intro _ trivial hu₂)

theorem countP_beq {ends ends' : Nat → Int} (hends : ∀ e < t.graph.numEdges, ends e = old (ends' e))
    (hl : t.HasEdges l) (v : Int) :
    (l.countP fun e => ends e == old v) = l.countP fun e => ends' e == v := by
  refine List.countP_congr fun e he => ?_
  rw [hends e (hl e he), h.beq_old]

theorem startsInputChain (hu : InStep old t t' u u') (he : u'.isFree e) (edges : List Nat) :
    t.startsInputChain u (e :: edges) = t'.startsInputChain u' (e :: edges) := by
  have hlt := hu.lt he
  have hrun : t.HasEdges (((e :: edges).takeWhile fun f => t'.key f == t'.key e).filter u'.isFree) :=
    fun f hf => hu.lt (List.mem_filter.1 hf).2
  rw [Thread.startsInputChain, Thread.startsInputChain, h.key, hu.isFree, h.origin hlt, h.dest hlt,
    h.beq_old, h.countP_beq (fun _ => h.origin) hrun, h.countP_beq (fun _ => h.dest) hrun]

theorem closedWalk (hu : InStep old t t' u u') (hv : t'.IsVertex v) :
    Alike (DrawsAlike old t t' fun _ => True) (t.closedWalk u (old v)) (t'.closedWalk u' v) := by
  rw [Thread.closedWalk, Thread.closedWalk]
  refine (h.walk hu hv).bind ?_
  rintro _ _ - ⟨w, hw, hu₁⟩
  dsimp only
  split
  · exact .ok (.intro _ trivial hu₁)
  · refine (h.maximize hu₁ hw).bind ?_
    rintro _ _ - ⟨w', -, hu₂⟩
    exact .ok (.intro _ trivial hu₂)

theorem closedWalks {starts starts' : Usage → List Nat → Bool}
    (hstarts : ∀ u u' e edges, InStep old t t' u u' → u'.isFree e →
      starts u (e :: edges) = starts' u' (e :: edges))
    (hu : InStep old t t' u u') (edges : List Nat) :
    Alike (DrawsAlike old t t' fun _ => True) (t.closedWalks starts u edges)
      (t'.closedWalks starts' u' edges) := by
  induction edges generalizing u u' with
  | nil => exact .ok (.intro _ trivial hu)
  | cons e edges ih =>
      rw [Thread.closedWalks, Thread.closedWalks, hu.isFree, hu.remaining]
      split
      · exact .ok (.intro _ trivial hu)
      · by_cases he : u'.isFree e
        · have hlt := hu.lt he
          rw [hstarts u u' e edges hu he, h.origin hlt]
          split
          · refine (h.closedWalk hu (h.isVertex_origin hlt)).bind ?_
            rintro _ _ - ⟨w, -, hu₁⟩
            refine (ih hu₁).bind ?_
            rintro _ _ - ⟨ws, -, hu₂⟩
            exact .ok (.intro _ trivial hu₂)
          · exact ih hu
        · rw [Bool.not_eq_true] at he
          rw [he]
          exact ih hu

theorem walks : t.walks = t'.walks := by
  refine Alike.eq ?_
  rw [Thread.walks, Thread.walks, h.inputOrder]
  refine (h.openWalks h.start t'.inputOrder).bind ?_
  rintro ⟨opened, u₁⟩ ⟨_, u₁'⟩ - ⟨_, hopened, hu₁⟩
  dsimp only
  refine Alike.bind_ite (by rw [hu₁.remaining]) (.ok (.intro _ trivial hu₁))
    (h.maximizeAll hu₁ hopened) ?_
  rintro _ _ ⟨opened, -, hu₂⟩
  refine (h.closedWalks (fun _ _ _ edges hu he => h.startsInputChain hu he edges) hu₂ _).bind ?_
  rintro _ _ - ⟨chained, -, hu₃⟩
  refine (h.closedWalks (fun _ _ _ _ _ _ => rfl) hu₃ _).bind ?_
  rintro _ _ - ⟨others, -, hu₄⟩
  dsimp only
  rw [hu₄.remaining]
  split
  · exact .ok rfl
  · exact .error _

end Renumbers

end Thread

/-! ### Polylines -/

section Polylines

variable {old : Int → Int} {g g' : Graph} (h : g.toLayer.Renumbers old g'.toLayer)

include h

theorem Layer.Renumbers.thread : Alike (Thread.Renumbers old) g.thread g'.thread := by
  have htables : ∀ sibling : Nat → Nat, Alike (Thread.Renumbers old)
      (g.minInputIds >>= fun ids => .ok ⟨g, g.incidence, sibling, ids⟩)
      (g'.minInputIds >>= fun ids => .ok ⟨g', g'.incidence, sibling, ids⟩) := by
    intro sibling
    rw [h.minInputIds]
    cases g.minInputIds with
    | error f => exact .error f
    | ok ids => exact .ok ⟨h, rfl, rfl, rfl, rfl⟩
  rw [Graph.thread, Graph.thread, h.options, h.siblingOf]
  split
  · exact htables id
  · cases g.siblingOf with
    | error f => exact .error f
    | ok sibling => exact htables sibling

/-- The same polylines are assembled, or the same precondition is found broken. -/
theorem Layer.Renumbers.polylines_eq (kind : PolylineKind) : g.polylines kind = g'.polylines kind := by
  rw [Graph.polylines, Graph.polylines, h.options]
  split
  · rfl
  · refine (h.thread.bind ?_).eq
    rintro t t' - ht
    cases kind with
    | path =>
        dsimp only
        rw [ht.paths, ht.key]
        cases t'.paths with
        | error f => exact .error f
        | ok chains => exact .ok rfl
    | walk =>
        dsimp only
        rw [ht.walks, ht.key]
        cases t'.walks with
        | error f => exact .error f
        | ok chains => exact .ok rfl

end Polylines

end SnapGraph
