import Mathlib
import SnapGraph.Sibling
import SnapGraph.Proofs.Graph

/-! A sibling map lists the edge ids by destination, like the table it is made of: exchanging the
entries of a pair of degenerate edges leaves the same edge in both places. Where every edge between
two vertices occurs as often as its reverse, the map pairs the edges up. -/

namespace SnapGraph

namespace Graph

variable (g : Graph)

theorem edge_of_drop {i k : Nat} {e : Edge} (h : (g.edges.toList.drop i)[k]? = some e) :
    g.edge (i + k) = e := by
  rw [List.getElem?_drop, Array.getElem?_toList] at h
  unfold edge
  rw [Array.getD_eq_getD_getElem?, h, Option.getD_some]

/-- The edge after the first of a pair is the other one: the id that follows it stands between the two
ids of the pair, or is the second of them. -/
theorem edge_eq_of_pair {done ids : List Nat} {i b : Nat} (hlt : i + 1 < g.numEdges)
    (hpair : g.edge (i + 1) = g.edge i) (hall : ∀ e < g.numEdges, e ∈ done ++ i :: b :: ids)
    (hsorted : (done ++ i :: b :: ids).Pairwise fun a b =>
      (g.edge a).reverse ≤ (g.edge b).reverse ∧ (g.edge a = g.edge b → a < b)) :
    g.edge b = g.edge i := by
  obtain ⟨-, htail, hcross⟩ := List.pairwise_append.1 hsorted
  obtain ⟨hi, htail⟩ := List.pairwise_cons.1 htail
  have hib : (g.edge i).reverse ≤ (g.edge b).reverse := (hi b List.mem_cons_self).1
  have hbi : (g.edge b).reverse ≤ (g.edge (i + 1)).reverse := by
    rcases List.mem_append.1 (hall (i + 1) hlt) with hmem | hmem
    · have := (hcross _ hmem i List.mem_cons_self).2 hpair
      omega
    · rcases List.mem_cons.1 hmem with heq | hmem
      · omega
      · rcases List.mem_cons.1 hmem with rfl | hmem
        · exact Edge.le_refl _
        · exact ((List.pairwise_cons.1 htail).1 _ hmem).1
  rw [hpair] at hbi
  exact Edge.reverse_inj.1 (Edge.le_antisymm hbi hib)

/-- Exchanging puts the same edges in the same places. -/
theorem exists_swapDegenerates {i : Nat} {edges : List Edge} {done ids : List Nat}
    {swapped : List Int} (hedges : edges = g.edges.toList.drop i)
    (hall : ∀ e < g.numEdges, e ∈ done ++ ids)
    (hsorted : (done ++ ids).Pairwise fun a b =>
      (g.edge a).reverse ≤ (g.edge b).reverse ∧ (g.edge a = g.edge b → a < b))
    (h : swapDegenerates i edges (ids.map Int.ofNat) = .ok swapped) :
    ∃ ids' : List Nat,
      swapped = ids'.map Int.ofNat ∧ ids'.Perm ids ∧ ids'.map g.edge = ids.map g.edge := by
  generalize hints : ids.map Int.ofNat = ints at h
  fun_induction swapDegenerates i edges ints generalizing done ids swapped with
  | case1 i ints =>
      cases h
      exact ⟨ids, hints.symm, .refl _, rfl⟩
  | case2 i e hdeg e' rest a b ints hpair ih =>
      match ids, hints with
      | a' :: b' :: ids, hints =>
          obtain ⟨rfl, rfl, rfl⟩ : Int.ofNat a' = a ∧ Int.ofNat b' = b ∧ ids.map Int.ofNat = ints := by
            simpa using hints
          obtain ⟨rfl, ha⟩ := hpair
          obtain rfl : a' = i := Int.ofNat.inj ha
          obtain ⟨tail, htail, hswapped⟩ := bind_eq_ok_iff.1 h
          cases hswapped
          have hfirst : g.edge a' = e' := g.edge_of_drop (k := 0) (by rw [← hedges]; rfl)
          have hsecond : g.edge (a' + 1) = e' := g.edge_of_drop (k := 1) (by rw [← hedges]; rfl)
          have hlt : a' + 1 < g.numEdges := by
            have hlen := congrArg List.length hedges
            simp only [List.length_cons, List.length_drop, Array.length_toList] at hlen
            unfold numEdges
            omega
          have hb : g.edge b' = g.edge a' :=
            g.edge_eq_of_pair hlt (hsecond.trans hfirst.symm) hall hsorted
          have hrest : rest = g.edges.toList.drop (a' + 2) := by
            rw [← List.drop_drop, ← hedges]
            rfl
          rw [List.append_cons, List.append_cons] at hall hsorted
          obtain ⟨ids', rfl, hperm, hmap⟩ := ih hrest hall hsorted rfl htail
          refine ⟨b' :: a' :: ids', rfl, ?_, ?_⟩
          · exact (List.Perm.swap _ _ _).trans ((hperm.cons _).cons _)
          · simp only [List.map_cons, hmap, hb]
  | case3 => cases h
  | case4 => cases h
  | case5 i e rest hdeg ih =>
      have hrest : rest = g.edges.toList.drop (i + 1) := by
        rw [← List.drop_drop, ← hedges]
        rfl
      exact ih hrest hall hsorted hints h
  | case6 i e rest hdeg a ints ih =>
      match ids, hints with
      | a' :: ids, hints =>
          obtain ⟨rfl, rfl⟩ : Int.ofNat a' = a ∧ ids.map Int.ofNat = ints := by
            simpa using hints
          obtain ⟨tail, htail, hswapped⟩ := bind_eq_ok_iff.1 h
          cases hswapped
          have hrest : rest = g.edges.toList.drop (i + 1) := by
            rw [← List.drop_drop, ← hedges]
            rfl
          rw [List.append_cons] at hall hsorted
          obtain ⟨ids', rfl, hperm, hmap⟩ := ih hrest hall hsorted rfl htail
          exact ⟨a' :: ids', rfl, hperm.cons _, by simp only [List.map_cons, hmap]⟩

/-- A sibling map stands in the order of the reversed edges. -/
theorem exists_siblingMap {ids : List Int} (h : g.siblingMap = .ok ids) :
    ∃ inIds : List Nat, ids = inIds.map Int.ofNat ∧ g.InOrder inIds := by
  have hin := g.inOrder_inEdgeIds
  unfold siblingMap makeSiblingMap at h
  split at h
  · split at h
    · cases h
      exact ⟨g.inEdgeIds, rfl, hin⟩
    · have hall : ∀ e < g.numEdges, e ∈ [] ++ g.inEdgeIds := fun e he => hin.mem_iff.2 he
      obtain ⟨inIds, hids, hperm, hmap⟩ :=
        g.exists_swapDegenerates rfl hall g.pairwise_inEdgeIds h
      exact ⟨inIds, hids, hin.of_map_edge_eq hperm hmap⟩
  · cases h

/-! ### Pairs -/

/-- Every edge has a sibling, which is another edge that runs the other way. -/
structure Pairs (sibling : Nat → Nat) : Prop where
  lt : ∀ e < g.numEdges, sibling e < g.numEdges
  edge : ∀ e < g.numEdges, g.edge (sibling e) = (g.edge e).reverse
  involutive : ∀ e < g.numEdges, sibling (sibling e) = e
  ne : ∀ e < g.numEdges, sibling e ≠ e

theorem map_reverse_perm_iff : (g.edges.toList.map Edge.reverse).Perm g.edges.toList ↔
    ∀ e : Edge, g.edges.toList.count e = g.edges.toList.count e.reverse :=
  Edge.map_reverse_perm_iff

/-- Going to the sibling twice permutes the edge ids and keeps their order, so it moves none. -/
theorem sibling_sibling {sibling : Nat → Nat} (hlt : ∀ e < g.numEdges, sibling e < g.numEdges)
    (hedge : ∀ e < g.numEdges, g.edge (sibling e) = (g.edge e).reverse)
    (hmono : ∀ a b, a < b → b < g.numEdges → g.edge a = g.edge b → sibling a < sibling b)
    (hperm : (g.edgeIds.map sibling).Perm g.edgeIds) {e : Nat} (he : e < g.numEdges) :
    sibling (sibling e) = e := by
  have hback : ∀ e < g.numEdges, g.edge (sibling (sibling e)) = g.edge e := by
    intro e he
    rw [hedge _ (hlt e he), hedge e he, Edge.reverse_reverse]
  have hsorted : (g.edgeIds.map fun e => sibling (sibling e)).Pairwise (· < ·) := by
    refine List.pairwise_map.2 (List.pairwise_lt_range.imp_of_mem fun ha hb hab => ?_)
    rename_i a b
    have ha := List.mem_range.1 ha
    have hb := List.mem_range.1 hb
    by_cases heq : g.edge a = g.edge b
    · have hsiblings : g.edge (sibling a) = g.edge (sibling b) := by
        rw [hedge a ha, hedge b hb, heq]
      exact hmono _ _ (hmono a b hab hb heq) (hlt b hb) hsiblings
    · apply g.lt_of_edge_lt (hlt _ (hlt a ha))
      rw [hback a ha, hback b hb]
      exact Edge.lt_iff_le_and_ne.2 ⟨g.edge_le_edge hab.le hb, heq⟩
  have hmem : ∀ f, f ∈ (g.edgeIds.map fun e => sibling (sibling e)) ↔ f ∈ g.edgeIds := by
    intro f
    have htwice := (hperm.map sibling).trans hperm
    rw [List.map_map] at htwice
    exact htwice.mem_iff
  have hsame := List.Pairwise.eq_of_mem_iff hsorted List.pairwise_lt_range hmem
  have hplace := congrArg (·[e]?) hsame
  simpa [edgeIds, List.getElem?_range he] using hplace

variable {g}

section InOrder

variable {inIds : List Nat} (hin : g.InOrder inIds)

include hin

theorem InOrder.length_eq : inIds.length = g.numEdges := by
  rw [hin.perm.length_eq, edgeIds, List.length_range]

theorem InOrder.getElem?_eq {e : Nat} (he : e < g.numEdges) :
    inIds[e]? = some (inIds.getD e 0) := by
  have hlt : e < inIds.length := hin.length_eq ▸ he
  rw [List.getD_eq_getElem _ _ hlt, List.getElem?_eq_getElem hlt]

theorem InOrder.getD_lt {e : Nat} (he : e < g.numEdges) : inIds.getD e 0 < g.numEdges :=
  hin.mem_iff.1 (List.mem_of_getElem? (hin.getElem?_eq he))

theorem InOrder.map_getD : (g.edgeIds.map fun e => inIds.getD e 0) = inIds := by
  apply List.ext_getElem (by rw [List.length_map, hin.perm.length_eq])
  intro e _ he
  simp only [List.getElem_map, edgeIds, List.getElem_range]
  exact List.getD_eq_getElem _ _ he

/-- Sorted by their reverses, the edges stand where their reverses stand in the edge table. -/
theorem InOrder.edge_getD
    (hpaired : ∀ e : Edge, g.edges.toList.count e = g.edges.toList.count e.reverse) {e : Nat}
    (he : e < g.numEdges) : g.edge (inIds.getD e 0) = (g.edge e).reverse := by
  have hedges : (g.edgeIds.map fun e => (g.edge e).reverse) = g.edges.toList.map Edge.reverse := by
    rw [← map_edge_edgeIds, List.map_map]
    rfl
  have hperm : (inIds.map fun e => (g.edge e).reverse).Perm g.edges.toList :=
    (hin.perm.map _).trans (hedges ▸ g.map_reverse_perm_iff.2 hpaired)
  have hmap := hperm.eq_of_pairwise' (List.pairwise_map.2 hin.sorted) g.pairwise_edges
  have hplace := congrArg (·[e]?) hmap
  simp only [List.getElem?_map, hin.getElem?_eq he, Option.map_some,
    Array.getElem?_toList, Array.getElem?_eq_getElem he, Option.some.injEq] at hplace
  rw [← Edge.reverse_inj, Edge.reverse_reverse, hplace, g.edge_eq_getElem he]

end InOrder

section Paired

variable (hpaired : ∀ e : Edge, g.edges.toList.count e = g.edges.toList.count e.reverse)

include hpaired

/-- Among the ids by destination, the siblings of the copies of an edge ascend. -/
theorem getD_inEdgeIds_lt {a b : Nat} (hab : a < b) (hb : b < g.numEdges)
    (heq : g.edge a = g.edge b) : g.inEdgeIds.getD a 0 < g.inEdgeIds.getD b 0 := by
  have hin := g.inOrder_inEdgeIds
  have ha := hab.trans hb
  have hlt : ∀ e < g.numEdges, e < g.inEdgeIds.length := fun e he => hin.length_eq ▸ he
  have hpair := List.pairwise_iff_getElem.1 g.pairwise_inEdgeIds a b (hlt a ha) (hlt b hb) hab
  rw [← List.getD_eq_getElem _ 0 (hlt a ha), ← List.getD_eq_getElem _ 0 (hlt b hb),
    hin.edge_getD hpaired ha, hin.edge_getD hpaired hb] at hpair
  exact hpair.2 (congrArg Edge.reverse heq)

theorem getD_getD_inEdgeIds {e : Nat} (he : e < g.numEdges) :
    g.inEdgeIds.getD (g.inEdgeIds.getD e 0) 0 = e := by
  have hin := g.inOrder_inEdgeIds
  have hperm : (g.edgeIds.map fun e => g.inEdgeIds.getD e 0).Perm g.edgeIds := by
    rw [hin.map_getD]
    exact hin.perm
  exact @sibling_sibling g (fun e => g.inEdgeIds.getD e 0) (fun e => hin.getD_lt)
    (fun e => hin.edge_getD hpaired) (fun a b => getD_inEdgeIds_lt hpaired) hperm e he

/-- The `k`-th copy of an edge and the `k`-th copy of its reverse are each other's siblings. -/
theorem pairs_inEdgeIds (hproper : ∀ e < g.numEdges, (g.edge e).isDegenerate = false) :
    g.Pairs fun e => g.inEdgeIds.getD e 0 := by
  have hin := g.inOrder_inEdgeIds
  refine ⟨fun e => hin.getD_lt, fun e => hin.edge_getD hpaired,
    fun e => getD_getD_inEdgeIds hpaired, fun e he heq => ?_⟩
  have hreverse := hin.edge_getD hpaired he
  rw [heq] at hreverse
  have := Edge.reverse_eq_self_iff.1 hreverse.symm
  rw [hproper e he] at this
  cases this

/-- A degenerate edge stands at its own place: the order of its copies is turned round twice. -/
theorem getD_inEdgeIds_of_isDegenerate {e : Nat} (he : e < g.numEdges)
    (hdegenerate : (g.edge e).isDegenerate) : g.inEdgeIds.getD e 0 = e := by
  have hin := g.inOrder_inEdgeIds
  have hedge : g.edge (g.inEdgeIds.getD e 0) = g.edge e := by
    rw [hin.edge_getD hpaired he, Edge.reverse_eq_self_iff.2 hdegenerate]
  have hback := getD_getD_inEdgeIds hpaired he
  rcases Nat.lt_trichotomy (g.inEdgeIds.getD e 0) e with hlt | heq | hlt
  · have := getD_inEdgeIds_lt hpaired hlt he hedge
    omega
  · exact heq
  · have := getD_inEdgeIds_lt hpaired hlt (hin.getD_lt he) hedge.symm
    omega

end Paired

variable (g)

/-- Without degenerate edges there is nothing to exchange. -/
theorem swapDegenerates_of_proper {edges : List Edge} (h : ∀ e ∈ edges, e.isDegenerate = false)
    (i : Nat) (ids : List Int) : swapDegenerates i edges ids = .ok ids := by
  induction edges generalizing i ids with
  | nil => rfl
  | cons e edges ih =>
      obtain ⟨he, hedges⟩ := List.forall_mem_cons.1 h
      unfold swapDegenerates
      rw [if_neg (Bool.eq_false_iff.1 he)]
      cases ids with
      | nil => exact ih hedges _ _
      | cons a ids =>
          dsimp only
          rw [ih hedges]
          rfl

/-- The sibling map of an undirected graph without degenerate edges. -/
theorem siblingMap_undirected (hundirected : g.options.isUndirected)
    (hdegenerates : g.options.degenerates = .discard) :
    g.siblingMap = .ok (g.inEdgeIds.map Int.ofNat) := by
  unfold siblingMap makeSiblingMap
  rw [if_pos (Options.guaranteesSiblings_of_isUndirected hundirected), if_pos]
  simp [hdegenerates]

variable {g} in
theorem siblingMap_of_proper (hsiblings : g.options.guaranteesSiblings)
    (hproper : ∀ e < g.numEdges, (g.edge e).isDegenerate = false) :
    g.siblingMap = .ok (g.inEdgeIds.map Int.ofNat) := by
  have hedges : ∀ e ∈ g.edges.toList, e.isDegenerate = false := by
    intro e he
    rw [← map_edge_edgeIds] at he
    obtain ⟨i, hi, rfl⟩ := List.mem_map.1 he
    exact hproper i (g.mem_edgeIds.1 hi)
  unfold siblingMap makeSiblingMap
  rw [if_pos hsiblings]
  split
  · rfl
  · exact swapDegenerates_of_proper hedges 0 _

variable {g} in
/-- The sibling of an edge stands at its place in the sibling map. -/
theorem siblingOf_of_siblingMap {inIds : List Nat} (h : g.siblingMap = .ok (inIds.map Int.ofNat)) :
    g.siblingOf = .ok fun e => inIds.getD e 0 := by
  unfold siblingOf
  rw [h]
  refine congrArg Except.ok (funext fun e => ?_)
  show ((inIds.map Int.ofNat).toArray.getD e 0).toNat = inIds.getD e 0
  rw [Array.getD_eq_getD_getElem?, List.getElem?_toArray, List.getElem?_map, List.getD_eq_getElem?_getD]
  cases inIds[e]? with
  | none => rfl
  | some s => rfl

theorem siblingOf_undirected (hundirected : g.options.isUndirected)
    (hdegenerates : g.options.degenerates = .discard) :
    g.siblingOf = .ok fun e => g.inEdgeIds.getD e 0 :=
  siblingOf_of_siblingMap (g.siblingMap_undirected hundirected hdegenerates)

variable {g} in
theorem siblingOf_of_proper (hsiblings : g.options.guaranteesSiblings)
    (hproper : ∀ e < g.numEdges, (g.edge e).isDegenerate = false) :
    g.siblingOf = .ok fun e => g.inEdgeIds.getD e 0 :=
  siblingOf_of_siblingMap (siblingMap_of_proper hsiblings hproper)

/-! ### Degenerate edges in pairs -/

/-- Lists in which every degenerate edge stands next to the other one of its pair. -/
inductive Coupled : List Edge → Prop
  | nil : Coupled []
  | proper {e : Edge} {rest : List Edge} :
      e.isDegenerate = false → Coupled rest → Coupled (e :: rest)
  | pair {e : Edge} {rest : List Edge} :
      e.isDegenerate = true → Coupled rest → Coupled (e :: e :: rest)

theorem coupled_of_even {edges : List Edge} (hsorted : edges.Pairwise (· ≤ ·))
    (heven : ∀ e : Edge, e.isDegenerate → edges.count e % 2 = 0) : Coupled edges := by
  induction hn : edges.length using Nat.strong_induction_on generalizing edges with
  | _ n ih =>
      match edges with
      | [] => exact .nil
      | e :: rest =>
          subst hn
          obtain ⟨hle, hrest⟩ := List.pairwise_cons.1 hsorted
          cases hdegenerate : e.isDegenerate with
          | false =>
              refine .proper hdegenerate (ih _ (Nat.lt_succ_self _) hrest (fun f hf => ?_) rfl)
              have hne : e ≠ f := fun heq => by simp [heq, hf] at hdegenerate
              rw [← List.count_cons_of_ne hne]
              exact heven f hf
          | true =>
              have hcount := heven e hdegenerate
              rw [List.count_cons_self] at hcount
              have hmem : e ∈ rest := List.count_pos_iff.1 (by omega)
              match rest with
              | f :: rest =>
                  have hfe : f ≤ e := by
                    rcases List.mem_cons.1 hmem with rfl | hmem
                    · exact Edge.le_refl _
                    · exact List.rel_of_pairwise_cons hrest hmem
                  obtain rfl := Edge.le_antisymm (hle f List.mem_cons_self) hfe
                  refine .pair hdegenerate (ih _ (by simp) hrest.tail (fun g hg => ?_) rfl)
                  have hg := heven g hg
                  rw [List.count_cons, List.count_cons] at hg
                  split at hg
                  · omega
                  · omega

/-- If degenerate edges stand for themselves and in pairs, exchanging succeeds: it leaves the other
edges where they are, and each edge of a pair stands for the other one. -/
theorem Coupled.exists_swapDegenerates {edges : List Edge} (h : Coupled edges) {i : Nat}
    {ids : List Nat} (hlen : edges.length = ids.length)
    (hself : ∀ (k : Nat) (e : Edge), edges[k]? = some e → e.isDegenerate → ids[k]? = some (i + k)) :
    ∃ ids' : List Nat, swapDegenerates i edges (ids.map Int.ofNat) = .ok (ids'.map Int.ofNat) ∧
      (∀ (k : Nat) (e : Edge), edges[k]? = some e → e.isDegenerate = false → ids'[k]? = ids[k]?) ∧
      ∀ (k : Nat) (e : Edge), edges[k]? = some e → e.isDegenerate →
        ∃ j, j ≠ k ∧ ids'[k]? = some (i + j) ∧ ids'[j]? = some (i + k) := by
  induction h generalizing i ids with
  | nil => exact ⟨ids, rfl, by simp, by simp⟩
  | @proper e rest hproper _ ih =>
      match ids, hlen with
      | a :: ids, hlen =>
          have hself : ∀ (k : Nat) (f : Edge), rest[k]? = some f → f.isDegenerate →
              ids[k]? = some (i + 1 + k) := by
            intro k f hf hdegenerate
            rw [Nat.add_right_comm]
            exact hself (k + 1) f hf hdegenerate
          obtain ⟨ids', hswap, hkeep, hpair⟩ := ih (Nat.succ.inj hlen) hself
          refine ⟨a :: ids', ?_, fun k f hf hf' => ?_, fun k f hf hf' => ?_⟩
          · unfold swapDegenerates
            rw [if_neg (Bool.eq_false_iff.1 hproper), List.map_cons]
            dsimp only
            rw [hswap]
            rfl
          · cases k with
            | zero => rfl
            | succ k => exact hkeep k f hf hf'
          · cases k with
            | zero =>
                cases hf
                rw [hproper] at hf'
                cases hf'
            | succ k =>
                obtain ⟨j, hne, hk, hj⟩ := hpair k f hf hf'
                refine ⟨j + 1, by omega, hk.trans ?_, hj.trans ?_⟩
                · rw [Nat.add_right_comm, Nat.add_assoc]
                · rw [Nat.add_right_comm, Nat.add_assoc]
  | @pair e rest hdegenerate _ ih =>
      match ids, hlen with
      | a :: b :: ids, hlen =>
          obtain rfl : a = i := Option.some.inj (hself 0 e rfl hdegenerate)
          obtain rfl : b = a + 1 := Option.some.inj (hself 1 e rfl hdegenerate)
          have hself : ∀ (k : Nat) (f : Edge), rest[k]? = some f → f.isDegenerate →
              ids[k]? = some (a + 2 + k) := by
            intro k f hf hdegenerate
            rw [Nat.add_right_comm]
            exact hself (k + 2) f hf hdegenerate
          obtain ⟨ids', hswap, hkeep, hpair⟩ := ih (Nat.succ.inj (Nat.succ.inj hlen)) hself
          refine ⟨(a + 1) :: a :: ids', ?_, fun k f hf hf' => ?_, fun k f hf hf' => ?_⟩
          · unfold swapDegenerates
            rw [if_pos hdegenerate, List.map_cons, List.map_cons]
            dsimp only
            rw [if_pos ⟨rfl, rfl⟩, hswap]
            rfl
          · match k, hf with
            | 0, hf => simp [← Option.some.inj hf, hdegenerate] at hf'
            | 1, hf => simp [← Option.some.inj hf, hdegenerate] at hf'
            | k + 2, hf => exact hkeep k f hf hf'
          · match k, hf with
            | 0, _ => exact ⟨1, by omega, rfl, rfl⟩
            | 1, _ => exact ⟨0, by omega, rfl, rfl⟩
            | k + 2, hf =>
                obtain ⟨j, hne, hk, hj⟩ := hpair k f hf hf'
                refine ⟨j + 2, by omega, hk.trans ?_, hj.trans ?_⟩
                · rw [Nat.add_right_comm, Nat.add_assoc]
                · rw [Nat.add_right_comm, Nat.add_assoc]

/-- A graph with paired edges has a sibling map, an involution in which edges between two vertices
stand where they stand among the ids by destination; the pairs of undirected degenerate edges are
exchanged. -/
theorem exists_siblingMap_of_even (hguarantees : g.options.guaranteesSiblings)
    (hpaired : ∀ e : Edge, g.edges.toList.count e = g.edges.toList.count e.reverse)
    (heven : g.options.isUndirected → ∀ v, g.edges.toList.count ⟨v, v⟩ % 2 = 0) :
    ∃ inIds : List Nat, g.siblingMap = .ok (inIds.map Int.ofNat) ∧ g.InOrder inIds ∧
      (∀ e < g.numEdges, (g.edge e).isDegenerate = false →
        inIds.getD e 0 = g.inEdgeIds.getD e 0) ∧
      (∀ e < g.numEdges, inIds.getD (inIds.getD e 0) 0 = e) ∧
      (g.options.isUndirected → g.options.degenerates ≠ .discard →
        ∀ e < g.numEdges, (g.edge e).isDegenerate → inIds.getD e 0 ≠ e) := by
  have hin := g.inOrder_inEdgeIds
  by_cases hswaps : g.options.isDirected || g.options.degenerates = .discard
  · refine ⟨g.inEdgeIds, ?_, hin, fun _ _ _ => rfl, fun e => getD_getD_inEdgeIds hpaired,
      fun hundirected hkept => ?_⟩
    · rw [siblingMap, makeSiblingMap, if_pos hguarantees, if_pos hswaps]
    · rw [g.options.isUndirected_iff] at hundirected
      simp [hundirected, hkept] at hswaps
  · have hundirected : g.options.isUndirected := by
      rw [Bool.or_eq_true, not_or, Bool.not_eq_true] at hswaps
      exact g.options.isUndirected_iff.2 hswaps.1
    have hcoupled : Coupled g.edges.toList := by
      apply coupled_of_even g.pairwise_edges
      intro e he
      have hloop : (⟨e.origin, e.origin⟩ : Edge) = e :=
        Edge.ext_iff'.2 ⟨rfl, Edge.isDegenerate_iff.1 he⟩
      exact hloop ▸ heven hundirected e.origin
    have hself : ∀ (k : Nat) (e : Edge), g.edges.toList[k]? = some e → e.isDegenerate →
        g.inEdgeIds[k]? = some (0 + k) := by
      intro k e hk hdegenerate
      obtain ⟨hlt, rfl⟩ := List.getElem?_eq_some_iff.1 hk
      have hlt : k < g.numEdges := by rwa [Array.length_toList] at hlt
      have hplace := getD_inEdgeIds_of_isDegenerate hpaired hlt
        ((g.edge_eq_getElem hlt).symm ▸ hdegenerate)
      rw [hin.getElem?_eq hlt, hplace, Nat.zero_add]
    obtain ⟨inIds, hswap, hkeep, hpair⟩ := hcoupled.exists_swapDegenerates hin.length_eq.symm hself
    have hmap : g.siblingMap = .ok (inIds.map Int.ofNat) := by
      rw [siblingMap, makeSiblingMap, if_pos hguarantees, if_neg hswaps, hswap]
    obtain ⟨inIds', heq, hin'⟩ := g.exists_siblingMap hmap
    obtain rfl := List.map_injective_iff.2 (fun _ _ => Int.ofNat.inj) heq
    have hget : ∀ e < g.numEdges, g.edges.toList[e]? = some (g.edge e) := fun e he => by
      rw [Array.getElem?_toList, Array.getElem?_eq_getElem he, g.edge_eq_getElem he]
    have hsame : ∀ e < g.numEdges, (g.edge e).isDegenerate = false →
        inIds.getD e 0 = g.inEdgeIds.getD e 0 := by
      intro e he hproper
      rw [List.getD_eq_getElem?_getD, List.getD_eq_getElem?_getD, hkeep e _ (hget e he) hproper]
    have hother : ∀ e < g.numEdges, (g.edge e).isDegenerate →
        inIds.getD e 0 ≠ e ∧ inIds.getD (inIds.getD e 0) 0 = e := by
      intro e he hdegenerate
      obtain ⟨j, hne, hej, hje⟩ := hpair e _ (hget e he) hdegenerate
      rw [Nat.zero_add] at hej hje
      rw [List.getD_eq_getElem?_getD, hej, Option.getD_some, List.getD_eq_getElem?_getD, hje]
      exact ⟨hne, rfl⟩
    refine ⟨inIds, hmap, hin', hsame, fun e he => ?_, fun _ _ e he hdegenerate =>
      (hother e he hdegenerate).1⟩
    by_cases hdegenerate : (g.edge e).isDegenerate
    · exact (hother e he hdegenerate).2
    · have hproper : (g.edge (g.inEdgeIds.getD e 0)).isDegenerate = false := by
        rw [hin.edge_getD hpaired he, Edge.isDegenerate_reverse]
        simpa using hdegenerate
      rw [hsame e he (by simpa using hdegenerate), hsame _ (hin.getD_lt he) hproper]
      exact getD_getD_inEdgeIds hpaired he

/-! ### The promise of a sibling map -/

/-- The ids of the copies of an edge, in ascending order. -/
def copiesOf (g : Graph) (e : Edge) : List Nat := g.edgeIds.filter fun i => g.edge i == e

variable {g} in
theorem mem_copiesOf {e : Edge} {i : Nat} : i ∈ g.copiesOf e ↔ i < g.numEdges ∧ g.edge i = e := by
  rw [copiesOf, List.mem_filter, mem_edgeIds, beq_iff_eq]

theorem pairwise_copiesOf (e : Edge) : (g.copiesOf e).Pairwise (· < ·) :=
  List.pairwise_lt_range.filter _

/-- What a sibling map promises where edges are paired up: an edge and its sibling stand for each
other and run opposite ways, copies of an edge between two vertices are matched in order, and no
undirected edge is its own sibling. -/
structure IsSiblingMap (siblings : List Nat) : Prop where
  perm : siblings.Perm g.edgeIds
  involutive : ∀ e < g.numEdges, siblings.getD (siblings.getD e 0) 0 = e
  edge : ∀ e < g.numEdges, g.edge (siblings.getD e 0) = (g.edge e).reverse
  copies : ∀ e : Edge, e.isDegenerate = false →
    (g.copiesOf e).map (siblings.getD · 0) = g.copiesOf e.reverse
  ne : g.options.isUndirected → ∀ e < g.numEdges, siblings.getD e 0 ≠ e

variable {g} in
/-- The siblings of the copies of an edge are the copies of its reverse, in order. -/
theorem map_copiesOf {siblings : List Nat}
    (hpaired : ∀ e : Edge, g.edges.toList.count e = g.edges.toList.count e.reverse)
    (hin : g.InOrder siblings)
    (hsame : ∀ e < g.numEdges, (g.edge e).isDegenerate = false →
      siblings.getD e 0 = g.inEdgeIds.getD e 0)
    (hinvolutive : ∀ e < g.numEdges, siblings.getD (siblings.getD e 0) 0 = e) {e : Edge}
    (hproper : e.isDegenerate = false) :
    (g.copiesOf e).map (siblings.getD · 0) = g.copiesOf e.reverse := by
  have hsorted : ((g.copiesOf e).map (siblings.getD · 0)).Pairwise (· < ·) := by
    refine List.pairwise_map.2 ((g.pairwise_copiesOf e).imp_of_mem fun {a b} ha hb hab => ?_)
    obtain ⟨ha, hea⟩ := mem_copiesOf.1 ha
    obtain ⟨hb, heb⟩ := mem_copiesOf.1 hb
    rw [hsame a ha (hea ▸ hproper), hsame b hb (heb ▸ hproper)]
    exact getD_inEdgeIds_lt hpaired hab hb (hea.trans heb.symm)
  refine hsorted.eq_of_mem_iff (g.pairwise_copiesOf _) fun i => ?_
  rw [List.mem_map, mem_copiesOf]
  constructor
  · rintro ⟨a, ha, rfl⟩
    obtain ⟨hlt, rfl⟩ := mem_copiesOf.1 ha
    exact ⟨hin.getD_lt hlt, hin.edge_getD hpaired hlt⟩
  · rintro ⟨hi, hedge⟩
    refine ⟨siblings.getD i 0, mem_copiesOf.2 ⟨hin.getD_lt hi, ?_⟩, hinvolutive i hi⟩
    rw [hin.edge_getD hpaired hi, hedge, Edge.reverse_reverse]

/-- The sibling map of a graph in which every edge between two vertices occurs as often as its reverse
and every undirected degenerate edge an even number of times. -/
theorem exists_isSiblingMap (hguarantees : g.options.guaranteesSiblings)
    (hpaired : ∀ u v : Int, u ≠ v → g.edges.toList.count ⟨u, v⟩ = g.edges.toList.count ⟨v, u⟩)
    (heven : g.options.isUndirected → ∀ v, g.edges.toList.count ⟨v, v⟩ % 2 = 0)
    (hnone : g.options.isUndirected → g.options.degenerates = .discard →
      ∀ v, g.edges.toList.count ⟨v, v⟩ = 0) :
    ∃ siblings : List Nat, g.siblingMap = .ok (siblings.map Int.ofNat) ∧ g.IsSiblingMap siblings := by
  have hpaired : ∀ e : Edge, g.edges.toList.count e = g.edges.toList.count e.reverse := by
    intro e
    by_cases hdegenerate : e.origin = e.dest
    · rw [Edge.reverse_eq_self_iff.2 (Edge.isDegenerate_iff.2 hdegenerate)]
    · exact hpaired e.origin e.dest hdegenerate
  obtain ⟨siblings, hmap, hin, hsame, hinvolutive, hexchanged⟩ :=
    g.exists_siblingMap_of_even hguarantees hpaired heven
  refine ⟨siblings, hmap, hin.perm, hinvolutive, fun e => hin.edge_getD hpaired, fun e hproper =>
    map_copiesOf hpaired hin hsame hinvolutive hproper, fun hundirected e he heq => ?_⟩
  -- An edge that is its own sibling runs both ways.
  have hreverse := hin.edge_getD hpaired he
  rw [heq] at hreverse
  have hdegenerate := Edge.reverse_eq_self_iff.1 hreverse.symm
  by_cases hdiscard : g.options.degenerates = .discard
  · have hcount := hnone hundirected hdiscard (g.edge e).origin
    have hloop : (⟨(g.edge e).origin, (g.edge e).origin⟩ : Edge) = g.edge e :=
      Edge.ext_iff'.2 ⟨rfl, Edge.isDegenerate_iff.1 hdegenerate⟩
    rw [hloop, List.count_eq_zero] at hcount
    exact hcount (g.edge_mem he)
  · exact hexchanged hundirected hdiscard e he hdegenerate heq

/-- An edge between two vertices and a loop, each twice. -/
def doubledEdgeAndLoop : Graph where
  options := { edgeType := .undirected, degenerates := .keep }
  vertices := #[default, default]
  edges := #[⟨0, 0⟩, ⟨0, 0⟩, ⟨0, 1⟩, ⟨0, 1⟩, ⟨1, 0⟩, ⟨1, 0⟩]
  inputHandles := #[0, 0, 1, 2, 1, 2]
  inputSets := .empty
  labelHandles := #[]
  labelSets := .empty
  valid := rfl

theorem exists_isSiblingMap_doubledEdgeAndLoop :
    ∃ siblings : List Nat, doubledEdgeAndLoop.siblingMap = .ok (siblings.map Int.ofNat) ∧
      doubledEdgeAndLoop.IsSiblingMap siblings := by
  have hpaired := doubledEdgeAndLoop.map_reverse_perm_iff.1 (by decide)
  have heven : ∀ v : Int, doubledEdgeAndLoop.edges.toList.count ⟨v, v⟩ % 2 = 0 := by
    intro v
    by_cases hv : v = 0
    · subst hv
      rfl
    · rw [List.count_eq_zero_of_not_mem]
      simp [doubledEdgeAndLoop, hv]
  exact exists_isSiblingMap _ rfl (fun u v _ => hpaired ⟨u, v⟩) (fun _ => heven)
    fun _ hdiscard => absurd hdiscard (by decide)

end Graph

end SnapGraph
