import Mathlib
import SnapGraph.Workspace
import SnapGraph.Proofs.Build

/-! The way back from edges to input edges and labels. An input edge starts with its place as its only id,
and cleaning unites ids of one directed edge only, so an edge stands for input edges equal to it. Input
ids are 32-bit integers, and there are fewer sets to store than input edges, so no set gets the handle
of the empty one. -/

namespace SnapGraph

/-! ### Handles of input edges -/

section StartRows

open Layer

variable {o : Options} {inputs : List Edge}

/-- Before cleaning, a handle names one input edge or none. -/
theorem exists_find_of_mem_handlesOf {e : Edge} {handle : Int}
    (h : handle ∈ handlesOf (startRows o inputs) e) (s : IdSets) :
    ∃ set, s.find handle = .ok set ∧ ∀ id ∈ set.toList, ∃ i : Nat, id = i ∧ inputs[i]? = some e := by
  obtain ⟨t, ht, rfl⟩ := List.mem_map.1 h
  obtain ⟨ht, hedge⟩ := List.mem_filter.1 ht
  rcases mem_inputRows_iff.1 (List.mem_of_mem_filter ht) with ⟨i, hi, hitem⟩ | ⟨-, -, hitem⟩
  · rw [beq_iff_eq.1 hedge] at hi
    rw [hitem]
    refine ⟨.single i, if_pos (Int.natCast_nonneg i), fun id hid => ⟨i, ?_, hi⟩⟩
    exact List.mem_singleton.1 hid
  · rw [hitem]
    exact ⟨.empty, rfl, List.forall_mem_nil _⟩

theorem natCast_mem_handlesOf {e : Edge} {i : Nat} (hproper : e.isDegenerate = false)
    (hi : inputs[i]? = some e) : (i : Int) ∈ handlesOf (startRows o inputs) e := by
  have hrow : (⟨e, i⟩ : Row) ∈ startRows o inputs := by
    refine List.mem_filter.2 ⟨mem_inputRows_iff.2 (.inl ⟨i, hi, rfl⟩), decide_eq_true ?_⟩
    rintro rfl
    cases hproper
  exact List.mem_map.2 ⟨⟨e, i⟩, List.mem_filter.2 ⟨hrow, beq_iff_eq.2 rfl⟩, rfl⟩

end StartRows

/-- Of an edge between two vertices copies are left, unless siblings cancel. -/
theorem Options.properCopies_pos {o : Options} (hsiblings : o.siblings ≠ .discard) {n : Nat}
    (hn : 0 < n) (m : Nat) : 0 < o.properCopies n m := by
  unfold properCopies capped
  cases hs : o.siblings with
  | discard => exact absurd hs hsiblings
  | keep =>
      dsimp only
      split
      · omega
      · exact hn
  | require | create =>
      dsimp only
      split
      · rw [if_pos (by omega)]
        exact Nat.one_pos
      · split
        · omega
        · omega

namespace Layer.IsBuilt

variable {o : Options} {vertices : Array Point} {inputs : List Edge} {labels : List (List Int)}
  {c : Cleaned} {l : Layer} (h : IsBuilt o vertices inputs labels c l)

include h

theorem keepsInputs (hlen : inputs.length < 2 ^ 31) :
    KeepsInputs o .empty (startRows o inputs) c :=
  h.cleaned.keepsInputs reservedEdge_not_mem_startRows
    (fun _ ht => knows_of_mem_startRows ht .empty) (h.sets_fit hlen)

/-- The ids of a cleaned edge are places of input edges equal to it. -/
theorem exists_find (hlen : inputs.length < 2 ^ 31) {t : Row} (ht : t ∈ c.rows) :
    ∃ set, c.sets.find t.item = .ok set ∧
      ∀ id ∈ set.toList, ∃ i : Nat, id = i ∧ inputs[i]? = some t.edge := by
  have hkeeps := h.keepsInputs hlen
  have hmem : t.item ∈ handlesOf c.rows t.edge :=
    List.mem_map_of_mem (List.mem_filter.2 ⟨ht, beq_iff_eq.2 rfl⟩)
  by_cases hcopied : o.KeepsCopies t.edge
  · obtain ⟨created, hhandles⟩ := hkeeps.copied t.edge hcopied
    rw [hhandles] at hmem
    rcases List.mem_append.1 hmem with hmem | hmem
    · exact exists_find_of_mem_handlesOf hmem c.sets
    · rw [List.eq_of_mem_replicate hmem]
      exact ⟨.empty, rfl, List.forall_mem_nil _⟩
  · obtain ⟨set, hset, hids⟩ := hkeeps.united t.edge hcopied t.item hmem
    refine ⟨set, hset, fun id hid => ?_⟩
    obtain ⟨handle, hhandle, part, hpart, hid⟩ := (hids id).1 hid
    obtain ⟨part', hpart', hplaces⟩ := exists_find_of_mem_handlesOf hhandle .empty
    cases hpart.symm.trans hpart'
    exact hplaces id hid

/-- Unless siblings cancel, some cleaned edge stands for an input edge between two vertices. -/
theorem exists_row (hlen : inputs.length < 2 ^ 31) (hsiblings : o.siblings ≠ .discard) {i : Nat}
    {e : Edge} (hi : inputs[i]? = some e) (hproper : e.isDegenerate = false) :
    ∃ t ∈ c.rows, ∃ set, c.sets.find t.item = .ok set ∧ (i : Int) ∈ set.toList := by
  have hkeeps := h.keepsInputs hlen
  have hstart : (i : Int) ∈ handlesOf (startRows o inputs) e := natCast_mem_handlesOf hproper hi
  have hsingle : ∀ s : IdSets, s.find i = .ok (.single i) := fun s => if_pos (Int.natCast_nonneg i)
  by_cases hcopied : o.KeepsCopies e
  · obtain ⟨created, hhandles⟩ := hkeeps.copied e hcopied
    have hmem : (i : Int) ∈ handlesOf c.rows e := hhandles ▸ List.mem_append_left _ hstart
    obtain ⟨t, ht, hitem⟩ := List.mem_map.1 hmem
    rw [← hitem] at hsingle
    exact ⟨t, List.mem_of_mem_filter ht, _, hsingle _, hitem ▸ List.mem_singleton_self _⟩
  · have hpos : 0 < (c.rows.map Tagged.edge).count e := by
      rw [h.cleaned.count, Options.copiesLeft, hproper, if_neg Bool.false_ne_true]
      refine Options.properCopies_pos hsiblings ?_ _
      rw [count_startRows_of_proper hproper]
      have := List.count_pos_iff.2 (List.mem_of_getElem? hi)
      omega
    obtain ⟨t, ht, rfl⟩ := List.mem_map.1 (List.count_pos_iff.1 hpos)
    obtain ⟨set, hset, hids⟩ := hkeeps.united t.edge hcopied t.item
      (List.mem_map_of_mem (List.mem_filter.2 ⟨ht, beq_iff_eq.2 rfl⟩))
    exact ⟨t, ht, set, hset, (hids i).2 ⟨i, hstart, .single i, hsingle _, List.mem_singleton_self _⟩⟩

end Layer.IsBuilt

/-! ### Labels -/

theorem Layer.getElem?_paddedLabels {n i : Nat} (hi : i < n) (labels : List (List Int)) :
    (paddedLabels n labels)[i]? = some (labels.getD i []) := by
  rw [paddedLabels, List.getD_eq_getElem?_getD]
  by_cases hgiven : i < labels.length
  · rw [List.getElem?_append_left (by rw [List.length_take]; omega), List.getElem?_take_of_lt hi,
      List.getElem?_eq_getElem hgiven, Option.getD_some]
  · rw [List.getElem?_append_right (by rw [List.length_take]; omega), List.getElem?_replicate,
      if_pos (by rw [List.length_take]; omega),
      List.getElem?_eq_none (Nat.le_of_not_lt hgiven), Option.getD_none]

/-- What a graph knows of its input edges: every edge has ids of input edges equal to it, in either
direction only; an input edge between two vertices has its id at some edge, unless siblings cancel; and
an edge shows, in ascending order, the labels of these input edges, whatever was shown before. -/
structure Graph.TracesInputs (g : Graph) (inputs : List Edge) (labels : List (List Int)) : Prop where
  ids : ∀ e < g.numEdges, ∃ set, g.inputIds e = .ok set ∧
    ∀ id ∈ set.toList, ∃ i : Nat, id = i ∧ inputs[i]? = some (g.edge e)
  kept : g.options.siblings ≠ .discard → ∀ (i : Nat) (f : Edge), inputs[i]? = some f →
    f.isDegenerate = false →
      ∃ e < g.numEdges, ∃ set, g.inputIds e = .ok set ∧ (i : Int) ∈ set.toList
  labels : ∀ (w : Workspace), ∀ e < g.numEdges, ∀ set, g.inputIds e = .ok set →
    ∃ shown, w.showLabels g e = .ok { w with labels := shown } ∧ shown.Pairwise (· < ·) ∧
      ∀ label, label ∈ shown ↔ ∃ i : Nat, (i : Int) ∈ set.toList ∧ label ∈ labels.getD i []

section Traces

variable {o : Options} {vertices : Array Point} {inputs : List Edge} {labels : List (List Int)}
  {c : Cleaned} {g : Graph} (h : Layer.IsBuilt o vertices inputs labels c g.toLayer)

include h

theorem Layer.IsBuilt.numEdges : g.numEdges = c.rows.length := by
  rw [Graph.numEdges, h.edges, List.size_toArray, List.length_map]

/-- An edge of the graph with the handle of its input ids is a cleaned row. -/
theorem Layer.IsBuilt.edge_getElem {e : Nat} (he : e < c.rows.length) :
    g.edge e = c.rows[e].edge ∧ g.inputIds e = c.sets.find c.rows[e].item := by
  constructor
  · rw [Graph.edge, h.edges, Array.getD_eq_getD_getElem?, List.getElem?_toArray, List.getElem?_map,
      List.getElem?_eq_getElem he]
    rfl
  · rw [Graph.inputIds, h.inputHandles, h.inputSets, Array.getD_eq_getD_getElem?,
      List.getElem?_toArray, List.getElem?_map, List.getElem?_eq_getElem he]
    rfl

/-- The labels of an input edge are the ones it was given. -/
theorem Layer.IsBuilt.exists_labels (hlen : inputs.length < 2 ^ 31) {i : Nat}
    (hi : i < inputs.length) :
    ∃ set, g.labels? i = .ok set ∧ set.toList = ascending (labels.getD i []) := by
  obtain ⟨handle, set, hhandle, hset, hlist⟩ := IdSets.exists_find_of_addAll h.labels
    (h.labelSets_fit hlen) (getElem?_paddedLabels hi labels)
  refine ⟨set, ?_, hlist⟩
  rw [Array.getElem?_toList] at hhandle
  obtain ⟨hlt, -⟩ := Array.getElem?_eq_some_iff.1 hhandle
  rw [Graph.labels?, Graph.labelHandle?, indexOf_natCast hlt]
  show g.labelSets.find (g.labelHandles.getD i IdSets.emptyId) = _
  rw [Array.getD_eq_getD_getElem?, hhandle]
  exact hset

/-- An edge shows the labels of the input edges it stands for. -/
theorem Layer.IsBuilt.exists_shown (hlen : inputs.length < 2 ^ 31) (w : Workspace) {e : Nat}
    (he : e < g.numEdges) {set : IdSet} (hset : g.inputIds e = .ok set)
    (hplaces : ∀ id ∈ set.toList, ∃ i : Nat, id = i ∧ i < inputs.length) :
    ∃ shown, w.showLabels g e = .ok { w with labels := shown } ∧ shown.Pairwise (· < ·) ∧
      ∀ label, label ∈ shown ↔ ∃ i : Nat, (i : Int) ∈ set.toList ∧ label ∈ labels.getD i [] := by
  have hlabels : ∀ id ∈ set.toList, ∃ labelled, g.labels? id = .ok labelled ∧
      labelled.toList = ascending (labels.getD id.toNat []) := by
    intro id hid
    obtain ⟨i, rfl, hi⟩ := hplaces id hid
    exact h.exists_labels hlen hi
  have : Nonempty IdSet := ⟨.empty⟩
  choose! labelled hfind hlist using hlabels
  refine ⟨ascending ((set.toList.map labelled).flatMap IdSet.toList), ?_, pairwise_ascending _,
    fun label => ?_⟩
  · have hsize : e < g.inputHandles.size := by
      rw [g.size_inputHandles]
      exact he
    rw [Workspace.showLabels, Graph.edgeLabels?, Graph.inputHandle?, indexOf_natCast hsize]
    show ((g.inputIds e >>= fun inputs => _) >>= _) = _
    rw [hset]
    show ((set.toList.mapM g.labels? >>= _) >>= _) = _
    rw [mapM_eq_ok hfind]
    rfl
  · rw [mem_ascending, List.flatMap_map, List.mem_flatMap]
    constructor
    · rintro ⟨id, hid, hlabel⟩
      obtain ⟨i, rfl, -⟩ := hplaces id hid
      rw [hlist _ hid, mem_ascending] at hlabel
      exact ⟨i, hid, hlabel⟩
    · rintro ⟨i, hi, hlabel⟩
      refine ⟨i, hi, ?_⟩
      rw [hlist _ hi, mem_ascending]
      exact hlabel

theorem Layer.IsBuilt.tracesInputs (hlen : inputs.length < 2 ^ 31) :
    g.TracesInputs inputs labels := by
  have hids : ∀ e < g.numEdges, ∃ set, g.inputIds e = .ok set ∧
      ∀ id ∈ set.toList, ∃ i : Nat, id = i ∧ inputs[i]? = some (g.edge e) := by
    intro e he
    rw [h.numEdges] at he
    rw [(h.edge_getElem he).1, (h.edge_getElem he).2]
    exact h.exists_find hlen (List.getElem_mem he)
  refine ⟨hids, fun hsiblings i f hi hproper => ?_, fun w e he set hset => ?_⟩
  · rw [h.options_eq, Options.siblings_afterCleaning] at hsiblings
    obtain ⟨t, ht, set, hset, hmem⟩ := h.exists_row hlen hsiblings hi hproper
    obtain ⟨e, he, rfl⟩ := List.mem_iff_getElem.1 ht
    refine ⟨e, ?_, set, ?_, hmem⟩
    · rw [h.numEdges]
      exact he
    · rw [(h.edge_getElem he).2, hset]
  · refine h.exists_shown hlen w he hset fun id hid => ?_
    obtain ⟨set', hset', hplaces⟩ := hids e he
    cases hset.symm.trans hset'
    obtain ⟨i, rfl, hi⟩ := hplaces id hid
    exact ⟨i, rfl, (List.getElem?_eq_some_iff.1 hi).1⟩

end Traces

/-- The graph of every layer that building makes knows its input edges and their labels. -/
theorem Layer.build_tracesInputs {o : Options} {vertices : Array Point} {inputs : List Edge}
    {labels : List (List Int)} {l : Layer} (hlen : inputs.length < 2 ^ 31)
    (h : build o vertices inputs labels = .ok l) :
    ∃ g, l.graph = .ok g ∧ g.TracesInputs inputs labels := by
  obtain ⟨-, c, hbuilt⟩ := exists_isBuilt_of_build h
  let g : Graph := ⟨l, hbuilt.check⟩
  have hg : IsBuilt o vertices inputs labels c g.toLayer := hbuilt
  exact ⟨g, graph_eq hbuilt.check, hg.tracesInputs hlen⟩

/-- An undirected edge snapped three times, twice in one direction, whose copies are merged. -/
theorem Layer.build_tracesInputs_mergedEdge :
    ([⟨0, 1⟩, ⟨1, 0⟩, ⟨0, 1⟩] : List Edge).length < 2 ^ 31 ∧
    ∃ l, build { edgeType := .undirected, duplicates := .merge } #[default, default]
        [⟨0, 1⟩, ⟨1, 0⟩, ⟨0, 1⟩] [[7, 3], [5], [3, 4]] = .ok l ∧
      ∃ g, l.graph = .ok g ∧
        g.TracesInputs [⟨0, 1⟩, ⟨1, 0⟩, ⟨0, 1⟩] [[7, 3], [5], [3, 4]] := by
  have hrange : ∀ e ∈ ([⟨0, 1⟩, ⟨1, 0⟩, ⟨0, 1⟩] : List Edge),
      e.inRange (#[default, default] : Array Point).size := by decide
  have hlabels : ∀ set ∈ [[7, 3], [5], [3, 4]], ∀ label ∈ set, (0 : Int) ≤ label := by decide
  obtain ⟨l, c, hbuild, -⟩ := exists_isBuilt
    (o := { edgeType := .undirected, duplicates := .merge }) hrange
    (fun hmisses => nomatch hmisses.1) hlabels
  exact ⟨by decide, l, hbuild, build_tracesInputs (by decide) hbuild⟩

end SnapGraph
