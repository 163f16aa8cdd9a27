import Mathlib
import SnapGraph.Proofs.Graph
import SnapGraph.Proofs.Provenance
import SnapGraph.Proofs.Settled

/-! How layers are built. Undirected input edges enter cleaning together with their reverses, so that their
copies come in pairs and cleaning cannot fail. Its numbers of copies then grant what the options promise
of a layer: edges between its vertices, in order, with the degenerate ones discarded, copies merged,
siblings cancelled or paired up. -/

namespace SnapGraph

theorem Edge.inRange_reverse {n : Nat} {e : Edge} : e.reverse.inRange n ↔ e.inRange n := by
  rw [inRange_iff, inRange_iff]
  exact and_comm

/-! ### Rows of input edges -/

namespace Layer

theorem inputRows_eq_flatMap (u : Bool) (i : Nat) (inputs : List Edge) :
    inputRows u i inputs = (inputs.zipIdx i).flatMap fun x =>
      ⟨x.1, (x.2 : Int)⟩ :: if u then [⟨x.1.reverse, IdSets.emptyId⟩] else [] := by
  induction inputs generalizing i with
  | nil => rfl
  | cons e inputs ih =>
      rw [inputRows, ih, List.zipIdx_cons, List.flatMap_cons]
      cases u with
      | false => rfl
      | true => rfl

section InputRows

variable {u : Bool} {inputs : List Edge}

/-- A row holds an input edge with its id or, where edges are undirected, a reversed one without ids. -/
theorem mem_inputRows_iff {t : Row} : t ∈ inputRows u 0 inputs ↔
    (∃ i : Nat, inputs[i]? = some t.edge ∧ t.item = i) ∨
      u ∧ t.edge.reverse ∈ inputs ∧ t.item = IdSets.emptyId := by
  rw [inputRows_eq_flatMap, List.mem_flatMap]
  constructor
  · rintro ⟨⟨e, i⟩, hx, ht⟩
    have he := List.mem_zipIdx_iff_getElem?.1 hx
    rcases List.mem_cons.1 ht with rfl | ht
    · exact .inl ⟨i, he, rfl⟩
    · cases u with
      | false => cases ht
      | true =>
          rw [List.eq_of_mem_singleton ht]
          exact .inr ⟨rfl, List.mem_of_getElem? he, rfl⟩
  · rintro (⟨i, he, hitem⟩ | ⟨rfl, hmem, hitem⟩)
    · refine ⟨(t.edge, i), List.mem_zipIdx_iff_getElem?.2 he, List.mem_cons.2 (.inl ?_)⟩
      rw [← hitem]
    · obtain ⟨i, he⟩ := List.mem_iff_getElem?.1 hmem
      refine ⟨(t.edge.reverse, i), List.mem_zipIdx_iff_getElem?.2 he, List.mem_cons_of_mem _ ?_⟩
      rw [if_pos rfl, Edge.reverse_reverse, ← hitem]
      exact List.mem_singleton_self t

theorem knows_of_mem_inputRows {t : Row} (ht : t ∈ inputRows u 0 inputs) (s : IdSets) :
    s.Knows t.item := by
  rcases mem_inputRows_iff.1 ht with ⟨i, -, hitem⟩ | ⟨-, -, hitem⟩
  · rw [hitem]
    exact ⟨.single i, if_pos (Int.natCast_nonneg i)⟩
  · rw [hitem]
    exact ⟨.empty, rfl⟩

theorem count_inputRows (i : Nat) (e : Edge) :
    ((inputRows u i inputs).map Tagged.edge).count e =
      inputs.count e + if u then inputs.count e.reverse else 0 := by
  induction inputs generalizing i with
  | nil => simp [inputRows]
  | cons f inputs ih =>
      have hreverse : (f.reverse == e) = (f == e.reverse) := by
        rw [Bool.eq_iff_iff, beq_iff_eq, beq_iff_eq, ← Edge.reverse_inj, Edge.reverse_reverse]
      have hih := ih (i + 1)
      rw [inputRows]
      cases u with
      | false =>
          simp only [Bool.false_eq_true, if_false, List.map_cons, List.count_cons] at hih ⊢
          omega
      | true =>
          simp only [if_true, List.map_cons, List.count_cons, hreverse] at hih ⊢
          omega

theorem length_inputRows_le (i : Nat) : (inputRows u i inputs).length ≤ 2 * inputs.length := by
  induction inputs generalizing i with
  | nil => exact Nat.zero_le _
  | cons e inputs ih =>
      have hle := ih (i + 1)
      rw [inputRows]
      cases u with
      | false =>
          simp only [Bool.false_eq_true, if_false, List.length_cons]
          omega
      | true =>
          simp only [if_true, List.length_cons]
          omega

end InputRows

/-- The rows that cleaning starts from: those of the input edges, but for the reserved edge. -/
def startRows (o : Options) (inputs : List Edge) : List Row :=
  (inputRows o.isUndirected 0 inputs).filter fun t => t.edge ≠ reservedEdge

theorem length_startRows_le (o : Options) (inputs : List Edge) :
    (startRows o inputs).length ≤ 2 * inputs.length :=
  (List.length_filter_le _ _).trans (length_inputRows_le 0)

/-- Vertex ids, edge ids and handles are 32-bit integers. This says that there are enough of them. -/
structure Fits (l : Layer) : Prop where
  vertices_lt : l.vertices.size < 2 ^ 31
  edges_lt : l.edges.size < 2 ^ 31
  inputSets : l.inputSets.Fits
  labelSets : l.labelSets.Fits

end Layer

namespace Options

/-- Some edge between two vertices is required to have a sibling and has none. -/
def MissesSiblings (o : Options) (inputs : List Edge) : Prop :=
  o.siblings = .require ∧ ∃ u v, u ≠ v ∧
    if o.isUndirected then (inputs.count ⟨u, v⟩ + inputs.count ⟨v, u⟩) % 2 = 1
    else inputs.count ⟨u, v⟩ ≠ inputs.count ⟨v, u⟩

end Options

/-- A reserved edge is passed over. -/
theorem clean_eq_clean_filter (o : Options) (rows : List Row) (sets : IdSets) :
    clean o rows sets = clean o (rows.filter fun t => t.edge ≠ reservedEdge) sets := by
  have hbundles : cleaningBundles (rows.filter fun t => t.edge ≠ reservedEdge) =
      cleaningBundles rows := by
    unfold cleaningBundles
    rw [List.filter_filter]
    simp
  rw [clean, clean, hbundles]

/-- Where all sets of input ids are known before cleaning, they are known afterwards. -/
theorem IsCleaned.knows {o : Options} {rows : List Row} {sets : IdSets} {c : Cleaned}
    (h : IsCleaned o sets rows c) (hr : reservedEdge ∉ rows.map Tagged.edge)
    (hknown : ∀ t ∈ rows, sets.Knows t.item) : ∀ t ∈ c.rows, c.sets.Knows t.item := by
  intro t ht
  obtain ⟨⟨alone, b⟩, hx, hedge⟩ := h.realized.exists_bundle ht
  have hforward := knows_of_mem_forward hknown (mem_ofTagged_of_mem_cleaningBundles hr hx)
  obtain ⟨plan, before, mid, -, hbefore, hext, hafter, hrealize⟩ := h.realized.rows _ hx
  dsimp only at hrealize
  have hkept : t ∈ c.rows.filter fun t => t.edge == b.edge :=
    List.mem_filter.2 ⟨ht, beq_iff_eq.2 hedge.symm⟩
  cases plan with
  | drop =>
      have hrows := congrArg Prod.fst (Except.ok.inj hrealize)
      dsimp only at hrows
      rw [← hrows] at hkept
      cases hkept
  | copy created =>
      have hrows := congrArg Prod.fst (Except.ok.inj hrealize)
      dsimp only at hrows
      rw [← hrows] at hkept
      obtain ⟨handle, hhandle, rfl⟩ := List.mem_map.1 hkept
      rcases List.mem_append.1 hhandle with hhandle | hhandle
      · exact h.realized.keeps.knows (hforward handle hhandle)
      · rw [List.eq_of_mem_replicate hhandle]
        exact ⟨.empty, rfl⟩
  | unite count =>
      obtain ⟨handle, hknows, hall⟩ := Bundle.exists_handle_of_realize hbefore
        (fun handle hhandle => hext.knows (hforward handle hhandle)) hrealize
      rw [hall] at hkept
      rw [List.eq_of_mem_replicate hkept]
      exact hafter.knows hknows

section StartRows

variable {o : Options} {inputs : List Edge}

open Layer

theorem reservedEdge_not_mem_startRows : reservedEdge ∉ (startRows o inputs).map Tagged.edge := by
  intro hmem
  obtain ⟨t, ht, hedge⟩ := List.mem_map.1 hmem
  exact of_decide_eq_true (List.mem_filter.1 ht).2 hedge

theorem knows_of_mem_startRows {t : Row} (ht : t ∈ startRows o inputs) (s : IdSets) :
    s.Knows t.item :=
  knows_of_mem_inputRows (List.mem_of_mem_filter ht) s

theorem count_startRows (e : Edge) : ((startRows o inputs).map Tagged.edge).count e =
    if e = reservedEdge then 0
    else inputs.count e + if o.isUndirected then inputs.count e.reverse else 0 := by
  split
  · rename_i he
    rw [he, List.count_eq_zero]
    exact reservedEdge_not_mem_startRows
  · rename_i he
    rw [← count_inputRows 0, startRows, List.count_eq_countP, List.count_eq_countP, List.countP_map,
      List.countP_map, List.countP_filter]
    refine List.countP_congr fun t _ => ?_
    simp only [Function.comp_apply, Bool.and_eq_true, beq_iff_eq, decide_eq_true_eq]
    constructor
    · exact And.left
    · rintro rfl
      exact ⟨rfl, he⟩

/-- Undirected edges start in pairs. -/
theorem count_startRows_reverse (hundirected : o.isUndirected) (e : Edge) :
    ((startRows o inputs).map Tagged.edge).count e =
      ((startRows o inputs).map Tagged.edge).count e.reverse := by
  have hreserved : e.reverse = reservedEdge ↔ e = reservedEdge := by
    rw [← Edge.reverse_inj, Edge.reverse_reverse]
    rfl
  rw [count_startRows, count_startRows, if_pos hundirected, if_pos hundirected, Edge.reverse_reverse,
    Nat.add_comm (inputs.count e.reverse)]
  simp only [hreserved]

theorem even_startRows (hundirected : o.isUndirected) (v : Int) :
    ((startRows o inputs).map Tagged.edge).count ⟨v, v⟩ % 2 = 0 := by
  rw [count_startRows, if_pos hundirected]
  split
  · rfl
  · show (inputs.count ⟨v, v⟩ + inputs.count ⟨v, v⟩) % 2 = 0
    rw [← Nat.two_mul, Nat.mul_mod_right]

theorem exists_clean_startRows (o : Options) (inputs : List Edge) :
    ∃ c, clean o (startRows o inputs) .empty = .ok c ∧ IsCleaned o .empty (startRows o inputs) c :=
  exists_isCleaned o IdSets.Built.empty.wellFormed reservedEdge_not_mem_startRows
    (fun _ ht => knows_of_mem_startRows ht .empty) fun hundirected _ v _ => even_startRows hundirected v

theorem count_startRows_of_proper {e : Edge} (hproper : e.isDegenerate = false) :
    ((startRows o inputs).map Tagged.edge).count e =
      inputs.count e + if o.isUndirected then inputs.count e.reverse else 0 := by
  rw [count_startRows, if_neg]
  rintro rfl
  cases hproper

theorem lacksSibling_startRows_iff {e : Edge} (hproper : e.isDegenerate = false) :
    o.lacksSibling (((startRows o inputs).map Tagged.edge).count e)
        (((startRows o inputs).map Tagged.edge).count e.reverse) ↔
      if o.isUndirected then (inputs.count e + inputs.count e.reverse) % 2 = 1
      else inputs.count e ≠ inputs.count e.reverse := by
  rw [count_startRows_of_proper hproper,
    count_startRows_of_proper (e.isDegenerate_reverse.trans hproper), Options.lacksSibling]
  by_cases hundirected : o.isUndirected
  · simp only [hundirected, if_true, bne_iff_ne]
    omega
  · simp only [hundirected, if_false, bne_iff_ne, Bool.false_eq_true, Nat.add_zero]

/-- Cleaning reports missing siblings exactly where they are missing among the input edges. -/
theorem any_missesSibling_iff :
    ((cleaningBundles (startRows o inputs)).any fun x => x.2.missesSibling o) ↔
      o.MissesSiblings inputs := by
  rw [List.any_eq_true, Options.MissesSiblings]
  constructor
  · rintro ⟨⟨alone, b⟩, hb, hmisses⟩
    have hb := mem_ofTagged_of_mem_cleaningBundles reservedEdge_not_mem_startRows hb
    simp only [Bundle.missesSibling, Bool.and_eq_true, beq_iff_eq, Bool.not_eq_true'] at hmisses
    obtain ⟨⟨hrequire, hproper⟩, hlacks⟩ := hmisses
    rw [length_forward_ofTagged hb, length_backward_ofTagged hb,
      lacksSibling_startRows_iff hproper] at hlacks
    refine ⟨hrequire, b.edge.origin, b.edge.dest, fun heq => ?_, hlacks⟩
    rw [Edge.isDegenerate_iff.2 heq] at hproper
    cases hproper
  · rintro ⟨hrequire, v, w, hne, hlacks⟩
    have hproper : (⟨v, w⟩ : Edge).isDegenerate = false := by simp [Edge.isDegenerate, hne]
    have hlacks := (lacksSibling_startRows_iff hproper).2 hlacks
    have hbundle : ∃ b ∈ Bundle.ofTagged (startRows o inputs), b.edge = ⟨v, w⟩ := by
      by_contra hnone
      obtain ⟨hforward, hbackward⟩ := not_mem_edges_of_forall_ne fun b hb hbe =>
        hnone ⟨b, hb, hbe⟩
      rw [List.count_eq_zero.2 hforward, List.count_eq_zero.2 hbackward] at hlacks
      simp [Options.lacksSibling] at hlacks
    obtain ⟨b, hb, hedge⟩ := hbundle
    have hmarked := hb
    rw [← map_snd_cleaningBundles reservedEdge_not_mem_startRows] at hmarked
    obtain ⟨x, hx, rfl⟩ := List.mem_map.1 hmarked
    refine ⟨x, hx, ?_⟩
    rw [Bundle.missesSibling, length_forward_ofTagged hb, length_backward_ofTagged hb, hedge, hrequire,
      hproper, hlacks]
    rfl

theorem error?_of_clean {rows : List Row} {sets : IdSets} {c : Cleaned}
    (h : clean o rows sets = .ok c) : c.error? =
      if (cleaningBundles rows).any fun x => x.2.missesSibling o then some .missingSiblings
      else none := by
  obtain ⟨⟨kept, after⟩, -, hc⟩ := bind_eq_ok_iff.1 h
  cases hc
  rfl

end StartRows

/-! ### Building -/

namespace Layer

/-- What a layer is made of: the cleaned rows of its input edges, and sets of labels for these. -/
structure IsBuilt (o : Options) (vertices : Array Point) (inputs : List Edge)
    (labels : List (List Int)) (c : Cleaned) (l : Layer) : Prop where
  inRange : ∀ e ∈ inputs, e.inRange vertices.size
  clean : SnapGraph.clean o (startRows o inputs) .empty = .ok c
  cleaned : IsCleaned o .empty (startRows o inputs) c
  options : l.options = c.options
  vertices : l.vertices = vertices
  edges : l.edges = (c.rows.map Tagged.edge).toArray
  inputHandles : l.inputHandles = (c.rows.map Tagged.item).toArray
  inputSets : l.inputSets = c.sets
  labels : IdSets.empty.addAll (paddedLabels inputs.length labels) =
    .ok (l.labelHandles.toList, l.labelSets)

section Build

variable (o : Options) {vertices : Array Point} {inputs : List Edge} (labels : List (List Int))

/-- Input edges in range are cleaned; the layer is made unless siblings are missing. -/
theorem exists_build_eq (hrange : ∀ e ∈ inputs, e.inRange vertices.size) :
    ∃ c, clean o (startRows o inputs) .empty = .ok c ∧ IsCleaned o .empty (startRows o inputs) c ∧
      (o.MissesSiblings inputs →
        build o vertices inputs labels = .error (.error .missingSiblings)) ∧
      (¬o.MissesSiblings inputs → build o vertices inputs labels =
        liftFault (IdSets.empty.addAll (paddedLabels inputs.length labels)) >>= fun x =>
          .ok ⟨c.options, vertices, (c.rows.map Tagged.edge).toArray,
            (c.rows.map Tagged.item).toArray, c.sets, x.1.toArray, x.2⟩) := by
  obtain ⟨c, hclean, hcleaned⟩ := exists_clean_startRows o inputs
  have herror := error?_of_clean hclean
  have hnone : (inputs.find? fun e => !e.inRange vertices.size) = none :=
    List.find?_eq_none.2 fun e he => by simp [hrange e he]
  have hrows : clean o (inputRows o.isUndirected 0 inputs) .empty = .ok c :=
    clean_eq_clean_filter o _ _ ▸ hclean
  refine ⟨c, hclean, hcleaned, fun hmisses => ?_, fun hmisses => ?_⟩
  · rw [if_pos (any_missesSibling_iff.2 hmisses)] at herror
    rw [build, hnone]
    dsimp only
    rw [hrows, liftFault_ok, ok_bind, herror]
  · rw [if_neg fun hany => hmisses (any_missesSibling_iff.1 hany)] at herror
    rw [build, hnone]
    dsimp only
    rw [hrows, liftFault_ok, ok_bind, herror]
    rfl

/-- An input edge out of range is reported before anything is made. -/
theorem exists_build_eq_inputOutOfRange (h : ¬∀ e ∈ inputs, e.inRange vertices.size) :
    ∃ e ∈ inputs, e.inRange vertices.size = false ∧ build o vertices inputs labels =
      .error (.error (.invariantViolation (.inputOutOfRange e vertices.size))) := by
  cases hfind : inputs.find? fun e => !e.inRange vertices.size with
  | none =>
      refine absurd (fun e he => ?_) h
      simpa using List.find?_eq_none.1 hfind e he
  | some e =>
      refine ⟨e, List.mem_of_find?_eq_some hfind, by simpa using List.find?_some hfind, ?_⟩
      rw [build, hfind]

end Build

variable {o : Options} {vertices : Array Point} {inputs : List Edge} {labels : List (List Int)}

/-- Where a layer is made, it is made of cleaned rows. -/
theorem exists_isBuilt_of_build {l : Layer} (h : build o vertices inputs labels = .ok l) :
    ¬o.MissesSiblings inputs ∧ ∃ c, IsBuilt o vertices inputs labels c l := by
  by_cases hrange : ∀ e ∈ inputs, e.inRange vertices.size
  · obtain ⟨c, hclean, hcleaned, hmissing, hmade⟩ := exists_build_eq o labels hrange
    by_cases hmisses : o.MissesSiblings inputs
    · rw [hmissing hmisses] at h
      cases h
    · rw [hmade hmisses] at h
      obtain ⟨⟨handles, sets⟩, hadd, hl⟩ := bind_eq_ok_iff.1 h
      cases hl
      refine ⟨hmisses, c, hrange, hclean, hcleaned, rfl, rfl, rfl, rfl, rfl, ?_⟩
      cases hlabels : IdSets.empty.addAll (paddedLabels inputs.length labels) with
      | error f =>
          rw [hlabels] at hadd
          cases hadd
      | ok x =>
          rw [hlabels] at hadd
          cases hadd
          rfl
  · obtain ⟨e, -, -, herror⟩ := exists_build_eq_inputOutOfRange o labels hrange
    rw [herror] at h
    cases h

theorem exists_isBuilt (hrange : ∀ e ∈ inputs, e.inRange vertices.size)
    (hpresent : ¬o.MissesSiblings inputs) (hlabels : ∀ set ∈ labels, ∀ label ∈ set, 0 ≤ label) :
    ∃ l c, build o vertices inputs labels = .ok l ∧ IsBuilt o vertices inputs labels c l := by
  obtain ⟨c, hclean, hcleaned, -, hmade⟩ := exists_build_eq o labels hrange
  have hpadded : ∀ ids ∈ paddedLabels inputs.length labels, ∀ id ∈ ids, 0 ≤ id := by
    intro ids hids
    rcases List.mem_append.1 hids with hids | hids
    · exact hlabels ids (List.mem_of_mem_take hids)
    · rw [List.eq_of_mem_replicate hids]
      exact List.forall_mem_nil _
  obtain ⟨handles, sets, hadd⟩ := IdSets.exists_addAll hpadded .empty
  let l : Layer := ⟨c.options, vertices, (c.rows.map Tagged.edge).toArray,
    (c.rows.map Tagged.item).toArray, c.sets, handles.toArray, sets⟩
  refine ⟨l, c, ?_, hrange, hclean, hcleaned, rfl, rfl, rfl, rfl, rfl, hadd⟩
  rw [hmade hpresent, hadd]
  rfl

end Layer

/-! ### What the options promise -/

namespace Options

variable {o : Options}

theorem properCopies_le_one (hmerge : o.duplicates = .merge) (n m : Nat) : o.properCopies n m ≤ 1 := by
  unfold properCopies capped
  rw [if_pos hmerge, if_pos hmerge, if_pos hmerge]
  cases o.siblings with
  | keep => exact Nat.min_le_right n 1
  | discard =>
      dsimp only
      split
      · omega
      · exact Nat.min_le_right _ 1
  | require | create =>
      dsimp only
      split
      · exact Nat.le_refl 1
      · exact Nat.zero_le 1

/-- Directed edges cancel against their siblings. -/
theorem properCopies_eq_zero (hdirected : o.isUndirected = false) (hdiscard : o.siblings = .discard)
    {n m : Nat} (h : o.properCopies n m ≠ 0) : o.properCopies m n = 0 := by
  unfold properCopies capped at h ⊢
  simp only [hdiscard, hdirected, Bool.false_eq_true, if_false] at h ⊢
  by_cases hmerge : o.duplicates = .merge
  · rw [if_pos hmerge] at h ⊢
    omega
  · rw [if_neg hmerge] at h ⊢
    omega

/-- Where siblings are guaranteed afterwards, as many copies of an edge are left as of its reverse. -/
theorem properCopies_comm_of_guarantees (hguarantees : o.afterCleaning.guaranteesSiblings) {n m : Nat}
    (hpaired : o.isUndirected → n = m) : o.properCopies n m = o.properCopies m n := by
  by_cases hundirected : o.isUndirected
  · rw [hpaired hundirected]
  · rw [guaranteesSiblings, siblings_afterCleaning, isUndirected_afterCleaning] at hguarantees
    refine properCopies_comm ?_ hpaired
    simpa [hundirected] using hguarantees

theorem even_degenerateCopies (hundirected : o.afterCleaning.isUndirected) {n : Nat}
    (hn : n % 2 = 0) : o.degenerateCopies n % 2 = 0 := by
  rw [isUndirected_afterCleaning, Bool.and_eq_true, Bool.not_eq_true'] at hundirected
  unfold degenerateCopies
  rw [hundirected.1, hundirected.2]
  simp only [Bool.false_eq_true, not_false_eq_true, and_self, and_false, if_true, if_false]
  split
  · rfl
  · split
    · rfl
    · exact hn

end Options

/-- What the options of a layer promise of its edges: they join its vertices, in order; where that is
wanted, none are degenerate, copies are merged, siblings cancel, or all come in pairs. -/
structure Layer.IsClean (l : Layer) : Prop where
  valid : l.check = .ok ()
  proper : l.options.degenerates = .discard → ∀ e ∈ l.edges.toList, e.isDegenerate = false
  merged : l.options.duplicates = .merge → ∀ e : Edge, e.isDegenerate = false →
    l.edges.toList.count e ≤ 1
  cancelled : l.options.isDirected → l.options.siblings = .discard → ∀ e : Edge,
    e.isDegenerate = false → e ∈ l.edges.toList → e.reverse ∉ l.edges.toList
  paired : l.options.guaranteesSiblings → ∀ e : Edge,
    l.edges.toList.count e = l.edges.toList.count e.reverse
  even : l.options.isUndirected → ∀ v, l.edges.toList.count ⟨v, v⟩ % 2 = 0

section IsBuilt

variable {o : Options} {vertices : Array Point} {inputs : List Edge} {labels : List (List Int)}
  {c : Cleaned} {l : Layer} (h : Layer.IsBuilt o vertices inputs labels c l)

include h

open Layer

theorem Layer.IsBuilt.count (e : Edge) :
    l.edges.toList.count e = o.copiesLeft ((startRows o inputs).map Tagged.edge) e := by
  rw [h.edges]
  exact h.cleaned.count e

theorem Layer.IsBuilt.options_eq : l.options = o.afterCleaning := h.options.trans h.cleaned.options

/-- Every edge is an input edge or, where siblings arise, the reverse of one. -/
theorem Layer.IsBuilt.mem_inputs {e : Edge} (he : e ∈ l.edges.toList) :
    e ∈ inputs ∨ e.reverse ∈ inputs := by
  have hinput : ∀ f ∈ (startRows o inputs).map Tagged.edge, f ∈ inputs ∨ f.reverse ∈ inputs := by
    intro f hf
    obtain ⟨t, ht, rfl⟩ := List.mem_map.1 hf
    rcases mem_inputRows_iff.1 (List.mem_of_mem_filter ht) with ⟨i, hi, -⟩ | ⟨-, hmem, -⟩
    · exact .inl (List.mem_of_getElem? hi)
    · exact .inr hmem
  rcases Options.mem_or_of_mem_left h.count he with hmem | hmem
  · exact hinput e hmem
  · exact (hinput _ hmem).symm

theorem Layer.IsBuilt.check : l.check = .ok () := by
  have hsize : l.inputHandles.size = l.edges.size := by
    rw [h.inputHandles, h.edges]
    simp
  rw [Layer.check, if_pos hsize, checkEdges_eq_ok_iff, h.vertices]
  refine ⟨fun e he => ?_, ?_⟩
  · rcases h.mem_inputs he with hmem | hmem
    · exact h.inRange e hmem
    · exact Edge.inRange_reverse.1 (h.inRange _ hmem)
  · rw [h.edges]
    exact List.pairwise_map.2 h.cleaned.sorted

theorem Layer.IsBuilt.knowsInputs : ∀ handle ∈ l.inputHandles, l.inputSets.Knows handle := by
  intro handle hhandle
  rw [h.inputHandles, List.mem_toArray] at hhandle
  obtain ⟨t, ht, rfl⟩ := List.mem_map.1 hhandle
  rw [h.inputSets]
  exact h.cleaned.knows reservedEdge_not_mem_startRows
    (fun _ ht => knows_of_mem_startRows ht .empty) t ht

theorem Layer.IsBuilt.isClean : l.IsClean where
  valid := h.check
  proper hdiscard e he := by
    rw [h.options_eq, Options.degenerates_afterCleaning] at hdiscard
    by_contra hdegenerate
    rw [Bool.not_eq_false] at hdegenerate
    refine (List.count_pos_iff.2 he).ne' ?_
    rw [h.count, Options.copiesLeft, if_pos hdegenerate, Options.keepsDegenerates, hdiscard]
    exact if_neg Bool.false_ne_true
  merged hmerge e hproper := by
    rw [h.options_eq, Options.duplicates_afterCleaning] at hmerge
    rw [h.count, Options.copiesLeft, hproper, if_neg Bool.false_ne_true]
    exact Options.properCopies_le_one hmerge _ _
  cancelled hdirected hdiscard e hproper he := by
    rw [h.options_eq, Options.siblings_afterCleaning] at hdiscard
    have hdirected : o.isUndirected = false := by
      have hafter := o.isUndirected_afterCleaning
      rw [hdiscard, ← h.options_eq] at hafter
      cases hundirected : o.isUndirected with
      | false => rfl
      | true =>
          rw [hundirected] at hafter
          rw [(l.options.isUndirected_iff).1 hafter] at hdirected
          cases hdirected
    have hcount := (List.count_pos_iff.2 he).ne'
    rw [h.count, Options.copiesLeft, hproper, if_neg Bool.false_ne_true] at hcount
    rw [← List.count_eq_zero, h.count, Options.copiesLeft, e.isDegenerate_reverse, hproper,
      if_neg Bool.false_ne_true, Edge.reverse_reverse]
    exact Options.properCopies_eq_zero hdirected hdiscard hcount
  paired hguarantees e := by
    rw [h.options_eq] at hguarantees
    by_cases hdegenerate : e.isDegenerate
    · rw [Edge.reverse_eq_self_iff.2 hdegenerate]
    · rw [h.count, h.count, Options.copiesLeft, Options.copiesLeft, e.isDegenerate_reverse,
        if_neg hdegenerate, if_neg hdegenerate, Edge.reverse_reverse]
      exact Options.properCopies_comm_of_guarantees hguarantees fun hundirected =>
        count_startRows_reverse hundirected e
  even hundirected v := by
    rw [h.options_eq] at hundirected
    have hbefore := hundirected
    rw [Options.isUndirected_afterCleaning, Bool.and_eq_true] at hbefore
    rw [h.count, Options.copiesLeft, if_pos (Edge.isDegenerate_iff.2 rfl)]
    split
    · exact Options.even_degenerateCopies hundirected (even_startRows hbefore.1 v)
    · rfl

/-! ### Room for ids -/

/-- The sets of input ids, of which there are fewer than input edges, have handles of their own. -/
theorem Layer.IsBuilt.sets_fit (hlen : inputs.length < 2 ^ 31) : c.sets.Fits := by
  have hsize := size_clean_le reservedEdge_not_mem_startRows h.clean
  have hrows := length_startRows_le o inputs
  have hempty : IdSets.empty.large.size = 0 := rfl
  exact ⟨by omega⟩

theorem Layer.IsBuilt.labelSets_fit (hlen : inputs.length < 2 ^ 31) : l.labelSets.Fits := by
  have hsize := IdSets.size_addAll_le h.labels
  have hempty : IdSets.empty.large.size = 0 := rfl
  have hpadded : (paddedLabels inputs.length labels).length = inputs.length := by
    rw [paddedLabels, List.length_append, List.length_take, List.length_replicate]
    omega
  exact ⟨by omega⟩

/-- Few enough vertices and input edges are given 32-bit ids, and so are the edges and sets that the
layer is made of. -/
theorem Layer.IsBuilt.fits (hvertices : vertices.size < 2 ^ 31) (hlen : inputs.length < 2 ^ 29) :
    l.Fits where
  vertices_lt := by rwa [h.vertices]
  edges_lt := by
    have hrows := length_startRows_le o inputs
    have hlength := h.cleaned.length_le
    rw [h.edges, List.size_toArray, List.length_map]
    omega
  inputSets := by
    rw [h.inputSets]
    exact h.sets_fit (by omega)
  labelSets := h.labelSets_fit (by omega)

end IsBuilt

end SnapGraph
