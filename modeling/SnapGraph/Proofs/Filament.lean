import Mathlib
import SnapGraph.Proofs.Component

/-! Removing filaments. A circuit is walked edge by edge; where the sibling of the next edge waits on
the path, the two are dropped, and what lies between them is closed, since siblings run between the
same vertices. The places of dropped edges are never erased, but nothing reads them again: the place of
an edge is read only when its sibling is walked, and every edge is walked once. So the walk never goes
astray, what is left of it has no siblings on one loop, and a dropped edge was on one circuit with its
sibling. -/

namespace SnapGraph

namespace Pruning

open Places

variable {g : Graph} {sibling : Nat → Nat}

/-! ### One edge -/

/-- The edges of the path are at their places, and a place that is still to be read, since the sibling
of its edge is to come, is on the path. The path has no edge together with its sibling. -/
structure Waiting (g : Graph) (sibling : Nat → Nat) (path : List Nat) (places : Places)
    (todo : List Nat) : Prop where
  size_eq : places.size = g.numEdges
  lt : ∀ x ∈ todo, x < g.numEdges
  nodup : todo.Nodup
  fresh : ∀ x ∈ path, x ∉ todo
  listed : ∀ i x, path[i]? = some x → place? places x = some i
  live : ∀ x i, place? places x = some i → sibling x ∈ todo → path[i]? = some x
  apart : ∀ x ∈ path, sibling x ∉ path

/-- What a walk from `u` to `v` has become: loops that were cut off, the path, and the edges dropped in
pairs. -/
structure Pruned (g : Graph) (sibling : Nat → Nat) (u v : Int) (walk path : List Nat)
    (loops : List (List Nat)) (dropped : List Nat) : Prop where
  perm : (loops.flatten ++ path ++ dropped).Perm walk
  joins : Joins g.edge u path v
  ne_nil : ∀ l ∈ loops, l ≠ []
  closed : ∀ l ∈ loops, ∃ w, Joins g.edge w l w
  apart : ∀ l ∈ loops, ∀ x ∈ l, sibling x ∉ l
  paired : ∀ x ∈ dropped, sibling x ∈ dropped

section Step

variable {path front middle todo walk dropped : List Nat} {places : Places}
  {loops : List (List Nat)} {e : Nat} {u v : Int}

theorem Waiting.lt_numEdges (h : Waiting g sibling path places todo) {x : Nat} (hx : x ∈ path) :
    x < g.numEdges := by
  obtain ⟨i, hi⟩ := List.mem_iff_getElem?.1 hx
  exact h.size_eq ▸ lt_size_of_place? (h.listed i x hi)

theorem Waiting.nodup_path (h : Waiting g sibling path places todo) : path.Nodup := by
  rw [List.nodup_iff_getElem?_ne_getElem?]
  intro i j hij hj heq
  have hi := List.getElem?_eq_getElem (hij.trans hj)
  have hplace := h.listed i _ hi
  rw [h.listed j _ (heq ▸ hi)] at hplace
  exact hij.ne (Option.some.inj hplace).symm

variable (hpairs : g.Pairs sibling)

include hpairs

/-- The sibling of the next edge has no place, or it is on the path. -/
theorem Waiting.place?_sibling (h : Waiting g sibling path places (e :: todo)) :
    place? places (sibling e) = none ∨ ∃ front middle, path = front ++ sibling e :: middle ∧
      place? places (sibling e) = some front.length := by
  have he := h.lt e List.mem_cons_self
  cases hplace : place? places (sibling e) with
  | none => exact .inl rfl
  | some i =>
      have hback : sibling (sibling e) ∈ e :: todo := by
        rw [hpairs.involutive e he]
        exact List.mem_cons_self
      obtain ⟨hi, hget⟩ := List.getElem?_eq_some_iff.1 (h.live _ i hplace hback)
      refine .inr ⟨path.take i, path.drop (i + 1), ?_, ?_⟩
      · rw [← hget, ← List.drop_eq_getElem_cons, List.take_append_drop]
      · rw [List.length_take_of_le hi.le]

theorem Waiting.place?_set (h : Waiting g sibling path places (e :: todo)) (i? : Option Nat) :
    place? (places.setIfInBounds e i?) (sibling e) = place? places (sibling e) := by
  have he := h.lt e List.mem_cons_self
  rw [place?_setIfInBounds (h.size_eq ▸ he), if_neg (hpairs.ne e he)]

/-- An edge whose sibling has no place is put on the path. -/
theorem Waiting.push (h : Waiting g sibling path places (e :: todo))
    (hnone : place? places (sibling e) = none) :
    Waiting g sibling (path ++ [e]) (places.setIfInBounds e (some path.length)) todo := by
  have he := h.lt e List.mem_cons_self
  obtain ⟨hnot, hnodup⟩ := List.nodup_cons.1 h.nodup
  have hset := place?_setIfInBounds (h.size_eq ▸ he) (some path.length)
  have hpath : e ∉ path := fun hmem => h.fresh e hmem List.mem_cons_self
  have hsibling : sibling e ∉ path := by
    intro hmem
    obtain ⟨i, hi⟩ := List.mem_iff_getElem?.1 hmem
    exact Option.some_ne_none i ((h.listed i _ hi).symm.trans hnone)
  refine ⟨?_, fun x hx => h.lt x (List.mem_cons_of_mem _ hx), hnodup, fun x hx => ?_,
    fun i x hi => ?_, fun x i hplace hx => ?_, fun x hx hmem => ?_⟩
  · rw [Array.size_setIfInBounds, h.size_eq]
  · rcases List.mem_append.1 hx with hx | hx
    · exact fun hmem => h.fresh x hx (List.mem_cons_of_mem _ hmem)
    · rwa [List.mem_singleton.1 hx]
  · rw [hset]
    rcases Nat.lt_or_ge i path.length with hlt | hge
    · rw [List.getElem?_append_left hlt] at hi
      have hxe : x ≠ e := fun heq => hpath (heq ▸ List.mem_of_getElem? hi)
      rw [if_neg hxe, h.listed i x hi]
    · rw [List.getElem?_append_right hge, List.getElem?_singleton] at hi
      split at hi
      · rw [if_pos (Option.some.inj hi).symm]
        congr 1
        omega
      · cases hi
  · rw [hset] at hplace
    split at hplace
    · rename_i hxe
      rw [← Option.some.inj hplace, hxe, List.getElem?_concat_length]
    · have hi := h.live x i hplace (List.mem_cons_of_mem _ hx)
      rwa [List.getElem?_append_left (List.getElem?_eq_some_iff.1 hi).1]
  · rcases List.mem_append.1 hx with hx | hx
    · rcases List.mem_append.1 hmem with hmem | hmem
      · exact h.apart x hx hmem
      · apply hsibling
        rwa [← List.mem_singleton.1 hmem, hpairs.involutive x (h.lt_numEdges hx)]
    · rw [List.mem_singleton.1 hx] at hmem
      rcases List.mem_append.1 hmem with hmem | hmem
      · exact hsibling hmem
      · exact hpairs.ne e he (List.mem_singleton.1 hmem)

/-- An edge whose sibling is on the path takes the path back to it. -/
theorem Waiting.cut (h : Waiting g sibling (front ++ sibling e :: middle) places (e :: todo))
    (i : Nat) :
    Waiting g sibling front (forget (places.setIfInBounds e (some i)) middle) todo := by
  have he := h.lt e List.mem_cons_self
  obtain ⟨hnot, hnodup⟩ := List.nodup_cons.1 h.nodup
  have hfront : ∀ x ∈ front, x ∈ front ++ sibling e :: middle := fun x hx =>
    List.mem_append_left _ hx
  have hsibling : sibling e ∈ front ++ sibling e :: middle :=
    List.mem_append_right _ List.mem_cons_self
  have hlisted : ∀ j x, front[j]? = some x → place? places x = some j := by
    intro j x hj
    apply h.listed
    rwa [List.getElem?_append_left (List.getElem?_eq_some_iff.1 hj).1]
  have hplaces : ∀ x, place? (forget (places.setIfInBounds e (some i)) middle) x =
      if x ∈ middle then none else if x = e then some i else place? places x := by
    intro x
    rw [place?_forget, place?_setIfInBounds (h.size_eq ▸ he)]
  refine ⟨?_, fun x hx => h.lt x (List.mem_cons_of_mem _ hx), hnodup,
    fun x hx hmem => h.fresh x (hfront x hx) (List.mem_cons_of_mem _ hmem), fun j x hj => ?_,
    fun x j hplace hx => ?_, fun x hx hmem => h.apart x (hfront x hx) (hfront _ hmem)⟩
  · rw [size_forget, Array.size_setIfInBounds, h.size_eq]
  · have hx := List.mem_of_getElem? hj
    have hmiddle : x ∉ middle := by
      intro hmem
      have hdisjoint := (List.nodup_append.1 h.nodup_path).2.2
      exact hdisjoint x hx x (List.mem_cons_of_mem _ hmem) rfl
    have hxe : x ≠ e := fun heq => h.fresh x (hfront x hx) (heq ▸ List.mem_cons_self)
    rw [hplaces, if_neg hmiddle, if_neg hxe, hlisted j x hj]
  · rw [hplaces] at hplace
    split at hplace
    · cases hplace
    · rename_i hmiddle
      split at hplace
      · rename_i hxe
        -- `sibling e` was on the path, so it has been walked.
        rw [hxe] at hx
        exact absurd (List.mem_cons_of_mem _ hx) (h.fresh _ hsibling)
      · have hj := h.live x j hplace (List.mem_cons_of_mem _ hx)
        rcases List.mem_append.1 (List.mem_of_getElem? hj) with hmem | hmem
        · obtain ⟨k, hk⟩ := List.mem_iff_getElem?.1 hmem
          rw [← Option.some.inj ((hlisted k x hk).symm.trans hplace), hk]
        · rcases List.mem_cons.1 hmem with rfl | hmem
          · -- The place of `sibling e` is not erased, but `e` does not come again.
            rw [hpairs.involutive e he] at hx
            exact absurd hx hnot
          · exact absurd hmem hmiddle

end Step

theorem step_of_none {p : Pruning} {e : Nat}
    (h : place? (p.places.setIfInBounds e (some p.path.size)) (sibling e) = none) :
    step sibling p e =
      .ok ⟨p.path.push e, p.places.setIfInBounds e (some p.path.size), p.loops⟩ := by
  simp only [step, h]

/-- Where the sibling waits, the path goes back to its place. -/
theorem step_of_some {p : Pruning} {e s : Nat} {front middle : List Nat}
    (hpath : p.path.toList = front ++ s :: middle)
    (h : place? (p.places.setIfInBounds e (some p.path.size)) (sibling e) = some front.length) :
    step sibling p e = .ok ⟨front.toArray,
      forget (p.places.setIfInBounds e (some p.path.size)) middle,
      if middle = [] then p.loops else p.loops ++ [middle]⟩ := by
  obtain ⟨⟨path⟩, places, loops⟩ := p
  obtain rfl : path = front ++ s :: middle := hpath
  simp only [step, h]
  cases middle with
  | nil => simp [forget]
  | cons a middle =>
      have hsize : ((front ++ s :: a :: middle).toArray.push e).size =
          front.length + (a :: middle).length + 2 := by
        simp
        omega
      have hmiddle : (((front ++ s :: a :: middle).toArray.push e).extract (front.length + 1)
          (front.length + (a :: middle).length + 2 - 1)).toList = a :: middle := by
        simp
      have hfront : ((front ++ s :: a :: middle).toArray.push e).take front.length =
          front.toArray := by
        simp
      rw [if_neg (by rw [hsize, List.length_cons]; omega),
        if_pos (by rw [hsize, List.length_cons]; omega), hsize, hmiddle, hfront,
        if_neg (List.cons_ne_nil _ _)]

section Run

variable {path front middle todo walk dropped : List Nat} {places : Places}
  {loops : List (List Nat)} {e : Nat} {u v w : Int}

theorem Pruned.push (h : Pruned g sibling u (g.edge e).origin walk path loops dropped) :
    Pruned g sibling u (g.edge e).dest (walk ++ [e]) (path ++ [e]) loops dropped where
  perm := by
    rw [List.perm_iff_count]
    intro a
    have hcount := h.perm.count_eq a
    simp only [List.count_append] at hcount ⊢
    omega
  joins := joins_concat.2 ⟨h.joins, rfl⟩
  ne_nil := h.ne_nil
  closed := h.closed
  apart := h.apart
  paired := h.paired

variable (hpairs : g.Pairs sibling)

include hpairs

/-- Between an edge and its sibling the path is closed. -/
theorem Pruned.cut (he : e < g.numEdges) (hapart : ∀ x ∈ middle, sibling x ∉ middle)
    (h : Pruned g sibling u (g.edge e).origin walk (front ++ sibling e :: middle) loops dropped) :
    Pruned g sibling u (g.edge e).dest (walk ++ [e]) front
      (if middle = [] then loops else loops ++ [middle]) (e :: sibling e :: dropped) := by
  obtain ⟨x, hfront, hx, hmiddle⟩ := joins_append.1 h.joins
  rw [hpairs.edge e he, Edge.reverse_origin] at hx
  rw [hpairs.edge e he, Edge.reverse_dest] at hmiddle
  have hloops : (if middle = [] then loops else loops ++ [middle]).flatten =
      loops.flatten ++ middle := by
    split
    · rename_i hnil
      rw [hnil, List.append_nil]
    · rw [List.flatten_append, List.flatten_singleton]
  have hmem : ∀ {P : List Nat → Prop}, (∀ l ∈ loops, P l) → (middle ≠ [] → P middle) →
      ∀ l ∈ if middle = [] then loops else loops ++ [middle], P l := by
    intro P hold hnew
    split
    · exact hold
    · rename_i hne
      exact List.forall_mem_append.2 ⟨hold, List.forall_mem_singleton.2 (hnew hne)⟩
  refine ⟨?_, hx ▸ hfront, hmem h.ne_nil id, hmem h.closed fun _ => ⟨_, hmiddle⟩,
    hmem h.apart fun _ => hapart, ?_⟩
  · rw [hloops, List.perm_iff_count]
    intro a
    have hcount := h.perm.count_eq a
    simp only [List.count_append, List.count_cons, List.count_nil] at hcount ⊢
    omega
  · refine List.forall_mem_cons.2 ⟨by simp, List.forall_mem_cons.2 ⟨?_, fun x hx => ?_⟩⟩
    · rw [hpairs.involutive e he]
      exact List.mem_cons_self
    · exact List.mem_cons_of_mem _ (List.mem_cons_of_mem _ (h.paired x hx))

/-- A walk can always be taken one edge further. -/
theorem exists_step {p : Pruning} (hwaiting : Waiting g sibling p.path.toList p.places (e :: todo))
    (hpruned : Pruned g sibling u (g.edge e).origin walk p.path.toList p.loops dropped) :
    ∃ p' dropped', step sibling p e = .ok p' ∧ Waiting g sibling p'.path.toList p'.places todo ∧
      Pruned g sibling u (g.edge e).dest (walk ++ [e]) p'.path.toList p'.loops dropped' := by
  have hset := hwaiting.place?_set hpairs (some p.path.size)
  rcases hwaiting.place?_sibling hpairs with hnone | ⟨front, middle, hpath, hplace⟩
  · refine ⟨_, dropped, step_of_none (hset.trans hnone), ?_, ?_⟩
    · rw [Array.toList_push]
      exact hwaiting.push hpairs hnone
    · rw [Array.toList_push]
      exact hpruned.push
  · refine ⟨_, e :: sibling e :: dropped, step_of_some hpath (hset.trans hplace), ?_, ?_⟩
    · rw [hpath] at hwaiting
      exact hwaiting.cut hpairs _
    · rw [hpath] at hwaiting hpruned
      apply hpruned.cut hpairs (hwaiting.lt e List.mem_cons_self)
      intro x hx hmem
      exact hwaiting.apart x (List.mem_append_right _ (List.mem_cons_of_mem _ hx))
        (List.mem_append_right _ (List.mem_cons_of_mem _ hmem))

/-- So it can be taken to its end. -/
theorem exists_foldlM {edges : List Nat} {p : Pruning}
    (hwaiting : Waiting g sibling p.path.toList p.places (edges ++ todo))
    (hpruned : Pruned g sibling u v walk p.path.toList p.loops dropped)
    (hjoins : Joins g.edge v edges w) :
    ∃ p' dropped', edges.foldlM (step sibling) p = .ok p' ∧
      Waiting g sibling p'.path.toList p'.places todo ∧
      Pruned g sibling u w (walk ++ edges) p'.path.toList p'.loops dropped' := by
  induction edges generalizing p v walk dropped with
  | nil =>
      cases hjoins
      rw [List.append_nil]
      exact ⟨p, dropped, rfl, hwaiting, hpruned⟩
  | cons e edges ih =>
      obtain ⟨rfl, hjoins⟩ := hjoins
      obtain ⟨mid, dropped, hmid, hwaiting, hpruned⟩ := exists_step hpairs hwaiting hpruned
      obtain ⟨p', dropped, hp', hwaiting, hpruned⟩ := ih hwaiting hpruned hjoins
      refine ⟨p', dropped, ?_, hwaiting, ?_⟩
      · rw [List.foldlM_cons, hmid]
        exact hp'
      · rwa [List.append_assoc] at hpruned

end Run

/-! ### Circuits -/

/-- What is left of some circuits: closed loops without siblings. Every edge that is not left is on
one circuit with its sibling, and that is not left either. -/
structure Trimmed (g : Graph) (sibling : Nat → Nat) (circuits loops : List (List Nat))
    (dropped : List Nat) : Prop where
  perm : (loops.flatten ++ dropped).Perm circuits.flatten
  ne_nil : ∀ l ∈ loops, l ≠ []
  closed : ∀ l ∈ loops, ∃ w, Joins g.edge w l w
  apart : ∀ l ∈ loops, ∀ x ∈ l, sibling x ∉ l
  paired : ∀ x ∈ dropped, sibling x ∈ dropped
  lost : ∀ x ∈ dropped, ∃ c ∈ circuits, x ∈ c ∧ sibling x ∈ c

section Circuits

variable {circuits circuits' loops loops' : List (List Nat)} {c dropped dropped' todo : List Nat}
  {places : Places} {u : Int}

theorem trimmed_nil : Trimmed g sibling [] [] [] :=
  ⟨.refl _, by simp, by simp, by simp, by simp, by simp⟩

theorem Trimmed.append (h : Trimmed g sibling circuits loops dropped)
    (h' : Trimmed g sibling circuits' loops' dropped') :
    Trimmed g sibling (circuits ++ circuits') (loops ++ loops') (dropped ++ dropped') where
  perm := by
    rw [List.perm_iff_count]
    intro a
    have hcount := h.perm.count_eq a
    have hcount' := h'.perm.count_eq a
    simp only [List.count_append, List.flatten_append] at hcount hcount' ⊢
    omega
  ne_nil := List.forall_mem_append.2 ⟨h.ne_nil, h'.ne_nil⟩
  closed := List.forall_mem_append.2 ⟨h.closed, h'.closed⟩
  apart := List.forall_mem_append.2 ⟨h.apart, h'.apart⟩
  paired := List.forall_mem_append.2
    ⟨fun x hx => List.mem_append_left _ (h.paired x hx),
      fun x hx => List.mem_append_right _ (h'.paired x hx)⟩
  lost := by
    refine List.forall_mem_append.2 ⟨fun x hx => ?_, fun x hx => ?_⟩
    · obtain ⟨c, hc, hmem⟩ := h.lost x hx
      exact ⟨c, List.mem_append_left _ hc, hmem⟩
    · obtain ⟨c, hc, hmem⟩ := h'.lost x hx
      exact ⟨c, List.mem_append_right _ hc, hmem⟩

/-- What is left may begin at its canonical starts and stand in any order. -/
theorem Trimmed.canonical (h : Trimmed g sibling circuits loops dropped) {key : Nat → Int}
    (hloops : loops'.Perm (loops.map (canonicalLoop key))) :
    Trimmed g sibling circuits loops' dropped := by
  have hmem : ∀ l ∈ loops', ∃ m ∈ loops, canonicalLoop key m = l := fun l hl =>
    List.mem_map.1 (hloops.mem_iff.1 hl)
  have hflatten : loops'.flatten.Perm loops.flatten :=
    hloops.flatten.trans (flatten_map_perm (canonicalLoop_perm key) loops)
  refine ⟨(hflatten.append_right dropped).trans h.perm, fun l hl => ?_, fun l hl => ?_,
    fun l hl x hx => ?_, h.paired, h.lost⟩
  · obtain ⟨m, hm, rfl⟩ := hmem l hl
    intro hnil
    exact h.ne_nil m hm (hnil ▸ canonicalLoop_perm key m).symm.eq_nil
  · obtain ⟨m, hm, rfl⟩ := hmem l hl
    obtain ⟨w, hw⟩ := h.closed m hm
    exact hw.isRotated (canonicalLoop_isRotated key m)
  · obtain ⟨m, hm, rfl⟩ := hmem l hl
    rw [(canonicalLoop_perm key m).mem_iff] at hx ⊢
    exact h.apart m hm x hx

/-- If an edge is left, so is its sibling. -/
theorem Trimmed.sibling_mem (h : Trimmed g sibling circuits loops dropped)
    (hnodup : circuits.flatten.Nodup) {e : Nat} (hback : sibling (sibling e) = e)
    (he : e ∈ loops.flatten) (hsibling : sibling e ∈ circuits.flatten) :
    sibling e ∈ loops.flatten := by
  rcases List.mem_append.1 (h.perm.mem_iff.2 hsibling) with hleft | hdropped
  · exact hleft
  · have hdisjoint := (List.nodup_append.1 (h.perm.nodup_iff.2 hnodup)).2.2
    have hmem := h.paired _ hdropped
    rw [hback] at hmem
    exact absurd rfl (hdisjoint e he e hmem)

/-- A closed walk leaves its loops and its path, if there is one. -/
theorem Pruned.trimmed {path : List Nat} (h : Pruned g sibling u u c path loops dropped)
    (hapart : ∀ x ∈ path, sibling x ∉ path) :
    Trimmed g sibling [c] (if path.isEmpty then loops else loops ++ [path]) dropped := by
  have hmem : ∀ x ∈ dropped, x ∈ c := fun x hx => h.perm.mem_iff.1 (List.mem_append_right _ hx)
  have hlost : ∀ x ∈ dropped, ∃ d ∈ [c], x ∈ d ∧ sibling x ∈ d := fun x hx =>
    ⟨c, List.mem_singleton_self c, hmem x hx, hmem _ (h.paired x hx)⟩
  cases path with
  | nil =>
      have hperm := h.perm
      rw [List.append_nil] at hperm
      refine ⟨?_, h.ne_nil, h.closed, h.apart, h.paired, hlost⟩
      rwa [List.flatten_singleton]
  | cons a path =>
      refine ⟨?_, ?_, ?_, ?_, h.paired, hlost⟩
      · rw [List.flatten_singleton]
        show ((loops ++ [a :: path]).flatten ++ dropped).Perm c
        rw [List.flatten_append, List.flatten_singleton]
        exact h.perm
      · exact List.forall_mem_append.2
          ⟨h.ne_nil, List.forall_mem_singleton.2 (List.cons_ne_nil a path)⟩
      · exact List.forall_mem_append.2
          ⟨h.closed, List.forall_mem_singleton.2 ⟨u, h.joins⟩⟩
      · exact List.forall_mem_append.2 ⟨h.apart, List.forall_mem_singleton.2 hapart⟩

/-- When nothing is walked yet, no edge has a place. -/
theorem waiting_replicate (hnodup : todo.Nodup) (hlt : ∀ x ∈ todo, x < g.numEdges) :
    Waiting g sibling [] (Array.replicate g.numEdges none) todo where
  size_eq := Array.size_replicate
  lt := hlt
  nodup := hnodup
  fresh := by simp
  listed := by simp
  live x i hplace := by
    rw [place?, join_getElem?_replicate_none] at hplace
    cases hplace
  apart := by simp

/-- When the path is forgotten, only places of dropped edges are left. -/
theorem Waiting.forget {path : List Nat} (h : Waiting g sibling path places todo) :
    Waiting g sibling [] (places.forget path) todo where
  size_eq := (size_forget places path).trans h.size_eq
  lt := h.lt
  nodup := h.nodup
  fresh := by simp
  listed := by simp
  live x i hplace hx := by
    rw [place?_forget] at hplace
    split at hplace
    · cases hplace
    · rename_i hpath
      exact absurd (List.mem_of_getElem? (h.live x i hplace hx)) hpath
  apart := by simp

variable (hpairs : g.Pairs sibling)

include hpairs

theorem exists_circuit (hwaiting : Waiting g sibling [] places (c ++ todo))
    (hjoins : Joins g.edge u c u) : ∃ loops places' dropped,
      circuit sibling places c = .ok (loops, places') ∧ Waiting g sibling [] places' todo ∧
      Trimmed g sibling [c] loops dropped := by
  have hstart : Pruned g sibling u u [] [] [] [] :=
    ⟨.refl _, rfl, by simp, by simp, by simp, by simp⟩
  obtain ⟨p, dropped, hp, hwaiting, hpruned⟩ :=
    exists_foldlM (p := ⟨#[], places, []⟩) hpairs hwaiting hstart hjoins
  refine ⟨_, _, dropped, ?_, hwaiting.forget, hpruned.trimmed hwaiting.apart⟩
  rw [circuit, hp]
  rfl

theorem exists_component (hwaiting : Waiting g sibling [] places (circuits.flatten ++ todo))
    (hjoins : ∀ c ∈ circuits, ∃ u, Joins g.edge u c u) : ∃ loops places' dropped,
      component sibling places circuits = .ok (loops, places') ∧
      Waiting g sibling [] places' todo ∧ Trimmed g sibling circuits loops dropped := by
  induction circuits generalizing places with
  | nil => exact ⟨[], places, [], rfl, hwaiting, trimmed_nil⟩
  | cons c circuits ih =>
      obtain ⟨⟨u, hc⟩, hjoins⟩ := List.forall_mem_cons.1 hjoins
      rw [List.flatten_cons, List.append_assoc] at hwaiting
      obtain ⟨loops, mid, dropped, hcircuit, hmid, htrimmed⟩ := exists_circuit hpairs hwaiting hc
      obtain ⟨others, after, dropped', hcomponent, hafter, htrimmed'⟩ := ih hmid hjoins
      refine ⟨loops ++ others, after, _, ?_, hafter, htrimmed.append htrimmed'⟩
      rw [component, hcircuit]
      show (component sibling mid circuits >>= _) = _
      rw [hcomponent]
      rfl

/-- All components can be trimmed, each on its own. -/
theorem exists_components {groups : List (List (List Nat))}
    (hwaiting : Waiting g sibling [] places groups.flatten.flatten)
    (hjoins : ∀ circuits ∈ groups, ∀ c ∈ circuits, ∃ u, Joins g.edge u c u) :
    ∃ kept dropped, components sibling places groups = .ok kept ∧
      Trimmed g sibling groups.flatten kept.flatten dropped ∧
      ∀ loops ∈ kept, ∃ circuits ∈ groups, ∃ dropped, Trimmed g sibling circuits loops dropped := by
  induction groups generalizing places with
  | nil => exact ⟨[], [], rfl, trimmed_nil, by simp⟩
  | cons circuits groups ih =>
      obtain ⟨hcircuits, hjoins⟩ := List.forall_mem_cons.1 hjoins
      rw [List.flatten_cons, List.flatten_append] at hwaiting
      obtain ⟨loops, after, dropped, hcomponent, hafter, htrimmed⟩ :=
        exists_component hpairs hwaiting hcircuits
      obtain ⟨kept, dropped', hcomponents, htrimmed', hkept⟩ := ih hafter hjoins
      refine ⟨loops :: kept, dropped ++ dropped', ?_, htrimmed.append htrimmed', ?_⟩
      · rw [components, hcomponent]
        show (components sibling after groups >>= _) = _
        rw [hcomponents]
        rfl
      · refine List.forall_mem_cons.2 ⟨⟨circuits, List.mem_cons_self, dropped, htrimmed⟩, ?_⟩
        intro m hm
        obtain ⟨others, hothers, hm⟩ := hkept m hm
        exact ⟨others, List.mem_cons_of_mem _ hothers, hm⟩

end Circuits

end Pruning

namespace Graph

variable {g : Graph} {turns : Turns} {sibling : Nat → Nat}

/-- What the components of a directed graph are without filaments, given its left turns, its siblings
and the ids that order edges. -/
structure AreTrimmed (g : Graph) (turns : Turns) (sibling : Nat → Nat) (key : Nat → Int)
    (components : List (List (List Nat))) : Prop where
  lt : ∀ e ∈ components.flatten.flatten, e < g.numEdges
  nodup : components.flatten.flatten.Nodup
  ne_nil : ∀ c ∈ components, c ≠ []
  loop_ne_nil : ∀ c ∈ components, ∀ l ∈ c, l ≠ []
  closed : ∀ c ∈ components, ∀ l ∈ c, IsClosed g.edge l
  occurs : ∀ e < g.numEdges,
    (e ∈ components.flatten.flatten ↔ sibling e ∈ components.flatten.flatten)
  siblings : ∀ c ∈ components, ∀ e ∈ c.flatten, sibling e ∈ c.flatten
  lost : ∀ e < g.numEdges, e ∉ components.flatten.flatten →
    ∃ l, turns.IsCycle l ∧ e ∈ l ∧ sibling e ∈ l
  apart : ∀ c ∈ components, ∀ l ∈ c, ∀ e ∈ l, sibling e ∉ l
  canonical : ∀ c ∈ components, ∀ l ∈ c, canonicalLoop key l = l
  loops_ascending : ∀ c ∈ components, c.Pairwise fun l m => chainKey key l ≤ chainKey key m
  ascending : components.Pairwise fun c d =>
    chainKey key (c.head?.getD []) ≤ chainKey key (d.head?.getD [])

section Groups

variable {groups kept : List (List (List Nat))} (hpairs : g.Pairs sibling)
  (hlt : ∀ e, (∃ f, turns.next? e = some f) ↔ e < g.numEdges)
  (hgrouped : turns.Grouped sibling g.edgeIds groups)

include hpairs hgrouped

/-- In every group, what is left has the siblings of its edges. -/
theorem sibling_mem_of_trimmed {circuits loops : List (List Nat)} {dropped : List Nat} {e : Nat}
    (hcircuits : circuits ∈ groups) (htrimmed : Pruning.Trimmed g sibling circuits loops dropped)
    (he : e < g.numEdges) (hmem : e ∈ loops.flatten) : sibling e ∈ loops.flatten := by
  have hnodup : circuits.flatten.Nodup := by
    have hsublist := List.sublist_flatten_of_mem (List.mem_map_of_mem (f := List.flatten) hcircuits)
    rw [← List.flatten_flatten] at hsublist
    exact hsublist.nodup hgrouped.exhausts.nodup
  apply htrimmed.sibling_mem hnodup (hpairs.involutive e he) hmem
  apply hgrouped.siblings circuits hcircuits
  exact htrimmed.perm.mem_iff.1 (List.mem_append_left _ hmem)

variable (hkept : ∀ loops ∈ kept, ∃ circuits ∈ groups, ∃ dropped,
  Pruning.Trimmed g sibling circuits loops dropped) (key : Nat → Int)

include hkept

theorem sibling_mem_of_mem_arranged : ∀ c ∈ arranged key (kept.filter fun c => !c.isEmpty),
    ∀ e ∈ c.flatten, e < g.numEdges → sibling e ∈ c.flatten := by
  intro c hc e hmem he
  obtain ⟨loops, hloops, hperm⟩ := exists_group_flatten_perm hc
  obtain ⟨circuits, hcircuits, dropped, htrimmed⟩ := hkept loops (List.mem_filter.1 hloops).1
  rw [hperm.mem_iff] at hmem ⊢
  exact sibling_mem_of_trimmed hpairs hgrouped hcircuits htrimmed he hmem

include hlt

/-- What is left of groups of cycles, put in order. -/
theorem areTrimmed {dropped : List Nat}
    (htrimmed : Pruning.Trimmed g sibling groups.flatten kept.flatten dropped) :
    g.AreTrimmed turns sibling key (arranged key (kept.filter fun c => !c.isEmpty)) := by
  have hcomponents := flatten_arranged_perm key (kept.filter fun c => !c.isEmpty)
  rw [List.flatten_filter_not_isEmpty] at hcomponents
  have hleft := htrimmed.canonical hcomponents
  have hperm := hleft.perm.trans (flatten_perm_of_exhausts hlt hgrouped.exhausts)
  have hsiblings := sibling_mem_of_mem_arranged hpairs hgrouped hkept key
  generalize hordered : arranged key (kept.filter fun c => !c.isEmpty) = components
    at hleft hperm hsiblings
  have hmem : ∀ e, e ∈ components.flatten.flatten ↔ ∃ c ∈ components, e ∈ c.flatten := by
    intro e
    rw [List.flatten_flatten, ← List.flatMap_def, List.mem_flatMap]
  have hbound : ∀ e ∈ components.flatten.flatten, e < g.numEdges := fun e he =>
    List.mem_range.1 (hperm.mem_iff.1 (List.mem_append_left _ he))
  have hsibling : ∀ e ∈ components.flatten.flatten, sibling e ∈ components.flatten.flatten := by
    intro e he
    obtain ⟨c, hc, hec⟩ := (hmem e).1 he
    exact (hmem _).2 ⟨c, hc, hsiblings c hc e hec (hbound e he)⟩
  refine ⟨hbound, ?_, fun c hc => ?_, fun c hc l hl => ?_, fun c hc l hl => ?_,
    fun e he => ⟨hsibling e, fun hback => ?_⟩, fun c hc e he => ?_, fun e he hnot => ?_,
    fun c hc l hl => ?_, fun c hc => ?_, fun c hc => ?_, ?_⟩
  · exact (List.nodup_append.1 (hperm.nodup_iff.2 List.nodup_range)).1
  · obtain ⟨loops, hloops, hgroup⟩ := exists_group_perm (hordered ▸ hc)
    intro hnil
    rw [hnil] at hgroup
    have hne := (List.mem_filter.1 hloops).2
    rw [List.map_eq_nil_iff.1 hgroup.symm.eq_nil] at hne
    cases hne
  · exact hleft.ne_nil l (List.mem_flatten_of_mem hc hl)
  · obtain ⟨v, hv⟩ := hleft.closed l (List.mem_flatten_of_mem hc hl)
    exact hv.isClosed
  · rw [← hpairs.involutive e he]
    exact hsibling _ hback
  · exact hsiblings c hc e he (hbound e ((hmem e).2 ⟨c, hc, he⟩))
  · have hdropped := (List.mem_append.1 (hperm.mem_iff.2 (List.mem_range.2 he))).resolve_left hnot
    obtain ⟨l, hl, hboth⟩ := htrimmed.lost e hdropped
    exact ⟨l, hgrouped.exhausts.isCycle l hl, hboth⟩
  · exact hleft.apart l (List.mem_flatten_of_mem hc hl)
  · exact canonicalLoop_of_mem_arranged (hordered ▸ hc)
  · exact pairwise_of_mem_arranged (hordered ▸ hc)
  · exact hordered ▸ pairwise_arranged key _

end Groups

theorem admitsDirectedComponents_discard {o : Options} (hdirected : o.isDirected)
    (hdegenerates : o.degenerates = .discard) (hsiblings : o.siblings.pairsUp) :
    admitsDirectedComponents o .discard := by
  unfold admitsDirectedComponents
  rw [hdirected, hsiblings, hdegenerates]
  rfl

/-- Adding the components of a directed graph of sibling pairs, filaments discarded. -/
theorem addDirected_areTrimmed (sort : ComparisonSort Spoke) (g : Graph) (w : Workspace)
    (hdirected : g.options.isDirected) (hdegenerates : g.options.degenerates = .discard)
    (hsiblings : g.options.siblings.pairsUp) (hknown : g.KnowsInputs)
    (hproper : ∀ e < g.numEdges, (g.edge e).isDegenerate = false)
    (hpaired : ∀ e : Edge, g.edges.toList.count e = g.edges.toList.count e.reverse) :
    g.GivesUp (w.addDirected g .discard sort) ∨
      ∃ r components sibling ids, g.leftTurns sort = .ok r ∧ g.siblingOf = .ok sibling ∧
        g.minInputIds = .ok ids ∧
        w.addDirected g .discard sort =
          .ok ({ w with directed := w.directed ++ components }, none) ∧
        g.AreTrimmed r.value sibling (fun e => ids.getD e noInput) components := by
  have hadmitted := admitsDirectedComponents_discard hdirected hdegenerates hsiblings
  rcases g.leftTurns_cases sort with ⟨hroute, hclockwise⟩ | ⟨r, hroute, -⟩
  · exact .inl ⟨addDirected_of_error hadmitted w hroute, hclockwise⟩
  obtain ⟨groups, ids, hsibling, hids, -, hgrouped, hcomponents⟩ :=
    exists_directedComponents hadmitted hroute hknown hproper hpaired
  obtain ⟨hrouting, hnone⟩ := isRouting_leftTurns_of_paired hroute hpaired hproper
  have hpairs := pairs_inEdgeIds hpaired hproper
  have hlt := hrouting.exists_next_iff hnone
  have hperm := flatten_perm_of_exhausts hlt hgrouped.exhausts
  have hjoins : ∀ circuits ∈ groups, ∀ c ∈ circuits, ∃ u, Joins g.edge u c u := by
    intro circuits hcircuits c hc
    apply joins_of_isCycle fun e f hf => (hrouting.joins e f hf).2.2
    exact hgrouped.exhausts.isCycle c (List.mem_flatten_of_mem hcircuits hc)
  obtain ⟨kept, dropped, hkept, htrimmed, hgroups⟩ := Pruning.exists_components hpairs
    (Pruning.waiting_replicate hgrouped.exhausts.nodup fun x hx =>
      List.mem_range.1 (hperm.mem_iff.1 hx)) hjoins
  refine .inr ⟨r, _, _, ids, hroute, hsibling, hids, ?_,
    areTrimmed hpairs hlt hgrouped hgroups _ htrimmed⟩
  rw [Workspace.addDirected, hcomponents kept hkept]

/-- A triangle, its siblings, and an edge that leads from it to a fourth vertex and back. -/
def triangleAndSpur : Graph where
  options := { degenerates := .discard, siblings := .create }
  vertices := #[⟨0, 0, 1⟩, ⟨1, 0, 0⟩, ⟨0, 1, 0⟩, ⟨-1, -1, 0⟩]
  edges := #[⟨0, 1⟩, ⟨0, 2⟩, ⟨0, 3⟩, ⟨1, 0⟩, ⟨1, 2⟩, ⟨2, 0⟩, ⟨2, 1⟩, ⟨3, 0⟩]
  inputHandles := #[0, 1, 2, 3, 4, 5, 6, 7]
  inputSets := .empty
  labelHandles := #[]
  labelSets := .empty
  valid := rfl

theorem addDirected_areTrimmed_triangleAndSpur :
    ∃ r components sibling ids, triangleAndSpur.leftTurns .standard = .ok r ∧
      triangleAndSpur.siblingOf = .ok sibling ∧ triangleAndSpur.minInputIds = .ok ids ∧
      Workspace.addDirected {} triangleAndSpur .discard = .ok ({ directed := components }, none) ∧
      triangleAndSpur.AreTrimmed r.value sibling (fun e => ids.getD e noInput) components := by
  have hclockwise : triangleAndSpur.OrdersClockwise := by decide +kernel
  exact (addDirected_areTrimmed .standard triangleAndSpur {} rfl rfl rfl
    (knowsInputs_of_singles (by decide)) (by decide)
    (triangleAndSpur.map_reverse_perm_iff.1 (by decide))).resolve_left
      fun hgives => hgives.2 hclockwise

/-- The star is all filaments, and yet they are not discarded. -/
theorem not_areTrimmed_collinearStar :
    ∃ g : Graph, g.options.isDirected ∧ g.options.degenerates = .discard ∧ g.options.siblings.pairsUp ∧
      g.KnowsInputs ∧ (∀ e < g.numEdges, (g.edge e).isDegenerate = false) ∧
      (∀ e : Edge, g.edges.toList.count e = g.edges.toList.count e.reverse) ∧
      Workspace.addDirected {} g .discard = .error .inconsistentOrder :=
  ⟨collinearStar { degenerates := .discard, siblings := .require }, rfl, rfl, rfl,
    knowsInputs_collinearStar _, proper_collinearStar _, paired_collinearStar _,
    addDirected_of_error rfl _ (leftTurns_collinearStar _)⟩

end Graph

end SnapGraph
