import Mathlib
import SnapGraph.Circuit
import SnapGraph.Proofs.Matching

/-! Circuits are cycles. In a table of turns that never leads to a used edge, and never to one edge
from two, a circuit comes back to its start and takes a whole cycle out of the table, so what is left
is a table of the same kind. The circuits that begin at all edges are all cycles, each once. -/

namespace SnapGraph

namespace Turns

/-- The edges, each once, that the turns lead around. -/
def IsCycle (turns : Turns) (c : List Nat) : Prop :=
  c ≠ [] ∧ c.Nodup ∧ Cycle.Chain (fun e f => turns.next? e = some f) (c : Cycle Nat)

/-- No edge is the turn of two, and every turn has a turn itself. -/
structure Closed (turns : Turns) : Prop where
  injective : ∀ e e' f, turns.next? e = some f → turns.next? e' = some f → e = e'
  onward : ∀ e f, turns.next? e = some f → ∃ g, turns.next? f = some g

theorem next?_use (turns : Turns) (e x : Nat) :
    (turns.use e).next? x = if x = e then none else turns.next? x :=
  join_getElem?_setIfInBounds_none turns e x

/-! ### Cycles -/

section Cycles

variable {turns : Turns} {c d : List Nat} {e f : Nat}

theorem IsCycle.isRotated (h : turns.IsCycle c) (hcd : c.IsRotated d) : turns.IsCycle d := by
  obtain ⟨hne, hnodup, hchain⟩ := h
  refine ⟨fun hd => hne ?_, hcd.nodup_iff.1 hnodup, ?_⟩
  · rw [hd] at hcd
    exact List.isRotated_nil_iff.1 hcd
  · rwa [← Cycle.coe_eq_coe.2 hcd]

theorem exists_isRotated_cons (he : e ∈ c) : ∃ l, c.IsRotated (e :: l) := by
  obtain ⟨s, t, rfl⟩ := List.append_of_mem he
  exact ⟨t ++ s, List.isRotated_append⟩

/-- Every edge of a way is followed by the next one. -/
theorem map_next?_of_isChain {l : List Nat} {stop : Nat}
    (h : (e :: (l ++ [stop])).IsChain fun a b => turns.next? a = some b) :
    (e :: l).map turns.next? = (l ++ [stop]).map some := by
  induction l generalizing e with
  | nil =>
      obtain ⟨hstop, -⟩ := List.isChain_cons_cons.1 h
      simp [hstop]
  | cons a l ih =>
      obtain ⟨ha, h⟩ := List.isChain_cons_cons.1 h
      rw [List.map_cons, ih h, ha]
      rfl

theorem IsCycle.map_next? {l : List Nat} (h : turns.IsCycle (e :: l)) :
    (e :: l).map turns.next? = (l ++ [e]).map some :=
  map_next?_of_isChain ((Cycle.chain_coe_cons _ _ _).1 h.2.2)

theorem IsCycle.exists_prev (h : turns.IsCycle c) (hf : f ∈ c) : ∃ p ∈ c, turns.next? p = some f := by
  obtain ⟨l, hl⟩ := exists_isRotated_cons hf
  have hmap := (h.isRotated hl).map_next?
  have hmem : some f ∈ (f :: l).map turns.next? := by
    rw [hmap]
    exact List.mem_map_of_mem (List.mem_append_right _ List.mem_cons_self)
  obtain ⟨p, hp, hnext⟩ := List.mem_map.1 hmem
  exact ⟨p, hl.mem_iff.2 hp, hnext⟩

theorem IsCycle.exists_next (h : turns.IsCycle c) (he : e ∈ c) : ∃ f ∈ c, turns.next? e = some f := by
  obtain ⟨l, hl⟩ := exists_isRotated_cons he
  have hmap := (h.isRotated hl).map_next?
  have hmem : turns.next? e ∈ (l ++ [e]).map some := by
    rw [← hmap]
    exact List.mem_map_of_mem List.mem_cons_self
  obtain ⟨f, hf, hnext⟩ := List.mem_map.1 hmem
  refine ⟨f, hl.mem_iff.2 ?_, hnext.symm⟩
  exact (List.perm_append_singleton e l).mem_iff.1 hf

/-- From one edge to another the turns lead in one way. -/
theorem way_unique {l l' : List Nat} {stop : Nat} (hl : stop ∉ l) (hl' : stop ∉ l')
    (h : (e :: (l ++ [stop])).IsChain fun a b => turns.next? a = some b)
    (h' : (e :: (l' ++ [stop])).IsChain fun a b => turns.next? a = some b) : l = l' := by
  induction l generalizing e l' with
  | nil =>
      cases l' with
      | nil => rfl
      | cons b l' =>
          have hstop := (List.isChain_cons_cons.1 h).1
          have hb := (List.isChain_cons_cons.1 h').1
          cases hstop.symm.trans hb
          exact absurd List.mem_cons_self hl'
  | cons a l ih =>
      have ha := (List.isChain_cons_cons.1 h).1
      cases l' with
      | nil =>
          have hstop := (List.isChain_cons_cons.1 h').1
          cases hstop.symm.trans ha
          exact absurd List.mem_cons_self hl
      | cons b l' =>
          have hb := (List.isChain_cons_cons.1 h').1
          cases ha.symm.trans hb
          rw [ih (fun hmem => hl (List.mem_cons_of_mem _ hmem))
            (fun hmem => hl' (List.mem_cons_of_mem _ hmem)) (List.isChain_cons_cons.1 h).2
            (List.isChain_cons_cons.1 h').2]

/-- Cycles with a common edge are rotations of each other. -/
theorem IsCycle.isRotated_of_mem (hc : turns.IsCycle c) (hd : turns.IsCycle d) (hec : e ∈ c)
    (hed : e ∈ d) : c.IsRotated d := by
  obtain ⟨l, hl⟩ := exists_isRotated_cons hec
  obtain ⟨l', hl'⟩ := exists_isRotated_cons hed
  have hc := hc.isRotated hl
  have hd := hd.isRotated hl'
  have heq : l = l' := way_unique (List.nodup_cons.1 hc.2.1).1 (List.nodup_cons.1 hd.2.1).1
    ((Cycle.chain_coe_cons _ _ _).1 hc.2.2) ((Cycle.chain_coe_cons _ _ _).1 hd.2.2)
  rw [heq] at hl
  exact hl.trans hl'.symm

end Cycles

/-! ### One circuit -/

/-- The turns from an edge to the first one that is used, and the table that is left. -/
structure Traced (turns left : Turns) (e : Nat) (c : List Nat) (stop : Nat) : Prop where
  chain : (c ++ [stop]).IsChain fun a b => turns.next? a = some b
  head : (c ++ [stop]).head? = some e
  nodup : c.Nodup
  used : ∀ x, left.next? x = if x ∈ c then none else turns.next? x
  stops : left.next? stop = none

theorem exists_next_of_isChain {turns : Turns} {c : List Nat} {stop x : Nat}
    (h : (c ++ [stop]).IsChain fun a b => turns.next? a = some b) (hx : x ∈ c) :
    ∃ f, turns.next? x = some f := by
  obtain ⟨s, t, rfl⟩ := List.append_of_mem hx
  rw [List.append_assoc] at h
  have hmap := map_next?_of_isChain (List.IsChain.right_of_append h)
  have hmem : turns.next? x ∈ (t ++ [stop]).map some := by
    rw [← hmap]
    exact List.mem_map_of_mem List.mem_cons_self
  obtain ⟨f, -, hf⟩ := List.mem_map.1 hmem
  exact ⟨f, hf.symm⟩

theorem exists_traced (turns : Turns) (e : Nat) :
    ∃ stop, Traced turns (turns.circuit e).2 e (turns.circuit e).1 stop := by
  fun_induction circuit turns e with
  | case1 turns e h => exact ⟨e, by simp, rfl, List.nodup_nil, by simp, h⟩
  | case2 turns e next h rest left heq ih =>
      obtain ⟨stop, hchain, hhead, hnodup, hused, hstops⟩ := ih
      simp only [heq] at hchain hhead hnodup hused hstops
      have he : e ∉ rest := by
        intro he
        obtain ⟨f, hf⟩ := exists_next_of_isChain hchain he
        rw [next?_use, if_pos rfl] at hf
        cases hf
      have hsub : ∀ a b, (turns.use e).next? a = some b → turns.next? a = some b := by
        intro a b hab
        rw [next?_use] at hab
        split at hab
        · cases hab
        · exact hab
      refine ⟨stop, ?_, rfl, List.nodup_cons.2 ⟨he, hnodup⟩, fun x => ?_, hstops⟩
      · refine List.isChain_cons.2 ⟨fun b hb => ?_, hchain.imp hsub⟩
        cases hhead.symm.trans hb
        exact h
      · show left.next? x = _
        rw [hused, next?_use]
        by_cases hxe : x = e
        · simp [hxe]
        · simp [hxe]

section Closed

variable {turns : Turns} {e f : Nat}

/-- Where the turns never meet, the circuit of an edge ends where it began. -/
theorem Closed.isCycle_circuit (h : turns.Closed) (he : turns.next? e = some f) :
    turns.IsCycle (turns.circuit e).1 ∧ e ∈ (turns.circuit e).1 := by
  obtain ⟨stop, hchain, hhead, hnodup, hused, hstops⟩ := exists_traced turns e
  generalize (turns.circuit e).1 = c at *
  cases c with
  | nil =>
      cases hhead
      rw [hused, if_neg List.not_mem_nil, he] at hstops
      cases hstops
  | cons a l =>
      cases hhead
      have hmap := map_next?_of_isChain hchain
      have htargets : (l ++ [stop]).Nodup := by
        have hnext : ((e :: l).map turns.next?).Nodup := by
          refine List.Nodup.map_on (fun x hx y _ hxy => ?_) hnodup
          obtain ⟨g, hg⟩ := exists_next_of_isChain hchain hx
          exact h.injective x y g hg (hxy ▸ hg)
        rw [hmap] at hnext
        exact hnext.of_map _
      have hstop : stop ∈ e :: l := by
        by_contra hstop
        obtain ⟨p, hp, hnext⟩ := List.mem_map.1
          (hmap ▸ List.mem_map_of_mem (List.mem_append_right l List.mem_cons_self) :
            some stop ∈ (e :: l).map turns.next?)
        obtain ⟨g, hg⟩ := h.onward p stop hnext
        rw [hused, if_neg hstop, hg] at hstops
        cases hstops
      obtain rfl : stop = e := by
        refine (List.mem_cons.1 hstop).resolve_right fun hl => ?_
        exact (List.nodup_append.1 htargets).2.2 stop hl stop List.mem_cons_self rfl
      exact ⟨⟨List.cons_ne_nil _ _, hnodup, (Cycle.chain_coe_cons _ _ _).2 hchain⟩,
        List.mem_cons_self⟩

theorem next?_circuit (turns : Turns) (e x : Nat) : (turns.circuit e).2.next? x =
    if x ∈ (turns.circuit e).1 then none else turns.next? x :=
  (exists_traced turns e).choose_spec.used x

theorem next?_circuit_eq_some_iff {x y : Nat} : (turns.circuit e).2.next? x = some y ↔
    x ∉ (turns.circuit e).1 ∧ turns.next? x = some y := by
  rw [next?_circuit]
  split
  · rename_i hx
    simp [hx]
  · rename_i hx
    simp [hx]

/-- What a cycle leaves is closed. -/
theorem Closed.closed_left (h : turns.Closed) (he : turns.next? e = some f) :
    (turns.circuit e).2.Closed := by
  have hcycle := (h.isCycle_circuit he).1
  refine ⟨fun a b g ha hb => ?_, fun a g hag => ?_⟩
  · exact h.injective a b g (next?_circuit_eq_some_iff.1 ha).2 (next?_circuit_eq_some_iff.1 hb).2
  · obtain ⟨ha, hag⟩ := next?_circuit_eq_some_iff.1 hag
    obtain ⟨g', hg'⟩ := h.onward a g hag
    refine ⟨g', next?_circuit_eq_some_iff.2 ⟨fun hg => ?_, hg'⟩⟩
    obtain ⟨p, hp, hnext⟩ := hcycle.exists_prev hg
    exact ha (h.injective a p g hag hnext ▸ hp)

end Closed

/-! ### Taking cycles out -/

/-- Cycles without a common edge, and the table that is left without their turns. -/
structure Takes (turns : Turns) (circuits : List (List Nat)) (left : Turns) : Prop where
  isCycle : ∀ c ∈ circuits, turns.IsCycle c
  nodup : circuits.flatten.Nodup
  used : ∀ x, left.next? x = if x ∈ circuits.flatten then none else turns.next? x
  closed : left.Closed

section Takes

variable {turns left left' : Turns} {circuits circuits' : List (List Nat)} {e f : Nat}

theorem Takes.nil (h : turns.Closed) : turns.Takes [] turns where
  isCycle _ hc := absurd hc List.not_mem_nil
  nodup := List.nodup_nil
  used _ := (if_neg List.not_mem_nil).symm
  closed := h

theorem Takes.next?_eq_some_iff (h : turns.Takes circuits left) :
    left.next? e = some f ↔ e ∉ circuits.flatten ∧ turns.next? e = some f := by
  rw [h.used]
  split
  · rename_i he
    simp [he]
  · rename_i he
    simp [he]

/-- An edge whose turn is gone is on one of the cycles. -/
theorem Takes.mem_flatten (h : turns.Takes circuits left) (he : turns.next? e = some f)
    (hnone : left.next? e = none) : e ∈ circuits.flatten := by
  by_contra hnot
  rw [h.used, if_neg hnot, he] at hnone
  cases hnone

theorem Takes.next?_eq_none (h : turns.Takes circuits left) (he : turns.next? e = none) :
    left.next? e = none := by
  rw [h.used, he, ite_self]

theorem Takes.exists_next (h : turns.Takes circuits left) (he : e ∈ circuits.flatten) :
    ∃ f, turns.next? e = some f := by
  obtain ⟨c, hc, he⟩ := List.mem_flatten.1 he
  obtain ⟨f, -, hf⟩ := (h.isCycle c hc).exists_next he
  exact ⟨f, hf⟩

theorem Takes.append (h : turns.Takes circuits left) (h' : left.Takes circuits' left') :
    turns.Takes (circuits ++ circuits') left' where
  isCycle := by
    refine List.forall_mem_append.2 ⟨h.isCycle, fun c hc => ?_⟩
    obtain ⟨hne, hnodup, hchain⟩ := h'.isCycle c hc
    exact ⟨hne, hnodup, hchain.imp fun x y hxy => (h.next?_eq_some_iff.1 hxy).2⟩
  nodup := by
    rw [List.flatten_append]
    refine List.nodup_append.2 ⟨h.nodup, h'.nodup, fun x hx y hy hxy => ?_⟩
    obtain ⟨f, hf⟩ := h'.exists_next hy
    exact (h.next?_eq_some_iff.1 hf).1 (hxy ▸ hx)
  used x := by
    rw [h'.used, h.used, List.flatten_append]
    simp only [List.mem_append]
    by_cases hx : x ∈ circuits.flatten
    · simp [hx]
    · simp [hx]
  closed := h'.closed

theorem Closed.takes_circuit (h : turns.Closed) (he : turns.next? e = some f) :
    turns.Takes [(turns.circuit e).1] (turns.circuit e).2 where
  isCycle _ hc := List.mem_singleton.1 hc ▸ (h.isCycle_circuit he).1
  nodup := by
    rw [List.flatten_singleton]
    exact (h.isCycle_circuit he).1.2.1
  used x := by
    rw [next?_circuit, List.flatten_singleton]
  closed := h.closed_left he

end Takes

/-! ### All circuits -/

/-- The circuits are cycles without a common edge, and every start that has a turn is on one. -/
structure Exhausts (turns : Turns) (starts : List Nat) (circuits : List (List Nat)) : Prop where
  isCycle : ∀ c ∈ circuits, turns.IsCycle c
  nodup : circuits.flatten.Nodup
  covered : ∀ e ∈ starts, ∀ f, turns.next? e = some f → e ∈ circuits.flatten

theorem Takes.exhausts {turns left : Turns} {circuits : List (List Nat)} {starts : List Nat}
    (h : turns.Takes circuits left) (hstarts : ∀ e ∈ starts, left.next? e = none) :
    turns.Exhausts starts circuits where
  isCycle := h.isCycle
  nodup := h.nodup
  covered e he _ hf := h.mem_flatten hf (hstarts e he)

theorem Closed.exists_takes_circuits {turns : Turns} (h : turns.Closed) (starts : List Nat) :
    ∃ left, turns.Takes (turns.circuits starts) left ∧ ∀ e ∈ starts, left.next? e = none := by
  fun_induction circuits turns starts with
  | case1 => exact ⟨_, .nil h, by simp⟩
  | case2 turns start starts left hnil ih =>
      obtain ⟨left, htakes, hstarts⟩ := ih h
      refine ⟨left, htakes, List.forall_mem_cons.2 ⟨htakes.next?_eq_none ?_, hstarts⟩⟩
      by_contra hsome
      obtain ⟨f, hf⟩ := Option.ne_none_iff_exists'.1 hsome
      have hmem := (h.isCycle_circuit hf).2
      rw [hnil] at hmem
      cases hmem
  | case3 turns start starts c left hne hcircuit ih =>
      obtain rfl : (turns.circuit start).1 = c := by rw [hcircuit]
      obtain rfl : (turns.circuit start).2 = left := by rw [hcircuit]
      obtain ⟨f, hf⟩ : ∃ f, turns.next? start = some f := by
        by_contra hnone
        refine hne ?_
        rw [circuit]
        split
        · rfl
        · rename_i f hf
          exact absurd ⟨f, hf⟩ hnone
      obtain ⟨left, htakes, hstarts⟩ := ih (h.closed_left hf)
      refine ⟨left, (h.takes_circuit hf).append htakes, List.forall_mem_cons.2 ⟨?_, hstarts⟩⟩
      apply htakes.next?_eq_none
      rw [next?_circuit, if_pos (h.isCycle_circuit hf).2]

theorem Closed.exhausts {turns : Turns} (h : turns.Closed) (starts : List Nat) :
    turns.Exhausts starts (turns.circuits starts) := by
  obtain ⟨left, htakes, hstarts⟩ := h.exists_takes_circuits starts
  exact htakes.exhausts hstarts

end Turns

end SnapGraph
