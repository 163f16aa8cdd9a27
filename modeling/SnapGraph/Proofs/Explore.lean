import Mathlib
import SnapGraph.Component
import SnapGraph.Proofs.Circuit
import SnapGraph.Proofs.Sibling

/-! Exploring takes whole components out of a table of turns. Whatever stands on the frontier, what is
taken out are cycles, and at the end the edges of the frontier and the siblings of all edges taken are
used up. If the edges come in pairs of siblings at the start, they do so in what is left, so that the
sibling of an edge taken is taken too, and the next component can be explored in the same way. -/

namespace SnapGraph

namespace Turns

variable {turns left : Turns} {sibling : Nat → Nat} {e f : Nat}

/-! ### One component -/

/-- What exploring from a frontier takes out. -/
structure Explored (turns : Turns) (sibling : Nat → Nat) (frontier : List Nat)
    (circuits : List (List Nat)) (left : Turns) : Prop where
  takes : turns.Takes circuits left
  frontier : ∀ e ∈ frontier, left.next? e = none
  siblings : ∀ e ∈ circuits.flatten, left.next? (sibling e) = none

/-- A cycle in front of what is explored after it. The siblings of its edges that still have a turn
must be on the frontier then. -/
theorem Explored.cons {start : Nat} {found frontier : List Nat} {circuits : List (List Nat)}
    (h : turns.Closed) (hf : turns.next? start = some f)
    (hfound : ∀ e ∈ (turns.circuit start).1,
      sibling e ∈ found ∨ (turns.circuit start).2.next? (sibling e) = none)
    (hrest : (turns.circuit start).2.Explored sibling (found ++ frontier) circuits left) :
    turns.Explored sibling (start :: frontier) ((turns.circuit start).1 :: circuits) left := by
  refine ⟨(h.takes_circuit hf).append hrest.takes, List.forall_mem_cons.2 ⟨?_, fun e he => ?_⟩,
    fun e he => ?_⟩
  · apply hrest.takes.next?_eq_none
    rw [next?_circuit, if_pos (h.isCycle_circuit hf).2]
  · exact hrest.frontier e (List.mem_append_right _ he)
  · rw [List.flatten_cons] at he
    rcases List.mem_append.1 he with he | he
    · rcases hfound e he with hmem | hnone
      · exact hrest.frontier _ (List.mem_append_left _ hmem)
      · exact hrest.takes.next?_eq_none hnone
    · exact hrest.siblings e he

/-- The sibling of an edge that is passed is noted, or it has no turn afterwards. -/
theorem mem_found_or_next?_eq_none (turns : Turns) (sibling : Nat → Nat) (start : Nat) :
    ∀ e ∈ (turns.follow sibling start).1, sibling e ∈ (turns.follow sibling start).2.1 ∨
      (turns.follow sibling start).2.2.next? (sibling e) = none := by
  fun_induction follow sibling turns start with
  | case1 => simp
  | case2 turns start next hnext rest found left heq waits ih =>
      rw [heq] at ih
      have hleft : left = ((turns.use start).circuit next).2 := by
        rw [← (follow_eq sibling (turns.use start) next).2, heq]
      refine List.forall_mem_cons.2 ⟨?_, fun e he => ?_⟩
      · by_cases hwaits : waits = true
        · rw [if_pos hwaits]
          exact .inl List.mem_cons_self
        · refine .inr ?_
          rw [hleft, next?_circuit, Option.not_isSome_iff_eq_none.1 hwaits, ite_self]
      · refine (ih e he).imp_left fun hmem => ?_
        split
        · exact List.mem_cons_of_mem _ hmem
        · exact hmem

theorem exists_of_mem_found {s : Nat} (hs : s ∈ (turns.follow sibling e).2.1) :
    ∃ x ∈ (turns.follow sibling e).1, sibling x = s := by
  fun_induction follow sibling turns e with
  | case1 => cases hs
  | case2 turns e next hnext rest found left heq waits ih =>
      rw [heq] at ih
      have hmem : s = sibling e ∨ s ∈ found := by
        dsimp only at hs
        split at hs
        · exact List.mem_cons.1 hs
        · exact .inr hs
      rcases hmem with rfl | hmem
      · exact ⟨e, List.mem_cons_self, rfl⟩
      · obtain ⟨x, hx, hsibling⟩ := ih hmem
        exact ⟨x, List.mem_cons_of_mem _ hx, hsibling⟩

theorem Closed.explored (h : turns.Closed) (sibling : Nat → Nat) (frontier : List Nat) :
    turns.Explored sibling frontier (turns.explore sibling frontier).1
      (turns.explore sibling frontier).2 := by
  fun_induction explore sibling turns frontier with
  | case1 turns => exact ⟨.nil h, by simp, by simp⟩
  | case2 turns start frontier hnone ih =>
      obtain ⟨htakes, hfrontier, hsiblings⟩ := ih h
      exact ⟨htakes, List.forall_mem_cons.2 ⟨htakes.next?_eq_none hnone, hfrontier⟩, hsiblings⟩
  | case3 turns start frontier f hf circuit found rest circuits left heq ih =>
      obtain ⟨hcircuit, hrest⟩ := follow_eq sibling turns start
      have hfound := turns.mem_found_or_next?_eq_none sibling start
      have ih := ih (by rw [show rest = _ from hrest]; exact h.closed_left hf)
      rw [heq, show rest = _ from hrest] at ih
      rw [hcircuit, hrest] at hfound
      rw [show circuit = _ from hcircuit]
      exact .cons h hf (fun e he => (hfound e he).imp_left List.mem_reverse.2) ih

/-! ### Pairs of siblings -/

/-- The edges that have a turn come in pairs of siblings. -/
structure Paired (turns : Turns) (sibling : Nat → Nat) : Prop where
  onward : ∀ e f, turns.next? e = some f → ∃ g, turns.next? (sibling e) = some g
  involutive : ∀ e f, turns.next? e = some f → sibling (sibling e) = e

section Paired

variable {frontier : List Nat} {circuits : List (List Nat)}

/-- The sibling of an edge that is taken out is taken out too. -/
theorem Explored.sibling_mem (h : turns.Explored sibling frontier circuits left)
    (hpaired : turns.Paired sibling) (he : e ∈ circuits.flatten) :
    sibling e ∈ circuits.flatten := by
  obtain ⟨f, hf⟩ := h.takes.exists_next he
  obtain ⟨g, hg⟩ := hpaired.onward e f hf
  exact h.takes.mem_flatten hg (h.siblings e he)

theorem Explored.paired_left (h : turns.Explored sibling frontier circuits left)
    (hpaired : turns.Paired sibling) : left.Paired sibling := by
  refine ⟨fun e f hf => ?_, fun e f hf => ?_⟩
  · obtain ⟨he, hf⟩ := h.takes.next?_eq_some_iff.1 hf
    obtain ⟨g, hg⟩ := hpaired.onward e f hf
    refine ⟨g, h.takes.next?_eq_some_iff.2 ⟨fun hsibling => he ?_, hg⟩⟩
    have hback := h.sibling_mem hpaired hsibling
    rwa [hpaired.involutive e f hf] at hback
  · exact hpaired.involutive e f (h.takes.next?_eq_some_iff.1 hf).2

end Paired

/-! ### All components -/

/-- The components, each closed under siblings, are made of cycles without a common edge, and every
start that has a turn is on one. -/
structure Grouped (turns : Turns) (sibling : Nat → Nat) (starts : List Nat)
    (components : List (List (List Nat))) : Prop where
  exhausts : turns.Exhausts starts components.flatten
  ne_nil : ∀ c ∈ components, c ≠ []
  siblings : ∀ c ∈ components, ∀ e ∈ c.flatten, sibling e ∈ c.flatten

theorem exists_takes_components (h : turns.Closed) (hpaired : turns.Paired sibling)
    (starts : List Nat) :
    ∃ left, turns.Takes (turns.components sibling starts).flatten left ∧
      (∀ e ∈ starts, left.next? e = none) ∧ (∀ c ∈ turns.components sibling starts, c ≠ []) ∧
      ∀ c ∈ turns.components sibling starts, ∀ e ∈ c.flatten, sibling e ∈ c.flatten := by
  fun_induction components sibling turns starts with
  | case1 turns => exact ⟨turns, .nil h, by simp, by simp, by simp⟩
  | case2 turns start starts hnone ih =>
      obtain ⟨left, htakes, hstarts, hspec⟩ := ih h hpaired
      exact ⟨left, htakes, List.forall_mem_cons.2 ⟨htakes.next?_eq_none hnone, hstarts⟩, hspec⟩
  | case3 turns start starts f hf circuits rest heq ih =>
      have hexplored := h.explored sibling [start]
      rw [heq] at hexplored
      have hstart := hexplored.frontier start List.mem_cons_self
      obtain ⟨left, htakes, hstarts, hne, hsiblings⟩ :=
        ih hexplored.takes.closed (hexplored.paired_left hpaired)
      refine ⟨left, hexplored.takes.append htakes,
        List.forall_mem_cons.2 ⟨htakes.next?_eq_none hstart, hstarts⟩,
        List.forall_mem_cons.2 ⟨?_, hne⟩, List.forall_mem_cons.2 ⟨fun e he => ?_, hsiblings⟩⟩
      · rintro rfl
        exact List.not_mem_nil (hexplored.takes.mem_flatten hf hstart)
      · exact hexplored.sibling_mem hpaired he

theorem Closed.grouped (h : turns.Closed) (hpaired : turns.Paired sibling) (starts : List Nat) :
    turns.Grouped sibling starts (turns.components sibling starts) := by
  obtain ⟨left, htakes, hstarts, hne, hsiblings⟩ := exists_takes_components h hpaired starts
  exact ⟨htakes.exhausts hstarts, hne, hsiblings⟩

end Turns

/-- Where all edges have a turn, siblings in pairs are siblings among the edges that have one. -/
theorem Graph.Pairs.paired {g : Graph} {turns : Turns} {sibling : Nat → Nat}
    (hpairs : g.Pairs sibling) (hlt : ∀ e, (∃ f, turns.next? e = some f) ↔ e < g.numEdges) :
    turns.Paired sibling where
  onward e f hf := (hlt _).2 (hpairs.lt e ((hlt e).1 ⟨f, hf⟩))
  involutive e f hf := hpairs.involutive e ((hlt e).1 ⟨f, hf⟩)

end SnapGraph
