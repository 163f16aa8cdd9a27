import Mathlib
import SnapGraph.Complement
import SnapGraph.Proofs.Explore

/-! Exploring with sides. The edges that have a turn are those that have no side, and no edge has its
sibling on its own side: a circuit that would break this is refused. So the sibling of an edge is in
the component of the edge, on the other side. Nothing is refused exactly if the edges can be given two
colours that follow the turns and tell siblings apart: within a component the sides are the colours, or
all of them exchanged. -/

namespace SnapGraph

namespace Sides

variable {sides after : Sides} {sibling : Nat → Nat} {side : Bool} {circuit found found' : List Nat}
  {e : Nat}

theorem side?_setIfInBounds (sides : Sides) (a e : Nat) (b : Bool) :
    side? (sides.setIfInBounds a (some b)) e =
      if a = e ∧ a < sides.size then some b else sides.side? e :=
  join_getElem?_setIfInBounds sides a e (some b)

theorem side?_replicate_none (n e : Nat) : side? (Array.replicate n none) e = none :=
  join_getElem?_replicate_none n e

theorem lt_size_of_side? {b : Bool} (h : sides.side? e = some b) : e < sides.size :=
  lt_size_of_join_getElem? h

/-! ### One circuit -/

/-- What giving a circuit a side writes and finds. -/
structure Claimed (sibling : Nat → Nat) (side : Bool) (sides : Sides) (circuit found : List Nat)
    (after : Sides) : Prop where
  size_eq : after.size = sides.size
  given : ∀ x, after.side? x = if x ∈ circuit then some side else sides.side? x
  apart : ∀ e ∈ circuit, after.side? (sibling e) ≠ some side
  mem_found : ∀ s, s ∈ found ↔ (∃ e ∈ circuit, sibling e = s) ∧ after.side? s = none

theorem Claimed.nil : Claimed sibling side sides [] [] sides where
  size_eq := rfl
  given _ := (if_neg List.not_mem_nil).symm
  apart _ he := absurd he List.not_mem_nil
  mem_found _ := by simp

/-- An edge in front of a circuit, whose sibling is not on its side when it is given one. -/
theorem Claimed.cons (he : e < sides.size) (hback : sibling (sibling e) = e)
    (hapart : side? (sides.setIfInBounds e (some side)) (sibling e) ≠ some side)
    (hfound : ∀ s, s ∈ found' ↔
      s = sibling e ∧ side? (sides.setIfInBounds e (some side)) s = none ∨ s ∈ found)
    (h : Claimed sibling side (sides.setIfInBounds e (some side)) circuit found after) :
    Claimed sibling side sides (e :: circuit) found' after := by
  have hset : ∀ x, side? (sides.setIfInBounds e (some side)) x =
      if x = e then some side else sides.side? x := by
    intro x
    rw [side?_setIfInBounds]
    simp only [he, and_true, eq_comm]
  -- A sibling further along the circuit would find this edge on its own side.
  have hnot : sibling e ∉ circuit := by
    intro hmem
    apply h.apart _ hmem
    rw [hback, h.given, hset, if_pos rfl, ite_self]
  have hlast := h.given (sibling e)
  rw [if_neg hnot] at hlast
  refine ⟨?_, fun x => ?_, List.forall_mem_cons.2 ⟨hlast ▸ hapart, h.apart⟩, fun s => ?_⟩
  · rw [h.size_eq, Array.size_setIfInBounds]
  · rw [h.given, hset]
    by_cases hx : x = e
    · simp [hx]
    · simp [hx]
  · rw [hfound, h.mem_found]
    constructor
    · rintro (⟨rfl, hnone⟩ | ⟨⟨f, hf, rfl⟩, hnone⟩)
      · exact ⟨⟨e, List.mem_cons_self, rfl⟩, hlast.trans hnone⟩
      · exact ⟨⟨f, List.mem_cons_of_mem _ hf, rfl⟩, hnone⟩
    · rintro ⟨⟨f, hf, rfl⟩, hnone⟩
      rcases List.mem_cons.1 hf with rfl | hf
      · exact .inl ⟨rfl, hlast.symm.trans hnone⟩
      · exact .inr ⟨⟨f, hf, rfl⟩, hnone⟩

theorem claimed_of_claim (hlt : ∀ e ∈ circuit, e < sides.size)
    (hback : ∀ e ∈ circuit, sibling (sibling e) = e)
    (h : sides.claim sibling side circuit = .ok (found, after)) :
    Claimed sibling side sides circuit found after := by
  fun_induction claim sibling side sides circuit generalizing found after with
  | case1 sides =>
      cases h
      exact .nil
  | case2 sides e rest set hnone =>
      rename_i ih
      obtain ⟨he, hlt⟩ := List.forall_mem_cons.1 hlt
      obtain ⟨hsibling, hback⟩ := List.forall_mem_cons.1 hback
      obtain ⟨⟨found, after⟩, hclaim, hfound⟩ := bind_eq_ok_iff.1 h
      cases hfound
      have hlt : ∀ f ∈ rest, f < set.size := fun f hf =>
        Array.size_setIfInBounds.symm ▸ hlt f hf
      refine (ih hlt hback hclaim).cons he hsibling (hnone ▸ nofun) fun s => ?_
      rw [List.mem_cons]
      constructor
      · rintro (rfl | hs)
        · exact .inl ⟨rfl, hnone⟩
        · exact .inr hs
      · exact Or.imp_left And.left
  | case3 => cases h
  | case4 sides e rest set other hother hne =>
      rename_i ih
      obtain ⟨he, hlt⟩ := List.forall_mem_cons.1 hlt
      obtain ⟨hsibling, hback⟩ := List.forall_mem_cons.1 hback
      have hlt : ∀ f ∈ rest, f < set.size := fun f hf =>
        Array.size_setIfInBounds.symm ▸ hlt f hf
      refine (ih hlt hback h).cons he hsibling (fun heq => ?_) fun s => ?_
      · exact hne (Option.some.inj (hother.symm.trans heq))
      · refine ⟨.inr, fun hs => hs.resolve_left ?_⟩
        rintro ⟨rfl, hnone⟩
        exact Option.some_ne_none other (hother.symm.trans hnone)

/-- A side that an edge has after another one was given a side. -/
theorem eq_or_of_side?_setIfInBounds {x : Nat}
    (h : side? (sides.setIfInBounds e (some side)) x = some side) :
    x = e ∨ sides.side? x = some side := by
  rw [side?_setIfInBounds] at h
  split at h
  · rename_i he
    exact .inl he.1.symm
  · exact .inr h

/-- A circuit is refused for an edge whose sibling is on the circuit too, or on its side already. -/
theorem of_claim_eq_error {err : BuildError} (h : sides.claim sibling side circuit = .error err) :
    ∃ e ∈ circuit, err = .siblingInSameComplement e ∧
      (sibling e ∈ circuit ∨ sides.side? (sibling e) = some side) := by
  have hcons : ∀ {sides : Sides} {e : Nat} {rest : List Nat}, (∃ f ∈ rest,
      err = .siblingInSameComplement f ∧ (sibling f ∈ rest ∨
        side? (sides.setIfInBounds e (some side)) (sibling f) = some side)) →
      ∃ f ∈ e :: rest, err = .siblingInSameComplement f ∧
        (sibling f ∈ e :: rest ∨ sides.side? (sibling f) = some side) := by
    rintro sides e rest ⟨f, hf, rfl, hsibling⟩
    refine ⟨f, List.mem_cons_of_mem _ hf, rfl, ?_⟩
    rcases hsibling with hmem | hside
    · exact .inl (List.mem_cons_of_mem _ hmem)
    · rcases eq_or_of_side?_setIfInBounds hside with heq | hside
      · exact .inl (List.mem_cons.2 (.inl heq))
      · exact .inr hside
  fun_induction claim sibling side sides circuit with
  | case1 sides => cases h
  | case2 sides e rest set hnone =>
      rename_i ih
      cases hclaim : claim sibling side set rest with
      | error err' =>
          rw [hclaim] at h
          cases h
          exact hcons (ih hclaim)
      | ok r =>
          rw [hclaim] at h
          cases h
  | case3 sides e rest set =>
      rename_i hsame
      cases h
      refine ⟨e, List.mem_cons_self, rfl, ?_⟩
      rcases eq_or_of_side?_setIfInBounds hsame with heq | hside
      · exact .inl (List.mem_cons.2 (.inl heq))
      · exact .inr hside
  | case4 sides e rest set other hother hne =>
      rename_i ih
      exact hcons (ih h)

end Sides

namespace Turns

variable {turns : Turns} {sides : Sides} {sibling : Nat → Nat} {start f : Nat}

/-! ### One component -/

/-- The edges without a side are those that have a turn, and siblings are not on one side. -/
structure InStep (turns : Turns) (sides : Sides) (sibling : Nat → Nat) : Prop where
  closed : turns.Closed
  fresh : ∀ e, (∃ f, turns.next? e = some f) ↔ e < sides.size ∧ sides.side? e = none
  apart : ∀ e b, sides.side? e = some b → sides.side? (sibling e) ≠ some b
  lt : ∀ e < sides.size, sibling e < sides.size
  involutive : ∀ e < sides.size, sibling (sibling e) = e

theorem InStep.lt_of_mem_circuit (h : turns.InStep sides sibling)
    (hf : turns.next? start = some f) {e : Nat} (he : e ∈ (turns.circuit start).1) :
    e < sides.size := by
  obtain ⟨f, -, hf⟩ := (h.closed.isCycle_circuit hf).1.exists_next he
  exact ((h.fresh e).1 ⟨f, hf⟩).1

theorem InStep.claimed (h : turns.InStep sides sibling) (hf : turns.next? start = some f)
    {side : Bool} {found : List Nat} {after : Sides}
    (hclaim : sides.claim sibling side (turns.circuit start).1 = .ok (found, after)) :
    Sides.Claimed sibling side sides (turns.circuit start).1 found after :=
  Sides.claimed_of_claim (fun _ he => h.lt_of_mem_circuit hf he)
    (fun _ he => h.involutive _ (h.lt_of_mem_circuit hf he)) hclaim

/-- Giving a circuit a side keeps turns and sides in step. -/
theorem InStep.circuit (h : turns.InStep sides sibling) (hf : turns.next? start = some f)
    {side : Bool} {found : List Nat} {after : Sides}
    (hclaimed : Sides.Claimed sibling side sides (turns.circuit start).1 found after) :
    (turns.circuit start).2.InStep after sibling where
  closed := h.closed.closed_left hf
  fresh e := by
    simp only [next?_circuit_eq_some_iff, exists_and_left, h.fresh, hclaimed.size_eq,
      hclaimed.given]
    by_cases he : e ∈ (turns.circuit start).1
    · simp [he]
    · simp [he]
  apart e b hb hsibling := by
    by_cases he : e ∈ (turns.circuit start).1
    · rw [hclaimed.given, if_pos he] at hb
      cases hb
      exact hclaimed.apart e he hsibling
    · have hold := hb
      rw [hclaimed.given, if_neg he] at hold
      by_cases hmem : sibling e ∈ (turns.circuit start).1
      · rw [hclaimed.given, if_pos hmem] at hsibling
        cases hsibling
        apply hclaimed.apart _ hmem
        rwa [h.involutive e (Sides.lt_size_of_side? hold)]
      · rw [hclaimed.given, if_neg hmem] at hsibling
        exact h.apart e b hold hsibling
  lt := hclaimed.size_eq ▸ h.lt
  involutive := hclaimed.size_eq ▸ h.involutive

/-- What exploring with sides from a frontier grants. -/
structure Sided (turns : Turns) (sides : Sides) (sibling : Nat → Nat) (frontier : List (Nat × Bool))
    (x : Exploration) : Prop where
  explored : turns.Explored sibling (frontier.map Prod.fst) (x.circuits.map Prod.snd) x.turns
  inStep : x.turns.InStep x.sides sibling
  size_eq : x.sides.size = sides.size
  kept : ∀ e b, sides.side? e = some b → x.sides.side? e = some b
  given : ∀ p ∈ x.circuits, ∀ e ∈ p.2, x.sides.side? e = some p.1

/-- A circuit that was given a side, in front of what is explored from the siblings it found. -/
theorem Sided.cons {side : Bool} {frontier : List (Nat × Bool)} {found : List Nat} {after : Sides}
    {x : Exploration} (h : turns.InStep sides sibling) (hf : turns.next? start = some f)
    (hclaimed : Sides.Claimed sibling side sides (turns.circuit start).1 found after)
    (hrest : (turns.circuit start).2.Sided after sibling
      ((found.reverse.map fun s => (s, !side)) ++ frontier) x) :
    turns.Sided sides sibling ((start, side) :: frontier)
      { x with circuits := (side, (turns.circuit start).1) :: x.circuits } := by
  have hin := h.circuit hf hclaimed
  have hexplored := hrest.explored
  rw [List.map_append, List.map_map] at hexplored
  refine ⟨.cons h.closed hf (fun e he => ?_) hexplored, hrest.inStep,
    hrest.size_eq.trans hclaimed.size_eq, fun e b hb => ?_,
    List.forall_mem_cons.2 ⟨fun e he => ?_, hrest.given⟩⟩
  · by_cases hmem : sibling e ∈ found
    · refine .inl (List.mem_map.2 ⟨_, List.mem_reverse.2 hmem, rfl⟩)
    · refine .inr (Option.eq_none_iff_forall_ne_some.2 fun g hg => hmem ?_)
      exact (hclaimed.mem_found _).2 ⟨⟨e, he, rfl⟩, ((hin.fresh _).1 ⟨g, hg⟩).2⟩
  · apply hrest.kept
    rw [hclaimed.given, if_neg, hb]
    intro he
    obtain ⟨g, -, hg⟩ := (h.closed.isCycle_circuit hf).1.exists_next he
    exact Option.some_ne_none b (hb.symm.trans ((h.fresh e).1 ⟨g, hg⟩).2)
  · apply hrest.kept
    rw [hclaimed.given, if_pos he]

/-- Exploring with sides succeeds, or names an edge. -/
theorem InStep.sided_or_error (h : turns.InStep sides sibling) (frontier : List (Nat × Bool)) :
    (∃ x, turns.exploreSides sibling sides frontier = .ok x ∧
      turns.Sided sides sibling frontier x) ∨
    ∃ e < sides.size, turns.exploreSides sibling sides frontier =
      .error (.siblingInSameComplement e) := by
  fun_induction exploreSides sibling turns sides frontier with
  | case1 turns sides =>
      exact .inl ⟨_, rfl, ⟨.nil h.closed, by simp, by simp⟩, h, rfl, fun _ _ => id, by simp⟩
  | case2 turns sides start side frontier hnone ih =>
      rcases ih h with ⟨x, hx, hsided⟩ | herror
      · obtain ⟨htakes, hfrontier, hsiblings⟩ := hsided.explored
        refine .inl ⟨x, hx, ⟨htakes, List.forall_mem_cons.2 ⟨?_, hfrontier⟩, hsiblings⟩,
          hsided.inStep, hsided.size_eq, hsided.kept, hsided.given⟩
        exact htakes.next?_eq_none hnone
      · exact .inr herror
  | case3 turns sides start side frontier f hf circuit err hclaim =>
      obtain ⟨e, he, rfl, -⟩ := Sides.of_claim_eq_error hclaim
      exact .inr ⟨e, h.lt_of_mem_circuit hf he, rfl⟩
  | case4 turns sides start side frontier f hf circuit found after hclaim onward err herr ih =>
      have hclaimed := h.claimed hf hclaim
      rcases ih (h.circuit hf hclaimed) with ⟨x, hx, -⟩ | ⟨e, he, herror⟩
      · cases herr.symm.trans hx
      · cases herr.symm.trans herror
        exact .inr ⟨e, hclaimed.size_eq ▸ he, rfl⟩
  | case5 turns sides start side frontier f hf circuit found after hclaim onward x hx ih =>
      have hclaimed := h.claimed hf hclaim
      rcases ih (h.circuit hf hclaimed) with ⟨y, hy, hsided⟩ | ⟨e, -, herror⟩
      · cases hx.symm.trans hy
        exact .inl ⟨_, rfl, .cons h hf hclaimed hsided⟩
      · cases hx.symm.trans herror

/-- The sibling of an edge of a component is in the component, on the other side. -/
theorem Sided.exists_opposite {frontier : List (Nat × Bool)} {x : Exploration}
    (h : turns.Sided sides sibling frontier x) (hpaired : turns.Paired sibling) :
    ∀ p ∈ x.circuits, ∀ e ∈ p.2, ∃ q ∈ x.circuits, q.1 = !p.1 ∧ sibling e ∈ q.2 := by
  intro p hp e he
  have hmem : e ∈ (x.circuits.map Prod.snd).flatten :=
    List.mem_flatten_of_mem (List.mem_map_of_mem hp) he
  obtain ⟨c, hc, hsibling⟩ := List.mem_flatten.1 (h.explored.sibling_mem hpaired hmem)
  obtain ⟨q, hq, rfl⟩ := List.mem_map.1 hc
  have hne := h.inStep.apart e p.1 (h.given p hp e he)
  rw [h.given q hq _ hsibling] at hne
  exact ⟨q, hq, Bool.eq_not_of_ne fun heq => hne (congrArg some heq), hsibling⟩

/-! ### Colourings -/

/-- Two colours, one along all turns and different for siblings. -/
structure IsColouring (turns : Turns) (sibling : Nat → Nat) (n : Nat) (c : Nat → Bool) : Prop where
  turns : ∀ e f, turns.next? e = some f → c e = c f
  siblings : ∀ e < n, c (sibling e) ≠ c e

section Colouring

variable {c : Nat → Bool} {n : Nat}

/-- All edges of a cycle have one colour. -/
theorem IsCycle.colour_eq {l : List Nat} (hl : turns.IsCycle l)
    (hc : ∀ e f, turns.next? e = some f → c e = c f) {e f : Nat} (he : e ∈ l) (hf : f ∈ l) :
    c e = c f := by
  have hchain : Cycle.Chain (fun e f => c e = c f) (l : Cycle Nat) := hl.2.2.imp hc
  have htrans : IsTrans Nat fun e f => c e = c f := ⟨fun _ _ _ => Eq.trans⟩
  exact Cycle.chain_iff_pairwise.1 hchain e he f hf

/-- The sides given in the component so far, and those on the frontier, are the colours, or all of
them exchanged if `k` is set. -/
structure Follows (turns : Turns) (sides : Sides) (sibling : Nat → Nat)
    (frontier : List (Nat × Bool)) (c : Nat → Bool) (k : Bool) : Prop where
  frontier : ∀ p ∈ frontier, p.2 = (c p.1 ^^ k)
  sides : ∀ e f, turns.next? e = some f → ∀ b, sides.side? (sibling e) = some b →
    b = (c (sibling e) ^^ k)

/-- When a component is begun, no edge that still has a turn has a sibling with a side. -/
theorem Follows.initial (h : turns.InStep sides sibling) (hpaired : turns.Paired sibling)
    (c : Nat → Bool) (start : Nat) : turns.Follows sides sibling [(start, false)] c (c start) where
  frontier p hp := by
    rw [List.mem_singleton.1 hp, Bool.xor_self]
  sides e f hf b hb := by
    have hnone := ((h.fresh _).1 (hpaired.onward e f hf)).2
    exact absurd (hb.symm.trans hnone) (Option.some_ne_none b)

section Circuit

variable {side k : Bool} {frontier : List (Nat × Bool)} {found : List Nat} {after : Sides}

theorem Follows.side_eq (hfollows : turns.Follows sides sibling ((start, side) :: frontier) c k)
    (h : turns.InStep sides sibling) (hc : turns.IsColouring sibling sides.size c)
    (hf : turns.next? start = some f) {e : Nat} (he : e ∈ (turns.circuit start).1) :
    side = (c e ^^ k) := by
  obtain ⟨hcycle, hstart⟩ := h.closed.isCycle_circuit hf
  rw [hcycle.colour_eq hc.turns he hstart]
  exact hfollows.frontier _ List.mem_cons_self

/-- A circuit whose side follows a colouring is not refused. -/
theorem Follows.claim_ne_error (hfollows : turns.Follows sides sibling ((start, side) :: frontier) c k)
    (h : turns.InStep sides sibling) (hc : turns.IsColouring sibling sides.size c)
    (hf : turns.next? start = some f) (err : BuildError) :
    sides.claim sibling side (turns.circuit start).1 ≠ .error err := by
  intro hclaim
  obtain ⟨hcycle, -⟩ := h.closed.isCycle_circuit hf
  obtain ⟨e, he, -, hsibling⟩ := Sides.of_claim_eq_error hclaim
  apply hc.siblings e (h.lt_of_mem_circuit hf he)
  rcases hsibling with hmem | hside
  · exact hcycle.colour_eq hc.turns hmem he
  · obtain ⟨f, -, hf'⟩ := hcycle.exists_next he
    have hgiven := hfollows.sides e f hf' side hside
    rw [hfollows.side_eq h hc hf he] at hgiven
    exact (Bool.xor_left_inj.1 hgiven).symm

theorem Follows.circuit (hfollows : turns.Follows sides sibling ((start, side) :: frontier) c k)
    (h : turns.InStep sides sibling) (hc : turns.IsColouring sibling sides.size c)
    (hf : turns.next? start = some f)
    (hclaimed : Sides.Claimed sibling side sides (turns.circuit start).1 found after) :
    (turns.circuit start).2.Follows after sibling
      ((found.reverse.map fun s => (s, !side)) ++ frontier) c k where
  frontier := by
    refine List.forall_mem_append.2 ⟨fun p hp => ?_, (List.forall_mem_cons.1 hfollows.frontier).2⟩
    obtain ⟨s, hs, rfl⟩ := List.mem_map.1 hp
    obtain ⟨⟨e, he, rfl⟩, -⟩ := (hclaimed.mem_found s).1 (List.mem_reverse.1 hs)
    have hne := Bool.eq_not_of_ne (hc.siblings e (h.lt_of_mem_circuit hf he))
    show (!side) = _
    rw [hfollows.side_eq h hc hf he, hne, Bool.not_xor]
  sides e g hg b hb := by
    rw [hclaimed.given] at hb
    split at hb
    · rename_i hmem
      cases hb
      exact hfollows.side_eq h hc hf hmem
    · exact hfollows.sides e g (next?_circuit_eq_some_iff.1 hg).2 b hb

end Circuit

/-- Where there is a colouring, nothing is refused. -/
theorem InStep.exists_exploreSides (h : turns.InStep sides sibling)
    (hc : turns.IsColouring sibling sides.size c) {k : Bool} {frontier : List (Nat × Bool)}
    (hfollows : turns.Follows sides sibling frontier c k) :
    ∃ x, turns.exploreSides sibling sides frontier = .ok x := by
  fun_induction exploreSides sibling turns sides frontier with
  | case1 turns sides => exact ⟨_, rfl⟩
  | case2 turns sides start side frontier hnone ih =>
      exact ih h hc ⟨(List.forall_mem_cons.1 hfollows.frontier).2, hfollows.sides⟩
  | case3 turns sides start side frontier f hf circuit err hclaim =>
      exact absurd hclaim (hfollows.claim_ne_error h hc hf err)
  | case4 turns sides start side frontier f hf circuit found after hclaim onward err herr ih =>
      have hclaimed := h.claimed hf hclaim
      have hrest : (turns.circuit start).2.IsColouring sibling after.size c :=
        ⟨fun e f hf => hc.turns e f (next?_circuit_eq_some_iff.1 hf).2,
          hclaimed.size_eq ▸ hc.siblings⟩
      obtain ⟨x, hx⟩ := ih (h.circuit hf hclaimed) hrest (hfollows.circuit h hc hf hclaimed)
      cases herr.symm.trans hx
  | case5 turns sides start side frontier f hf circuit found after hclaim onward x hx ih =>
      exact ⟨_, rfl⟩

end Colouring

end Turns

namespace Complements

open Turns

variable {turns left : Turns} {sides : Sides} {sibling : Nat → Nat} {n : Nat}

/-! ### All components -/

/-- In a component the sibling of an edge is on the other side. -/
structure IsSided (sibling : Nat → Nat) (component : List (Bool × List Nat)) : Prop where
  ne_nil : component ≠ []
  opposite : ∀ p ∈ component, ∀ e ∈ p.2, ∃ q ∈ component, q.1 = !p.1 ∧ sibling e ∈ q.2

/-- What the search for components grants. If it ends with an error, that is about the component
after those that were found. -/
structure Searched (turns : Turns) (sibling : Nat → Nat) (n : Nat) (starts : List Nat)
    (found : Outcome (List (List (Bool × List Nat)))) (left : Turns) : Prop where
  takes : turns.Takes (found.value.flatten.map Prod.snd) left
  sided : ∀ c ∈ found.value, IsSided sibling c
  starts : found.error? = none → ∀ e ∈ starts, left.next? e = none
  names : ∀ err, found.error? = some err → ∃ e < n, err = .siblingInSameComplement e
  colours : ∀ c, turns.IsColouring sibling n c → found.error? = none

theorem exists_searched (h : turns.InStep sides sibling) (hpaired : turns.Paired sibling)
    (starts : List Nat) :
    ∃ left, Searched turns sibling sides.size starts (circuits sibling turns sides starts) left := by
  fun_induction circuits sibling turns sides starts with
  | case1 turns sides => exact ⟨turns, .nil h.closed, by simp, by simp, by simp, by simp⟩
  | case2 turns sides start starts hnone ih =>
      obtain ⟨left, htakes, hsided, hstarts, hnames, hcolours⟩ := ih h hpaired
      refine ⟨left, htakes, hsided, fun hok => ?_, hnames, hcolours⟩
      exact List.forall_mem_cons.2 ⟨htakes.next?_eq_none hnone, hstarts hok⟩
  | case3 turns sides start starts f hf err herr =>
      refine ⟨turns, .nil h.closed, by simp, nofun, fun err' herr' => ?_, fun c hc => ?_⟩
      · cases herr'
        rcases h.sided_or_error [(start, false)] with ⟨x, hx, -⟩ | ⟨e, he, herror⟩
        · cases herr.symm.trans hx
        · cases herr.symm.trans herror
          exact ⟨e, he, rfl⟩
      · obtain ⟨x, hx⟩ := h.exists_exploreSides hc (.initial h hpaired c start)
        cases herr.symm.trans hx
  | case4 turns sides start starts f hf x hx others ih =>
      rcases h.sided_or_error [(start, false)] with ⟨y, hy, hx'⟩ | ⟨e, -, herror⟩
      · cases hx.symm.trans hy
        have hexplored := hx'.explored
        obtain ⟨left, htakes, hsided, hstarts, hnames, hcolours⟩ :=
          ih hx'.inStep (hexplored.paired_left hpaired)
        have hstart := hexplored.frontier start List.mem_cons_self
        rw [hx'.size_eq] at hnames hcolours
        refine ⟨left, ?_, List.forall_mem_cons.2 ⟨⟨?_, hx'.exists_opposite hpaired⟩, hsided⟩,
          fun hok => List.forall_mem_cons.2 ⟨htakes.next?_eq_none hstart, hstarts hok⟩, hnames,
          fun c hc => hcolours c ⟨fun e f hf => ?_, hc.siblings⟩⟩
        · rw [List.flatten_cons, List.map_append]
          exact hexplored.takes.append htakes
        · intro hnil
          have hmem := hexplored.takes.mem_flatten hf hstart
          rw [hnil] at hmem
          exact List.not_mem_nil hmem
        · exact hc.turns e f (hexplored.takes.next?_eq_some_iff.1 hf).2
      · cases hx.symm.trans herror

/-- The side of the circuit that an edge is on. -/
def colour (circuits : List (Bool × List Nat)) (e : Nat) : Bool :=
  circuits.any fun p => p.1 && decide (e ∈ p.2)

/-- Where no edge is on two circuits, an edge has the side of any circuit it is on. -/
theorem colour_eq {circuits : List (Bool × List Nat)}
    (hnodup : (circuits.map Prod.snd).flatten.Nodup) {p : Bool × List Nat} (hp : p ∈ circuits)
    {e : Nat} (he : e ∈ p.2) : colour circuits e = p.1 := by
  have hdisjoint := List.pairwise_map.1 (List.nodup_flatten.1 hnodup).2
  have hsymm : Std.Symm fun a b : Bool × List Nat => a.2.Disjoint b.2 := ⟨fun _ _ h => h.symm⟩
  have honly : ∀ q ∈ circuits, e ∈ q.2 → q = p := by
    intro q hq heq
    by_contra hne
    exact hdisjoint.forall hq hp hne heq he
  rw [Bool.eq_iff_iff, colour, List.any_eq_true]
  constructor
  · rintro ⟨q, hq, hside⟩
    obtain ⟨hside, hmem⟩ := Bool.and_eq_true_iff.1 hside
    rwa [← honly q hq (of_decide_eq_true hmem)]
  · intro hside
    exact ⟨p, hp, Bool.and_eq_true_iff.2 ⟨hside, decide_eq_true he⟩⟩

/-- If the search ends without an error, the sides are a colouring. -/
theorem Searched.isColouring {found : Outcome (List (List (Bool × List Nat)))} {starts : List Nat}
    (h : Searched turns sibling n starts found left)
    (hstarts : ∀ e f, turns.next? e = some f → e ∈ starts)
    (hsome : ∀ e < n, ∃ f, turns.next? e = some f) (hok : found.error? = none) :
    turns.IsColouring sibling n (colour found.value.flatten) := by
  have hexists : ∀ e f, turns.next? e = some f →
      ∃ component ∈ found.value, ∃ p ∈ component, e ∈ p.2 := by
    intro e f hf
    have hmem := h.takes.mem_flatten hf (h.starts hok e (hstarts e f hf))
    obtain ⟨l, hl, he⟩ := List.mem_flatten.1 hmem
    obtain ⟨p, hp, rfl⟩ := List.mem_map.1 hl
    obtain ⟨component, hcomponent, hp⟩ := List.mem_flatten.1 hp
    exact ⟨component, hcomponent, p, hp, he⟩
  have hcolour : ∀ component ∈ found.value, ∀ p ∈ component, ∀ e ∈ p.2,
      colour found.value.flatten e = p.1 := fun component hcomponent p hp e he =>
    colour_eq h.takes.nodup (List.mem_flatten_of_mem hcomponent hp) he
  refine ⟨fun e f hf => ?_, fun e he => ?_⟩
  · obtain ⟨component, hcomponent, p, hp, hep⟩ := hexists e f hf
    have hcycle := h.takes.isCycle p.2
      (List.mem_map_of_mem (List.mem_flatten_of_mem hcomponent hp))
    obtain ⟨g, hg, hnext⟩ := hcycle.exists_next hep
    cases hf.symm.trans hnext
    rw [hcolour component hcomponent p hp e hep, hcolour component hcomponent p hp f hg]
  · obtain ⟨f, hf⟩ := hsome e he
    obtain ⟨component, hcomponent, p, hp, hep⟩ := hexists e f hf
    obtain ⟨q, hq, hside, hsibling⟩ := (h.sided component hcomponent).opposite p hp e hep
    rw [hcolour component hcomponent p hp e hep, hcolour component hcomponent q hq _ hsibling,
      hside]
    exact Bool.not_ne_self p.1

end Complements

end SnapGraph
