import Mathlib
import SnapGraph.Edge

/-! Edges that lead from one vertex to another, each ending where the next one begins. Where the two
vertices are the same, the edges may begin anywhere in cyclic order. -/

namespace SnapGraph

section Joins

variable (edge : Nat → Edge)

/-- The edges lead from `u` to `v`. -/
def Joins : Int → List Nat → Int → Prop
  | u, [], v => u = v
  | u, e :: l, v => (edge e).origin = u ∧ Joins (edge e).dest l v

/-- A polyline has edges, and each of them ends where the next one begins. -/
structure IsPolyline (l : List Nat) : Prop where
  ne_nil : l ≠ []
  isChain : l.IsChain fun e f => (edge e).dest = (edge f).origin

/-- Each edge ends where the next one in cyclic order begins. -/
def IsClosed (l : List Nat) : Prop :=
  Cycle.Chain (fun e f => (edge e).dest = (edge f).origin) (l : Cycle Nat)

variable {edge} {u v w : Int} {e : Nat} {l l' : List Nat}

theorem joins_append :
    Joins edge u (l ++ l') w ↔ ∃ v, Joins edge u l v ∧ Joins edge v l' w := by
  induction l generalizing u with
  | nil =>
      constructor
      · intro h
        exact ⟨u, rfl, h⟩
      · rintro ⟨v, rfl, h⟩
        exact h
  | cons a l ih =>
      rw [List.cons_append, Joins, ih]
      constructor
      · rintro ⟨ha, v, hl, hl'⟩
        exact ⟨v, ⟨ha, hl⟩, hl'⟩
      · rintro ⟨v, ⟨ha, hl⟩, hl'⟩
        exact ⟨ha, v, hl, hl'⟩

theorem joins_concat :
    Joins edge u (l ++ [e]) w ↔ Joins edge u l (edge e).origin ∧ (edge e).dest = w := by
  rw [joins_append]
  constructor
  · rintro ⟨v, hl, rfl, hw⟩
    exact ⟨hl, hw⟩
  · rintro ⟨hl, hw⟩
    exact ⟨_, hl, rfl, hw⟩

theorem Joins.isChain (h : Joins edge u l v) :
    l.IsChain fun e f => (edge e).dest = (edge f).origin := by
  induction l generalizing u with
  | nil => exact List.IsChain.nil
  | cons a l ih =>
      refine List.isChain_cons.2 ⟨fun b hb => ?_, ih h.2⟩
      cases l with
      | nil => cases hb
      | cons c l =>
          cases hb
          exact h.2.1.symm

/-- Each edge of a way leaves the vertex that the one before it enters. -/
theorem Joins.cons_map_dest (h : Joins edge u l v) :
    u :: l.map (fun e => (edge e).dest) = l.map (fun e => (edge e).origin) ++ [v] := by
  induction l generalizing u with
  | nil =>
      cases h
      rfl
  | cons e l ih =>
      obtain ⟨rfl, h⟩ := h
      rw [List.map_cons, List.map_cons, List.cons_append, ih h]

theorem Joins.isPolyline (h : Joins edge u (e :: l) v) : IsPolyline edge (e :: l) :=
  ⟨List.cons_ne_nil _ _, h.isChain⟩

theorem Joins.isRotated (h : Joins edge u l u) (hl : l.IsRotated l') :
    ∃ v, Joins edge v l' v := by
  obtain ⟨n, rfl⟩ := hl
  rw [List.rotate_eq_drop_append_take_mod]
  rw [← List.take_append_drop (n % l.length) l, joins_append] at h
  obtain ⟨v, htake, hdrop⟩ := h
  exact ⟨v, joins_append.2 ⟨u, hdrop, htake⟩⟩

theorem Joins.isClosed (h : Joins edge u l u) : IsClosed edge l := by
  cases l with
  | nil => exact Cycle.Chain.nil _
  | cons a l =>
      refine (Cycle.chain_coe_cons _ _ _).2 ?_
      rw [← List.cons_append]
      have hloop : Joins edge u ((a :: l) ++ [a]) (edge a).dest := by
        rw [joins_concat, h.1]
        exact ⟨h, rfl⟩
      exact hloop.isChain

/-- Of the edges of a way, as many leave a vertex as enter it, but for the two ends. -/
theorem Joins.countP_sub (h : Joins edge u l v) (x : Int) :
    (l.countP fun e => (edge e).origin == x : Int) - (l.countP fun e => (edge e).dest == x : Int) =
      (if x = u then 1 else 0) - (if x = v then 1 else 0) := by
  induction l generalizing u with
  | nil =>
      cases h
      simp
  | cons a l ih =>
      obtain ⟨rfl, h⟩ := h
      have ih := ih h
      simp only [List.countP_cons, beq_iff_eq, Nat.cast_add, Nat.cast_ite, Nat.cast_one,
        Nat.cast_zero, eq_comm (b := x)] at ih ⊢
      omega

theorem joins_of_isChain (h : (e :: l).IsChain fun e f => (edge e).dest = (edge f).origin) :
    ∃ v, Joins edge (edge e).origin (e :: l) v := by
  induction l generalizing e with
  | nil => exact ⟨_, rfl, rfl⟩
  | cons a l ih =>
      obtain ⟨hea, h⟩ := List.isChain_cons_cons.1 h
      obtain ⟨v, hv⟩ := ih h
      exact ⟨v, rfl, hea ▸ hv⟩

theorem IsPolyline.joins (h : IsPolyline edge (e :: l)) :
    ∃ v, Joins edge (edge e).origin (e :: l) v := joins_of_isChain h.isChain

theorem IsClosed.joins (h : IsClosed edge (e :: l)) :
    Joins edge (edge e).origin (e :: l) (edge e).origin := by
  have hchain := (Cycle.chain_coe_cons _ _ _).1 h
  obtain ⟨v, hv⟩ := joins_of_isChain hchain
  rw [← List.cons_append, joins_concat] at hv
  exact hv.1

end Joins

end SnapGraph
