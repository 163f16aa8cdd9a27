import Mathlib
import SnapGraph.Proofs.Joins

/-! The vertices on a polyline, and the two where it begins and ends. A polyline that ends where it
begins is closed; the ends that are counted at a vertex are those of open polylines. -/

namespace SnapGraph

section Ends

variable (edge : Nat → Edge)

/-- The vertices where a polyline begins and ends. -/
def ends (l : List Nat) : Option Int × Option Int :=
  (l.head?.map fun e => (edge e).origin, l.getLast?.map fun e => (edge e).dest)

def closes (l : List Nat) : Bool := (ends edge l).1 == (ends edge l).2

/-- An open polyline begins at the vertex. -/
def opensAt (v : Int) (l : List Nat) : Bool :=
  (ends edge l).1 == some v && (ends edge l).2 != some v

/-- An open polyline ends at the vertex. -/
def stopsAt (v : Int) (l : List Nat) : Bool :=
  (ends edge l).2 == some v && (ends edge l).1 != some v

/-- An open polyline begins or ends at the vertex. -/
def endsAt (v : Int) (l : List Nat) : Bool := opensAt edge v l || stopsAt edge v l

/-- The two ends of an open polyline. -/
def openEnds (l : List Nat) : List Int :=
  match ends edge l with
  | (some u, some v) => if u = v then [] else [u, v]
  | _ => []

/-- The vertex is on the polyline. -/
def Visits (l : List Nat) (x : Int) : Prop := ∃ e ∈ l, (edge e).touches x

/-- The vertices of a polyline in order, the first one again at the end if it is closed. -/
def vertices : List Nat → List Int
  | [] => []
  | e :: l => (edge e).origin :: (e :: l).map fun e => (edge e).dest

/-- The vertices of a polyline strictly between its two ends. -/
def inner (l : List Nat) : List Int := (vertices edge l).tail.dropLast

/-- How often edges begin or end at a vertex. -/
def incidences (l : List Nat) (x : Int) : Nat :=
  (l.countP fun e => (edge e).origin == x) + l.countP fun e => (edge e).dest == x

variable {edge} {u v w x : Int} {e : Nat} {l l' : List Nat} {lines lines' : List (List Nat)}

theorem Edge.touches_iff {e : Edge} : e.touches x ↔ e.origin = x ∨ e.dest = x := by
  simp [Edge.touches]

theorem visits_cons :
    Visits edge (e :: l) x ↔ (edge e).origin = x ∨ (edge e).dest = x ∨ Visits edge l x := by
  simp [Visits, Edge.touches_iff, or_assoc]

/-- A way with edges begins and ends where it leads from and to. -/
theorem Joins.ends_eq (h : Joins edge u l v) (hl : l ≠ []) : ends edge l = (some u, some v) := by
  obtain ⟨e, l, rfl⟩ := List.exists_cons_of_ne_nil hl
  obtain ⟨front, last, hlast⟩ := (List.eq_nil_or_concat' (e :: l)).resolve_left hl
  have hfirst := h.1
  rw [hlast, joins_concat] at h
  apply Prod.ext
  · exact congrArg some hfirst
  · rw [ends, hlast, List.getLast?_concat]
    exact congrArg some h.2

theorem IsPolyline.exists_joins (h : IsPolyline edge l) :
    ∃ u v, Joins edge u l v ∧ ends edge l = (some u, some v) := by
  obtain ⟨e, l, rfl⟩ := List.exists_cons_of_ne_nil h.ne_nil
  obtain ⟨v, hjoins⟩ := h.joins
  exact ⟨_, v, hjoins, hjoins.ends_eq h.ne_nil⟩

theorem closes_iff (h : ends edge l = (some u, some v)) : closes edge l ↔ u = v := by
  rw [closes, h, beq_iff_eq, Option.some_inj]

theorem opensAt_iff (h : ends edge l = (some u, some v)) : opensAt edge x l ↔ u = x ∧ v ≠ x := by
  simp [opensAt, h]

theorem stopsAt_iff (h : ends edge l = (some u, some v)) : stopsAt edge x l ↔ v = x ∧ u ≠ x := by
  simp [stopsAt, h]

theorem endsAt_iff (h : ends edge l = (some u, some v)) :
    endsAt edge x l ↔ u ≠ v ∧ (u = x ∨ v = x) := by
  rw [endsAt, Bool.or_eq_true, opensAt_iff h, stopsAt_iff h]
  constructor
  · rintro (⟨rfl, hne⟩ | ⟨rfl, hne⟩)
    · exact ⟨hne.symm, .inl rfl⟩
    · exact ⟨hne, .inr rfl⟩
  · rintro ⟨hne, rfl | rfl⟩
    · exact .inl ⟨rfl, hne.symm⟩
    · exact .inr ⟨rfl, hne⟩

theorem Joins.visits (h : Joins edge u l v) (hl : l ≠ []) :
    Visits edge l u ∧ Visits edge l v := by
  obtain ⟨e, l, rfl⟩ := List.exists_cons_of_ne_nil hl
  obtain ⟨front, last, hlast⟩ := (List.eq_nil_or_concat' (e :: l)).resolve_left hl
  refine ⟨⟨e, List.mem_cons_self, Edge.touches_iff.2 (.inl h.1)⟩, ?_⟩
  rw [hlast, joins_concat] at h
  rw [hlast]
  exact ⟨last, List.mem_append_right _ List.mem_cons_self, Edge.touches_iff.2 (.inr h.2)⟩

/-- The ends of an open polyline are on it. -/
theorem IsPolyline.of_endsAt (hl : IsPolyline edge l) (h : endsAt edge x l) :
    ¬closes edge l ∧ Visits edge l x := by
  obtain ⟨u, v, hjoins, hends⟩ := hl.exists_joins
  obtain ⟨hne, hx⟩ := (endsAt_iff hends).1 h
  refine ⟨fun hcloses => hne ((closes_iff hends).1 hcloses), ?_⟩
  obtain ⟨hu, hv⟩ := hjoins.visits hl.ne_nil
  rcases hx with rfl | rfl
  · exact hu
  · exact hv

theorem mem_vertices_of_mem_inner (hx : x ∈ inner edge l) : x ∈ vertices edge l :=
  List.mem_of_mem_tail (List.mem_of_mem_dropLast hx)

theorem visits_of_mem_vertices (hx : x ∈ vertices edge l) : Visits edge l x := by
  cases l with
  | nil => cases hx
  | cons e l =>
      rcases List.mem_cons.1 hx with rfl | hx
      · exact ⟨e, List.mem_cons_self, Edge.touches_iff.2 (.inl rfl)⟩
      · obtain ⟨f, hf, rfl⟩ := List.mem_map.1 hx
        exact ⟨f, hf, Edge.touches_iff.2 (.inr rfl)⟩

theorem incidences_append (l l' : List Nat) (x : Int) :
    incidences edge (l ++ l') x = incidences edge l x + incidences edge l' x := by
  rw [incidences, List.countP_append, List.countP_append, incidences, incidences]
  omega

theorem incidences_le_of_sublist (h : l.Sublist l') (x : Int) :
    incidences edge l x ≤ incidences edge l' x := Nat.add_le_add h.countP_le h.countP_le

theorem Joins.map_dest_eq (h : Joins edge u l v) (hl : l ≠ []) :
    l.map (fun e => (edge e).dest) = inner edge l ++ [v] := by
  obtain ⟨e, l, rfl⟩ := List.exists_cons_of_ne_nil hl
  have hdests : (e :: l).map (fun e => (edge e).dest) = l.map (fun e => (edge e).origin) ++ [v] :=
    (List.cons.inj h.cons_map_dest).2
  have hinner : inner edge (e :: l) = ((e :: l).map fun e => (edge e).dest).dropLast := rfl
  rw [hinner, hdests, List.dropLast_concat]

theorem Joins.map_origin_eq (h : Joins edge u l v) (hl : l ≠ []) :
    l.map (fun e => (edge e).origin) = u :: inner edge l := by
  have hvertices := h.cons_map_dest
  rw [h.map_dest_eq hl, ← List.cons_append] at hvertices
  exact (List.append_cancel_right hvertices).symm

/-- A way with edges passes the inner vertices between its two ends. -/
theorem Joins.vertices_eq (h : Joins edge u l v) (hl : l ≠ []) :
    vertices edge l = u :: (inner edge l ++ [v]) := by
  obtain ⟨e, l, rfl⟩ := List.exists_cons_of_ne_nil hl
  rw [vertices, h.map_dest_eq hl, h.1]

/-- Passing a vertex takes two edges, and there is one edge at either end. -/
theorem Joins.incidences_eq (h : Joins edge u l v) (hl : l ≠ []) (x : Int) :
    incidences edge l x =
      2 * (inner edge l).count x + (if u = x then 1 else 0) + if v = x then 1 else 0 := by
  have hcount : ∀ f : Nat → Int, (l.countP fun e => f e == x) = (l.map f).count x := by
    intro f
    rw [List.count, List.countP_map]
    rfl
  rw [incidences, hcount, hcount, h.map_origin_eq hl, h.map_dest_eq hl, List.count_cons,
    List.count_append, List.count_singleton]
  simp only [beq_iff_eq]
  omega

theorem Joins.count_vertices (h : Joins edge u l v) (hl : l ≠ []) (x : Int) :
    (vertices edge l).count x =
      (inner edge l).count x + (if u = x then 1 else 0) + if v = x then 1 else 0 := by
  rw [h.vertices_eq hl, List.count_cons, List.count_append, List.count_singleton]
  simp only [beq_iff_eq]
  omega

/-! ### Counting ends -/

theorem countP_ends_congr (h : lines.map (ends edge) = lines'.map (ends edge))
    (p : Option Int × Option Int → Bool) :
    (lines.countP fun l => p (ends edge l)) = lines'.countP fun l => p (ends edge l) := by
  have hcount : ∀ lines : List (List Nat),
      (lines.countP fun l => p (ends edge l)) = (lines.map (ends edge)).countP p := by
    intro lines
    rw [List.countP_map]
    rfl
  rw [hcount, hcount, h]

theorem countP_endsAt (hlines : ∀ l ∈ lines, IsPolyline edge l) (x : Int) :
    lines.countP (endsAt edge x) = lines.countP (opensAt edge x) + lines.countP (stopsAt edge x) := by
  induction lines with
  | nil => rfl
  | cons l lines ih =>
      obtain ⟨hl, hlines⟩ := List.forall_mem_cons.1 hlines
      obtain ⟨u, v, -, hends⟩ := hl.exists_joins
      have hboth : ¬(opensAt edge x l ∧ stopsAt edge x l) := by
        rw [opensAt_iff hends, stopsAt_iff hends]
        rintro ⟨⟨hu, -⟩, -, hne⟩
        exact hne hu
      rw [List.countP_cons, List.countP_cons, List.countP_cons, ih hlines, endsAt]
      cases hopens : opensAt edge x l with
      | true =>
          rw [Bool.eq_false_iff.2 fun hstops => hboth ⟨hopens, hstops⟩]
          simp only [Bool.or_false, if_true, Bool.false_eq_true, if_false]
          omega
      | false =>
          simp only [Bool.false_or, Bool.false_eq_true, if_false]
          omega

/-- Of the edges of polylines, those that leave a vertex less those that enter it are as many as the
polylines that begin there less those that end there. -/
theorem countP_flatten_sub (hlines : ∀ l ∈ lines, IsPolyline edge l) (x : Int) :
    (lines.flatten.countP fun e => (edge e).origin == x : Int) -
        (lines.flatten.countP fun e => (edge e).dest == x : Int) =
      lines.countP (opensAt edge x) - lines.countP (stopsAt edge x) := by
  induction lines with
  | nil => rfl
  | cons l lines ih =>
      obtain ⟨hl, hlines⟩ := List.forall_mem_cons.1 hlines
      obtain ⟨u, v, hjoins, hends⟩ := hl.exists_joins
      have hfirst := hjoins.countP_sub x
      have hdiff : ((if x = u then 1 else 0) - if x = v then 1 else 0 : Int) =
          (if opensAt edge x l then 1 else 0) - if stopsAt edge x l then 1 else 0 := by
        simp only [opensAt_iff hends, stopsAt_iff hends, eq_comm (a := x)]
        by_cases hu : u = x
        · by_cases hv : v = x
          · simp [hu, hv]
          · simp [hu, hv]
        · simp [hu]
      have hrest := ih hlines
      rw [hdiff] at hfirst
      rw [List.flatten_cons, List.countP_append, List.countP_append, List.countP_cons,
        List.countP_cons]
      push_cast
      omega

theorem count_flatMap_openEnds (hlines : ∀ l ∈ lines, IsPolyline edge l) (x : Int) :
    (lines.flatMap (openEnds edge)).count x = lines.countP (endsAt edge x) := by
  induction lines with
  | nil => rfl
  | cons l lines ih =>
      obtain ⟨hl, hlines⟩ := List.forall_mem_cons.1 hlines
      obtain ⟨u, v, -, hends⟩ := hl.exists_joins
      have hfirst : (openEnds edge l).count x = if endsAt edge x l then 1 else 0 := by
        rw [openEnds, hends]
        simp only [endsAt_iff hends]
        by_cases huv : u = v
        · simp [huv]
        · by_cases hu : u = x
          · subst hu
            simp [huv, Ne.symm huv]
          · simp [huv, hu, List.count_cons]
      rw [List.flatMap_cons, List.count_append, List.countP_cons, ih hlines, hfirst, Nat.add_comm]

theorem length_flatMap_openEnds (hlines : ∀ l ∈ lines, IsPolyline edge l) :
    (lines.flatMap (openEnds edge)).length = 2 * lines.countP fun l => !closes edge l := by
  induction lines with
  | nil => rfl
  | cons l lines ih =>
      obtain ⟨hl, hlines⟩ := List.forall_mem_cons.1 hlines
      obtain ⟨u, v, -, hends⟩ := hl.exists_joins
      have hfirst : (openEnds edge l).length = if !closes edge l then 2 else 0 := by
        rw [openEnds, hends]
        by_cases huv : u = v
        · simp [huv, (closes_iff hends).2 huv]
        · simp [huv, mt (closes_iff hends).1 huv]
      rw [List.flatMap_cons, List.length_append, List.countP_cons, ih hlines, hfirst]
      split <;> omega

end Ends

end SnapGraph
