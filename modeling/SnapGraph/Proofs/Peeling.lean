import Mathlib
import SnapGraph.Loop
import SnapGraph.Proofs.Graph
import SnapGraph.Proofs.Joins
import SnapGraph.Proofs.Matching

/-! Cutting a circuit at repeated vertices leaves nothing over: the path that is not yet cut visits no
vertex twice and leads from the start of the circuit to where the walk has come, so when the walk is back
it is empty. The table of places says of every vertex which edge of the path leaves it, if one does. It
is right again after every cut, so it finds what a search of the path would find, and with the path it is
empty again at the end. -/

namespace SnapGraph

/-! ### Cutting by search -/

/-- Cuts a walk into simple loops by searching the path, latest edge first: as soon as the walk comes back
to a vertex where an edge of the path began, the edges since then are a loop. -/
def peelLoops (edge : Nat → Edge) : List Nat → List Nat → List (List Nat)
  | _, [] => []
  | path, e :: walk =>
      let path := e :: path
      let onward := fun f => (edge f).origin != (edge e).dest
      match path.dropWhile onward with
      | [] => peelLoops edge path walk
      | first :: rest => (first :: (path.takeWhile onward).reverse) :: peelLoops edge rest walk

/-- The loops of a circuit. -/
def LoopKind.loops (kind : LoopKind) (edge : Nat → Edge) (circuit : List Nat) : List (List Nat) :=
  match kind with
  | .simple => peelLoops edge [] circuit
  | .circuit => [circuit]

/-- A closed chain that visits no vertex twice. -/
structure IsSimple (edge : Nat → Edge) (l : List Nat) : Prop where
  ne_nil : l ≠ []
  joins : ∃ v, Joins edge v l v
  nodup : (l.map fun e => (edge e).origin).Nodup

/-- What a walk from `u` to `w` is cut into: simple loops, and a path that does not come back to
`w`. -/
structure Peeled (edge : Nat → Edge) (u w : Int) (walk : List Nat) (loops : List (List Nat))
    (path : List Nat) : Prop where
  perm : (loops.flatten ++ path).Perm walk
  joins : Joins edge u path.reverse w
  fresh : w ∉ path.map fun e => (edge e).origin
  simple : ∀ l ∈ loops, IsSimple edge l
  sublist : ∀ l ∈ loops, l.Sublist walk

/-- A path that has not come back to a vertex may go on by an edge. -/
theorem longer_path {edge : Nat → Edge} {u : Int} {e : Nat} {path : List Nat}
    (hpath : Joins edge u path.reverse (edge e).origin)
    (hnodup : (path.map fun e => (edge e).origin).Nodup)
    (hfresh : (edge e).origin ∉ path.map fun e => (edge e).origin) :
    Joins edge u (e :: path).reverse (edge e).dest ∧
      ((e :: path).map fun e => (edge e).origin).Nodup := by
  constructor
  · rw [List.reverse_cons, joins_concat]
    exact ⟨hpath, rfl⟩
  · exact List.nodup_cons.2 ⟨hfresh, hnodup⟩

/-- A path that comes back to its edge `first` ends with a simple loop. -/
theorem simple_of_append {edge : Nat → Edge} {u : Int} {first : Nat} {recent rest : List Nat}
    (hpath : Joins edge u (recent ++ first :: rest).reverse (edge first).origin)
    (hnodup : ((recent ++ first :: rest).map fun e => (edge e).origin).Nodup) :
    IsSimple edge (first :: recent.reverse) ∧ Joins edge u rest.reverse (edge first).origin ∧
      (rest.map fun e => (edge e).origin).Nodup ∧
      (edge first).origin ∉ rest.map fun e => (edge e).origin := by
  have hreverse : (recent ++ first :: rest).reverse =
      rest.reverse ++ (first :: recent.reverse) := by
    simp
  rw [hreverse, joins_append] at hpath
  obtain ⟨x, hrest, hloop⟩ := hpath
  have hx : (edge first).origin = x := hloop.1
  have hperm : (first :: recent.reverse).Perm (recent ++ [first]) :=
    ((List.reverse_perm recent).cons first).trans (List.perm_append_singleton first recent).symm
  rw [List.append_cons, List.map_append] at hnodup
  obtain ⟨hloopnodup, hrestnodup, hdisjoint⟩ := List.nodup_append.1 hnodup
  refine ⟨⟨List.cons_ne_nil _ _, ⟨x, hx ▸ hloop⟩, (hperm.map _).nodup_iff.2 hloopnodup⟩,
    hx ▸ hrest, hrestnodup, fun hmem => ?_⟩
  exact hdisjoint _ (List.mem_map_of_mem (List.mem_append_right _ List.mem_cons_self)) _ hmem rfl

/-- A simple loop in front of what a walk is cut into. -/
theorem Peeled.cons {edge : Nat → Edge} {u w : Int} {l front walk path : List Nat}
    {loops : List (List Nat)} (hl : IsSimple edge l)
    (h : Peeled edge u w (front ++ walk) loops path) :
    Peeled edge u w (front ++ l ++ walk) (l :: loops) path where
  perm := by
    rw [List.flatten_cons, List.append_assoc]
    apply (List.Perm.append_left l h.perm).trans
    rw [← List.append_assoc]
    exact List.perm_append_comm.append_right walk
  joins := h.joins
  fresh := h.fresh
  simple := List.forall_mem_cons.2 ⟨hl, h.simple⟩
  sublist := List.forall_mem_cons.2
    ⟨(List.sublist_append_right _ _).trans (List.sublist_append_left _ _), fun m hm =>
      (h.sublist m hm).trans ((List.sublist_append_left _ _).append_right walk)⟩

theorem origin_of_dropWhile {edge : Nat → Edge} {v : Int} {path : List Nat} {first : Nat}
    {rest : List Nat} (h : path.dropWhile (fun f => (edge f).origin != v) = first :: rest) :
    (edge first).origin = v := by
  have hne : path.dropWhile (fun f => (edge f).origin != v) ≠ [] := by
    rw [h]
    exact List.cons_ne_nil _ _
  have hhead := List.head_dropWhile_not (fun f => (edge f).origin != v) hne
  simpa only [h, List.head_cons, bne_eq_false_iff_eq] using hhead

theorem exists_peeled {edge : Nat → Edge} {u v w : Int} {path walk : List Nat}
    (hpath : Joins edge u path.reverse v) (hwalk : Joins edge v walk w)
    (hnodup : (path.map fun e => (edge e).origin).Nodup)
    (hfresh : v ∉ path.map fun e => (edge e).origin) :
    ∃ left, Peeled edge u w (path.reverse ++ walk) (peelLoops edge path walk) left := by
  fun_induction peelLoops edge path walk generalizing v with
  | case1 path =>
      cases hwalk
      refine ⟨path, ?_, hpath, hfresh, by simp, by simp⟩
      simp
  | case2 path e walk longer onward hnone =>
      rename_i ih
      obtain ⟨rfl, hwalk⟩ := hwalk
      obtain ⟨hlonger, hnodup⟩ := longer_path hpath hnodup hfresh
      have hfresh : (edge e).dest ∉ longer.map fun e => (edge e).origin := by
        intro hmem
        obtain ⟨f, hf, hdest⟩ := List.mem_map.1 hmem
        have honward : onward f = true := List.dropWhile_eq_nil_iff.1 hnone f hf
        exact (bne_iff_ne.1 honward) hdest
      obtain ⟨left, hleft⟩ := ih hlonger hwalk hnodup hfresh
      rw [List.reverse_cons, List.append_assoc] at hleft
      exact ⟨left, hleft⟩
  | case3 path e walk longer onward first rest hcut =>
      rename_i ih
      obtain ⟨rfl, hwalk⟩ := hwalk
      obtain ⟨hlonger, hnodup⟩ := longer_path hpath hnodup hfresh
      have hfirst : (edge first).origin = (edge e).dest := origin_of_dropWhile hcut
      have hsplit : longer.takeWhile onward ++ first :: rest = e :: path := by
        rw [← hcut]
        exact List.takeWhile_append_dropWhile
      rw [← hsplit, ← hfirst] at hlonger
      rw [← hsplit] at hnodup
      obtain ⟨hloop, hrest, hnodup, hfresh⟩ := simple_of_append hlonger hnodup
      obtain ⟨left, hleft⟩ := ih (hfirst ▸ hrest) hwalk hnodup (hfirst ▸ hfresh)
      have hwhole : path.reverse ++ e :: walk =
          rest.reverse ++ (first :: (longer.takeWhile onward).reverse) ++ walk := by
        have hreverse := congrArg List.reverse hsplit
        rw [List.reverse_append, List.reverse_cons, List.reverse_cons, List.append_assoc] at hreverse
        rw [List.append_cons, ← hreverse, List.singleton_append]
      rw [hwhole]
      exact ⟨left, hleft.cons hloop⟩

/-- A path that leads back to where it began without an edge that leaves there has no edge at all. -/
theorem eq_nil_of_joins_back {edge : Nat → Edge} {u : Int} {path : List Nat}
    (h : Joins edge u path.reverse u) (hfresh : u ∉ path.map fun e => (edge e).origin) :
    path = [] := by
  cases hpath : path.reverse with
  | nil => exact List.reverse_eq_nil_iff.1 hpath
  | cons a rest =>
      rw [hpath] at h
      refine absurd (List.mem_map.2 ⟨a, ?_, h.1⟩) hfresh
      rw [← List.mem_reverse, hpath]
      exact List.mem_cons_self

/-- A closed walk is cut into loops altogether. -/
theorem peeled_of_closed {edge : Nat → Edge} {u : Int} {walk : List Nat}
    (h : Joins edge u walk u) : Peeled edge u u walk (peelLoops edge [] walk) [] := by
  have hstart : Joins edge u ([] : List Nat).reverse u := rfl
  obtain ⟨left, hleft⟩ := exists_peeled hstart h List.nodup_nil List.not_mem_nil
  obtain rfl := eq_nil_of_joins_back hleft.joins hleft.fresh
  rwa [List.reverse_nil, List.nil_append] at hleft

/-! ### Places -/

namespace Places

variable (places : Places)

theorem lt_size_of_place? {places : Places} {x i : Nat} (h : places.place? x = some i) :
    x < places.size := lt_size_of_join_getElem? h

theorem place?_setIfInBounds {places : Places} {e : Nat} (he : e < places.size) (i? : Option Nat)
    (x : Nat) : place? (places.setIfInBounds e i?) x = if x = e then i? else places.place? x := by
  refine (join_getElem?_setIfInBounds places e x i?).trans ?_
  simp only [he, and_true, eq_comm (a := e)]
  rfl

theorem place?_forget (ids : List Nat) (x : Nat) :
    (places.forget ids).place? x = if x ∈ ids then none else places.place? x := by
  induction ids generalizing places with
  | nil => simp [forget]
  | cons e ids ih =>
      have herased : place? (places.setIfInBounds e none) x =
          if x = e then none else places.place? x := join_getElem?_setIfInBounds_none places e x
      rw [show places.forget (e :: ids) = forget (places.setIfInBounds e none) ids from rfl, ih,
        herased]
      by_cases hx : x ∈ ids
      · simp [hx]
      · simp [hx]

theorem size_forget (ids : List Nat) : (places.forget ids).size = places.size := by
  induction ids generalizing places with
  | nil => rfl
  | cons e ids ih =>
      refine (ih _).trans ?_
      exact Array.size_setIfInBounds

/-- A table without places is the one that is there at first. -/
theorem eq_replicate {n : Nat} (hsize : places.size = n) (hnone : ∀ x, places.place? x = none) :
    places = Array.replicate n none := by
  refine Array.ext (by simpa using hsize) fun x hx _ => ?_
  have hx' := hnone x
  rw [place?, Array.getElem?_eq_getElem hx] at hx'
  rw [Array.getElem_replicate]
  exact hx'

end Places

/-! ### Cutting by a table -/

namespace Peeling

variable {edge : Nat → Edge} {n : Nat}

/-- The table has the place of every edge of the path, by the vertex that it leaves, and no other. Here the
path is written latest edge first. -/
structure Tabulates (edge : Nat → Edge) (n : Nat) (path : List Nat) (p : Peeling) : Prop where
  path_eq : p.path.toList = path.reverse
  size_eq : p.places.size = n
  within : ∀ e ∈ path, (edge e).inRange n
  nodup : (path.map fun e => (edge e).origin).Nodup
  place?_iff : ∀ v i : Nat, p.places.place? v = some i ↔
    ∃ e, path.reverse[i]? = some e ∧ (edge e).origin = v

variable {p : Peeling} {path : List Nat} {e : Nat}

theorem indexOf_toNat {v : Int} (h : 0 ≤ v ∧ v < n) : indexOf n v = .ok v.toNat := by
  rw [indexOf, if_pos ⟨h.1, by omega⟩]

/-- With an edge put on the path, and its place in the table. -/
def push (edge : Nat → Edge) (p : Peeling) (e : Nat) : Peeling :=
  ⟨p.path.push e, p.places.setIfInBounds (edge e).origin.toNat (some p.path.size), p.loops⟩

theorem Tabulates.push (h : Tabulates edge n path p) (he : (edge e).inRange n)
    (hfresh : (edge e).origin ∉ path.map fun e => (edge e).origin) :
    Tabulates edge n (e :: path) (p.push edge e) where
  path_eq := by rw [Peeling.push, Array.toList_push, h.path_eq, List.reverse_cons]
  size_eq := by rw [Peeling.push, Array.size_setIfInBounds, h.size_eq]
  within := List.forall_mem_cons.2 ⟨he, h.within⟩
  nodup := List.nodup_cons.2 ⟨hfresh, h.nodup⟩
  place?_iff v i := by
    have hlen : p.path.size = path.reverse.length := by
      rw [← h.path_eq, Array.length_toList]
    obtain ⟨hpos, horiginlt⟩ := (Edge.inRange_iff.1 he).1
    have hlt : (edge e).origin.toNat < p.places.size := by
      rw [h.size_eq]
      omega
    rw [Peeling.push, Places.place?_setIfInBounds hlt, List.reverse_cons, hlen]
    by_cases hv : v = (edge e).origin.toNat
    · have horigin : (edge e).origin = v := by omega
      rw [if_pos hv, Option.some.injEq]
      constructor
      · rintro rfl
        exact ⟨e, by rw [List.getElem?_concat_length], horigin⟩
      · rintro ⟨f, hf, hforigin⟩
        rw [List.getElem?_append] at hf
        split at hf
        · have hmem := List.mem_reverse.1 (List.mem_of_getElem? hf)
          refine absurd (List.mem_map.2 ⟨f, hmem, ?_⟩) hfresh
          exact hforigin.trans horigin.symm
        · obtain ⟨hi, -⟩ := List.getElem?_eq_some_iff.1 hf
          rw [List.length_singleton] at hi
          omega
    · rw [if_neg hv, h.place?_iff]
      refine exists_congr fun f => and_congr_left fun hforigin => ?_
      rw [List.getElem?_append]
      split
      · rfl
      · rename_i hi
        rw [List.getElem?_eq_none (Nat.le_of_not_lt hi)]
        refine iff_of_false nofun fun hf => hv ?_
        obtain rfl := List.mem_singleton.1 (List.mem_of_getElem? hf)
        rw [hforigin]
        rfl

/-- The look-up of a vertex finds no place if no edge of the path leaves it. -/
theorem Tabulates.place?_eq_none (h : Tabulates edge n path p) {v : Int} (hv : 0 ≤ v)
    (hnone : path.dropWhile (fun f => (edge f).origin != v) = []) :
    p.places.place? v.toNat = none := by
  refine Option.eq_none_iff_forall_ne_some.2 fun i hi => ?_
  obtain ⟨e, he, horigin⟩ := (h.place?_iff _ _).1 hi
  have hmem := List.mem_reverse.1 (List.mem_of_getElem? he)
  have honward := List.dropWhile_eq_nil_iff.1 hnone e hmem
  exact bne_iff_ne.1 honward (by omega)

/-- Otherwise it finds the place of that edge. -/
theorem Tabulates.place?_eq_some {recent rest : List Nat} {first : Nat}
    (h : Tabulates edge n (recent ++ first :: rest) p) :
    p.places.place? (edge first).origin.toNat = some rest.length := by
  have hfirst := (Edge.inRange_iff.1 (h.within first (List.mem_append_right _ List.mem_cons_self))).1
  refine (h.place?_iff _ _).2 ⟨first, ?_, by omega⟩
  rw [List.reverse_append, List.reverse_cons, List.append_assoc, ← List.length_reverse]
  simp

/-- The path goes back to the place, and the table is right for what is left of it. -/
theorem Tabulates.cut {recent rest loop : List Nat} {first : Nat}
    (h : Tabulates edge n (recent ++ first :: rest) p) :
    Tabulates edge n rest ⟨p.path.take rest.length, p.places.forget
      ((first :: recent.reverse).map fun f => (edge f).origin.toNat), p.loops ++ [loop]⟩ where
  path_eq := by
    show (p.path.take rest.length).toList = rest.reverse
    simp [h.path_eq]
  size_eq := by rw [Places.size_forget, h.size_eq]
  within e he := h.within e (List.mem_append_right _ (List.mem_cons_of_mem _ he))
  nodup := by
    refine h.nodup.sublist ((List.Sublist.trans ?_ (List.sublist_append_right recent _)).map _)
    exact List.sublist_cons_self first rest
  place?_iff v i := by
    have hsplit : (recent ++ first :: rest).reverse = rest.reverse ++ (first :: recent.reverse) := by
      simp
    have hloop : ∀ f ∈ first :: recent.reverse, f ∈ recent ++ first :: rest := by
      intro f hf
      rw [← List.mem_reverse, hsplit]
      exact List.mem_append_right _ hf
    have hnodup := (List.nodup_reverse.2 h.nodup)
    rw [← List.map_reverse, hsplit, List.map_append] at hnodup
    obtain ⟨-, -, hdisjoint⟩ := List.nodup_append.1 hnodup
    rw [Places.place?_forget]
    split
    · rename_i hv
      obtain ⟨f, hf, rfl⟩ := List.mem_map.1 hv
      refine iff_of_false nofun ?_
      rintro ⟨e, he, horigin⟩
      have hwithin := (Edge.inRange_iff.1 (h.within f (hloop f hf))).1
      refine hdisjoint _ (List.mem_map_of_mem (List.mem_of_getElem? he)) _ (List.mem_map_of_mem hf) ?_
      omega
    · rename_i hv
      rw [h.place?_iff, hsplit]
      refine exists_congr fun e => and_congr_left fun horigin => ?_
      rw [List.getElem?_append]
      split
      · rfl
      · rename_i hi
        rw [List.getElem?_eq_none (Nat.le_of_not_lt hi)]
        refine iff_of_false (fun he => hv ?_) nofun
        have hmem := List.mem_of_getElem? he
        exact List.mem_map.2 ⟨e, hmem, by omega⟩

/-! ### One edge further -/

theorem step_eq (he : (edge e).inRange p.places.size) : step edge p e =
    match (p.push edge e).places.place? (edge e).dest.toNat with
    | none => .ok (p.push edge e)
    | some i => do
        let loop := (← slice (p.push edge e).path i (p.push edge e).path.size).toList
        let origins ← loop.mapM fun f => indexOf (p.push edge e).places.size (edge f).origin
        return ⟨(p.push edge e).path.take i, (p.push edge e).places.forget origins,
          p.loops ++ [loop]⟩ := by
  have hdest : indexOf (p.places.setIfInBounds (edge e).origin.toNat (some p.path.size)).size
      (edge e).dest = .ok (edge e).dest.toNat := by
    rw [Array.size_setIfInBounds, indexOf_toNat (Edge.inRange_iff.1 he).2]
  simp only [step, indexOf_toNat (Edge.inRange_iff.1 he).1]
  show (indexOf (p.places.setIfInBounds _ _).size _ >>= _) = _
  rw [hdest]
  rfl

/-- The table sends the walk on where a search of the path does. -/
theorem Tabulates.step_onward (h : Tabulates edge n path p) (he : (edge e).inRange n)
    (hfresh : (edge e).origin ∉ path.map fun e => (edge e).origin)
    (hnone : (e :: path).dropWhile (fun f => (edge f).origin != (edge e).dest) = []) :
    step edge p e = .ok (p.push edge e) := by
  rw [step_eq (h.size_eq ▸ he), (h.push he hfresh).place?_eq_none (Edge.inRange_iff.1 he).2.1 hnone]

/-- And it cuts off the loop that a search finds. -/
theorem Tabulates.step_cut (h : Tabulates edge n path p) (he : (edge e).inRange n)
    (hfresh : (edge e).origin ∉ path.map fun e => (edge e).origin) {recent rest : List Nat}
    {first : Nat} (hsplit : recent ++ first :: rest = e :: path)
    (hfirst : (edge first).origin = (edge e).dest) :
    step edge p e = .ok ⟨(p.push edge e).path.take rest.length, (p.push edge e).places.forget
      ((first :: recent.reverse).map fun f => (edge f).origin.toNat),
        p.loops ++ [first :: recent.reverse]⟩ := by
  have hpush := h.push he hfresh
  rw [← hsplit] at hpush
  have hlen : (p.push edge e).path.size = (recent ++ first :: rest).length := by
    rw [← Array.length_toList, hpush.path_eq, List.length_reverse]
  have hslice : slice (p.push edge e).path rest.length (p.push edge e).path.size =
      .ok ((p.push edge e).path.extract rest.length (p.push edge e).path.size) := by
    refine if_pos ⟨?_, Nat.le_refl _⟩
    rw [hlen, List.length_append, List.length_cons]
    omega
  have hloop : ((p.push edge e).path.extract rest.length (p.push edge e).path.size).toList =
      first :: recent.reverse := by
    have hle : ((p.push edge e).path.toList.drop rest.length).length ≤
        (p.push edge e).path.size - rest.length := by
      rw [List.length_drop, Array.length_toList]
    rw [Array.toList_extract, List.extract_eq_take_drop, List.take_of_length_le hle, hpush.path_eq,
      List.reverse_append, List.reverse_cons, List.append_assoc, ← List.length_reverse]
    exact List.drop_left
  have horigins : (first :: recent.reverse).mapM
      (fun f => indexOf (p.push edge e).places.size (edge f).origin) =
        .ok ((first :: recent.reverse).map fun f => (edge f).origin.toNat) := by
    refine mapM_eq_ok fun f hf => ?_
    rw [hpush.size_eq, indexOf_toNat (Edge.inRange_iff.1 (hpush.within f ?_)).1]
    rcases List.mem_cons.1 hf with rfl | hf
    · exact List.mem_append_right _ List.mem_cons_self
    · exact List.mem_append_left _ (List.mem_reverse.1 hf)
  rw [step_eq (h.size_eq ▸ he), ← hfirst, hpush.place?_eq_some]
  refine bind_eq_ok_iff.2 ⟨_, hslice, bind_eq_ok_iff.2 ⟨_, hloop.symm ▸ horigins, ?_⟩⟩
  rw [hloop]
  rfl

/-! ### A whole circuit -/

/-- By the table a walk is cut into the loops that it is cut into by searching, and the table is right for
the path that is left. -/
theorem Tabulates.foldlM_step {u v w : Int} {walk : List Nat} (h : Tabulates edge n path p)
    (hpath : Joins edge u path.reverse v) (hwalk : Joins edge v walk w)
    (hwithin : ∀ e ∈ walk, (edge e).inRange n) (hfresh : v ∉ path.map fun e => (edge e).origin) :
    ∃ p' left, walk.foldlM (step edge) p = .ok p' ∧ Tabulates edge n left p' ∧
      p'.loops = p.loops ++ peelLoops edge path walk ∧ Joins edge u left.reverse w ∧
        w ∉ left.map fun e => (edge e).origin := by
  fun_induction peelLoops edge path walk generalizing v p with
  | case1 path =>
      cases hwalk
      exact ⟨p, path, rfl, h, (List.append_nil _).symm, hpath, hfresh⟩
  | case2 =>
      rename_i path e walk longer onward hnone ih
      obtain ⟨rfl, hwalk⟩ := hwalk
      obtain ⟨he, hwithin⟩ := List.forall_mem_cons.1 hwithin
      have hpush := h.push he hfresh
      have hnext : (edge e).dest ∉ longer.map fun e => (edge e).origin := by
        intro hmem
        obtain ⟨f, hf, hdest⟩ := List.mem_map.1 hmem
        exact bne_iff_ne.1 (List.dropWhile_eq_nil_iff.1 hnone f hf) hdest
      rw [List.foldlM_cons, h.step_onward he hfresh hnone]
      exact ih hpush (longer_path hpath h.nodup hfresh).1 hwalk hwithin hnext
  | case3 =>
      rename_i path e walk longer onward first rest hcut ih
      obtain ⟨rfl, hwalk⟩ := hwalk
      obtain ⟨he, hwithin⟩ := List.forall_mem_cons.1 hwithin
      have hfirst : (edge first).origin = (edge e).dest := origin_of_dropWhile hcut
      have hsplit : longer.takeWhile onward ++ first :: rest = e :: path := by
        rw [← hcut]
        exact List.takeWhile_append_dropWhile
      obtain ⟨hlonger, hnodup⟩ := longer_path hpath h.nodup hfresh
      rw [← hsplit, ← hfirst] at hlonger
      rw [← hsplit] at hnodup
      obtain ⟨-, hrest, -, hfresh'⟩ := simple_of_append hlonger hnodup
      have hpush := h.push he hfresh
      rw [← hsplit] at hpush
      rw [List.foldlM_cons, h.step_cut he hfresh hsplit hfirst]
      obtain ⟨p', left, hrun, htabulates, hloops, hleft⟩ :=
        ih hpush.cut (hfirst ▸ hrest) hwalk hwithin (hfirst ▸ hfresh')
      refine ⟨p', left, hrun, htabulates, ?_, hleft⟩
      rw [hloops, List.append_assoc]
      rfl

theorem tabulates_replicate (edge : Nat → Edge) (n : Nat) :
    Tabulates edge n [] ⟨#[], Array.replicate n none, []⟩ where
  path_eq := rfl
  size_eq := Array.size_replicate
  within := nofun
  nodup := .nil
  place?_iff v i := by
    refine iff_of_false (fun h => ?_) (by simp)
    rw [Places.place?, join_getElem?_replicate_none] at h
    cases h

/-- A closed walk is cut into the same loops by the table as by searching, and the table is empty again
after it. -/
theorem circuit_eq {u : Int} {c : List Nat} (h : Joins edge u c u)
    (hwithin : ∀ e ∈ c, (edge e).inRange n) : circuit edge (Array.replicate n none) c =
      .ok (peelLoops edge [] c, Array.replicate n none) := by
  obtain ⟨p, left, hrun, htabulates, hloops, hleft, hfresh⟩ :=
    (tabulates_replicate edge n).foldlM_step (u := u) rfl h hwithin List.not_mem_nil
  obtain rfl := eq_nil_of_joins_back hleft hfresh
  have hpath : p.path.isEmpty = true := by
    rw [Array.isEmpty_iff, ← Array.toList_eq_nil_iff, htabulates.path_eq]
    rfl
  have hplaces : p.places = Array.replicate n none := by
    refine p.places.eq_replicate htabulates.size_eq fun x => ?_
    refine Option.eq_none_iff_forall_ne_some.2 fun i hi => ?_
    obtain ⟨e, he, -⟩ := (htabulates.place?_iff x i).1 hi
    cases he
  rw [circuit, hrun]
  show (if p.path.isEmpty = true then _ else _) = _
  rw [if_pos hpath, hloops, hplaces]
  rfl

end Peeling

namespace LoopKind

variable {edge : Nat → Edge} {n : Nat} (kind : LoopKind)

theorem cut_eq {u : Int} {c : List Nat} (h : Joins edge u c u)
    (hwithin : ∀ e ∈ c, (edge e).inRange n) : kind.cut edge (Array.replicate n none) c =
      .ok (kind.loops edge c, Array.replicate n none) := by
  cases kind with
  | simple => exact Peeling.circuit_eq h hwithin
  | circuit => rfl

/-- Each circuit finds the table empty. -/
theorem cutAll_eq {circuits : List (List Nat)} (h : ∀ c ∈ circuits, ∃ u, Joins edge u c u)
    (hwithin : ∀ c ∈ circuits, ∀ e ∈ c, (edge e).inRange n) :
    kind.cutAll edge (Array.replicate n none) circuits =
      .ok (circuits.map (kind.loops edge), Array.replicate n none) := by
  induction circuits with
  | nil => rfl
  | cons c circuits ih =>
      obtain ⟨u, hu⟩ := h c List.mem_cons_self
      rw [cutAll, kind.cut_eq hu (hwithin c List.mem_cons_self)]
      show (kind.cutAll edge (Array.replicate n none) circuits >>= _) = _
      rw [ih (fun d hd => h d (List.mem_cons_of_mem c hd)) fun d hd =>
        hwithin d (List.mem_cons_of_mem c hd)]
      rfl

end LoopKind

end SnapGraph
