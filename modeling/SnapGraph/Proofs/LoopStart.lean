import Mathlib
import SnapGraph.Proofs.Brackets
import SnapGraph.Proofs.ChainOrder
import SnapGraph.Proofs.LeastRotation

/-! Where a canonical loop begins. The marks of a loop are least at one of the places where a run of the
greatest id ends, if there is one; from there on the marks of two such places compare as the ids do. So
the ids of the canonical loop are the least among all rotations that end with the greatest id and do not
begin with it, and they depend on the cyclic sequence alone. -/

namespace SnapGraph

/-! ### Rotations as starts of a sequence -/

section Rotations

variable {α : Type} {l : List α} (hl : l ≠ [])

theorem head?_rotate_eq (m : Nat) : (l.rotate m).head? = some (repeating l hl m) := by
  have hlt : m % l.length < l.length := Nat.mod_lt m (List.length_pos_iff.2 hl)
  rw [← List.rotate_mod, List.head?_rotate hlt, List.getElem?_eq_getElem hlt]
  rfl

include hl in
/-- Rotated by one more place, a list ends with what it began with. -/
theorem getLast?_rotate_succ (m : Nat) : (l.rotate (m + 1)).getLast? = (l.rotate m).head? := by
  rw [← List.rotate_rotate]
  cases hm : l.rotate m with
  | nil => exact absurd (List.rotate_eq_nil_iff.1 hm) hl
  | cons a rest =>
      rw [List.rotate_cons_succ, List.rotate_zero, List.getLast?_concat]
      rfl

theorem exists_repeating_eq {a : α} (ha : a ∈ l) (i : Nat) : ∃ m, repeating l hl (i + m) = a := by
  obtain ⟨j, hj, rfl⟩ := List.mem_iff_getElem.1 ha
  have hi : i % l.length ≤ l.length := (Nat.mod_lt i (List.length_pos_iff.2 hl)).le
  refine ⟨l.length - i % l.length + j, ?_⟩
  have hplace : (i + (l.length - i % l.length + j)) % l.length = j := by
    rw [← Nat.mod_add_mod, ← Nat.add_assoc, Nat.add_sub_cancel' hi, Nat.add_mod_left,
      Nat.mod_eq_of_lt hj]
  simp only [repeating, hplace, List.get_eq_getElem]

/-- A list whose items are all equal looks the same from each place. -/
theorem rotate_eq_rotate_of_constant (h : ∀ a ∈ l, ∀ b ∈ l, a = b) (i j : Nat) :
    l.rotate i = l.rotate j := by
  cases l with
  | nil => rw [List.rotate_nil, List.rotate_nil]
  | cons a rest =>
      have hreplicate : a :: rest = List.replicate (a :: rest).length a :=
        List.eq_replicate_iff.2 ⟨rfl, fun b hb => h b hb a List.mem_cons_self⟩
      rw [hreplicate, List.rotate_replicate, List.rotate_replicate]

end Rotations

/-! ### Closing with the greatest id -/

/-- The last id is the greatest, and the first one is not: a run of the greatest id ends where the loop
does. -/
structure ClosesRun (ids : List Int) : Prop where
  last : ids.getLast? = ids.max?
  head : ids.head? ≠ ids.max?

namespace StartMark

variable {a b : StartMark}

theorem eq_of_later_iff (hlater : a.later = false ↔ b.later = false) (hid : a.id = b.id) : a = b := by
  rw [← Bool.not_eq_true, ← Bool.not_eq_true, not_iff_not, ← Bool.eq_iff_iff] at hlater
  cases a
  cases b
  rw [mk.injEq]
  exact ⟨hlater, hid⟩

theorem compare_eq_lt (hlater : b.later = false → a.later = false) (hid : a.id < b.id) :
    compare a b = .lt := by
  have hid := Int.compare_eq_lt.2 hid
  show (compare a.later b.later).then (compare a.id b.id) = .lt
  cases ha : a.later with
  | false =>
      cases hb : b.later with
      | false => rwa [Std.ReflOrd.compare_self]
      | true => rfl
  | true =>
      have hb : b.later = true := by
        by_contra hb
        rw [hlater (Bool.eq_false_iff.2 hb)] at ha
        cases ha
      rwa [hb, Std.ReflOrd.compare_self]

theorem compare_eq_lt_of_later (ha : a.later = false) (hb : b.later = true) : compare a b = .lt := by
  show (compare a.later b.later).then (compare a.id b.id) = .lt
  rw [ha, hb]
  rfl

end StartMark

section Marks

variable {ids : List Int} {greatest : Int}

theorem closesRun_iff (hmax : ids.max? = some greatest) :
    ClosesRun ids ↔ ids.getLast? = some greatest ∧ ids.head? ≠ some greatest := by
  rw [← hmax]
  exact ⟨fun h => ⟨h.last, h.head⟩, fun h => ⟨h.1, h.2⟩⟩

/-- The mark of the first place tells whether a run ends before it. -/
theorem head?_startMarks (hmax : ids.max? = some greatest) {mark : StartMark}
    (hmark : (startMarks greatest ids).head? = some mark) :
    ids.head? = some mark.id ∧ (mark.later = false ↔ ClosesRun ids) := by
  rw [closesRun_iff hmax]
  cases ids with
  | nil => cases hmax
  | cons a rest =>
      obtain ⟨last, hlast⟩ := Option.ne_none_iff_exists'.1
        (List.getLast?_eq_none_iff.not.2 (List.cons_ne_nil a rest))
      rw [startMarks, hlast] at hmark
      cases hmark
      rw [hlast]
      simp

section Sequence

variable (hids : ids ≠ []) (hmarks : startMarks greatest ids ≠ []) (hmax : ids.max? = some greatest)

include hmax

/-- The mark at a place holds the id there and tells whether the loop may begin there. -/
theorem repeating_startMarks (m : Nat) :
    (repeating (startMarks greatest ids) hmarks m).id = repeating ids hids m ∧
      ((repeating (startMarks greatest ids) hmarks m).later = false ↔ ClosesRun (ids.rotate m)) := by
  have hhead := head?_rotate_eq hmarks m
  rw [← startMarks_rotate] at hhead
  obtain ⟨hid, hlater⟩ := head?_startMarks ((max?_rotate ids m).trans hmax) hhead
  rw [head?_rotate_eq hids] at hid
  exact ⟨(Option.some.inj hid).symm, hlater⟩

/-- After a place the loop may begin if the greatest id stands there and not at the next one. -/
theorem closesRun_rotate_succ_iff (m : Nat) : ClosesRun (ids.rotate (m + 1)) ↔
    repeating ids hids m = greatest ∧ repeating ids hids (m + 1) ≠ greatest := by
  rw [closesRun_iff ((max?_rotate ids (m + 1)).trans hmax), getLast?_rotate_succ hids,
    head?_rotate_eq hids, head?_rotate_eq hids, Option.some.injEq, Ne, Option.some.injEq]

theorem repeating_le_greatest (m : Nat) : repeating ids hids m ≤ greatest :=
  (List.max?_eq_some_iff.1 hmax).2 _ (List.get_mem ids _)

/-- A place with as small an id as another one, and with the same ids before it back to where the loop may
begin, is a possible start if the other is. -/
theorem closesRun_rotate_add {r s k : Nat} (hs : ClosesRun (ids.rotate s))
    (hagree : ∀ m < k, repeating ids hids (s + m) = repeating ids hids (r + m))
    (hle : repeating ids hids (s + k) ≤ repeating ids hids (r + k))
    (hr : ClosesRun (ids.rotate (r + k))) : ClosesRun (ids.rotate (s + k)) := by
  cases k with
  | zero => exact hs
  | succ k =>
      obtain ⟨hbefore, hne⟩ := (closesRun_rotate_succ_iff hids hmax (r + k)).1 hr
      refine (closesRun_rotate_succ_iff hids hmax (s + k)).2
        ⟨(hagree k (Nat.lt_succ_self k)).trans hbefore, fun heq => hne ?_⟩
      exact le_antisymm (repeating_le_greatest hids hmax _) (heq.symm.le.trans hle)

/-- Of two places where the loop may begin, the marks from one on come before those from the other as soon
as the ids do. -/
theorem startsBefore_startMarks {r s : Nat} (hr : ClosesRun (ids.rotate r))
    (hs : ClosesRun (ids.rotate s)) (h : StartsBefore (repeating ids hids) s r) :
    StartsBefore (repeating (startMarks greatest ids) hmarks) s r := by
  obtain ⟨k, hagree, hlt⟩ := h
  have hlt := Int.compare_eq_lt.1 hlt
  have hmark := repeating_startMarks hids hmarks hmax
  refine ⟨k, fun m hm => ?_, ?_⟩
  · have hsame := hagree m hm
    have hbefore : ∀ j < m, repeating ids hids (s + j) = repeating ids hids (r + j) :=
      fun j hj => hagree j (hj.trans hm)
    have hiff : ClosesRun (ids.rotate (s + m)) ↔ ClosesRun (ids.rotate (r + m)) :=
      ⟨closesRun_rotate_add hids hmax hr (fun j hj => (hbefore j hj).symm) hsame.symm.le,
        closesRun_rotate_add hids hmax hs hbefore hsame.le⟩
    rw [← (hmark _).2, ← (hmark _).2] at hiff
    rw [← (hmark _).1, ← (hmark _).1] at hsame
    exact StartMark.eq_of_later_iff hiff hsame
  · have hcloses := closesRun_rotate_add hids hmax hs hagree hlt.le
    rw [← (hmark _).2, ← (hmark _).2] at hcloses
    rw [← (hmark _).1, ← (hmark _).1] at hlt
    exact StartMark.compare_eq_lt hcloses hlt

/-- Unless all ids are equal, a run of the greatest one ends somewhere. -/
theorem exists_closesRun (hne : ∃ a ∈ ids, a ≠ greatest) : ∃ r, ClosesRun (ids.rotate r) := by
  by_contra hnone
  obtain ⟨hmem, -⟩ := List.max?_eq_some_iff.1 hmax
  have hids : ids ≠ [] := List.ne_nil_of_mem hmem
  obtain ⟨i, hi⟩ := exists_repeating_eq hids hmem 0
  rw [Nat.zero_add] at hi
  -- Where no run ends, the greatest id stands at every place from one of its own on.
  have hon : ∀ m, repeating ids hids (i + m) = greatest := by
    intro m
    induction m with
    | zero => exact hi
    | succ m ih =>
        by_contra hends
        exact hnone ⟨i + m + 1, (closesRun_rotate_succ_iff hids hmax (i + m)).2 ⟨ih, hends⟩⟩
  obtain ⟨a, ha, hne⟩ := hne
  obtain ⟨m, hm⟩ := exists_repeating_eq hids ha i
  exact hne (hm.symm.trans (hon m))

end Sequence

/-! ### The canonical start -/

/-- What the start of the canonical loop is: the first of the places from which the ids, ending with the
greatest one and not beginning with it, are the least possible. -/
structure IsCanonicalStart (ids : List Int) (r : Nat) : Prop where
  constant : (∀ a ∈ ids, ∀ b ∈ ids, a = b) → r = 0
  closes : (∃ a ∈ ids, ∃ b ∈ ids, a ≠ b) → ClosesRun (ids.rotate r)
  least : ∀ s, ClosesRun (ids.rotate s) → ids.rotate r ≤ ids.rotate s
  first : ∀ s < r, ids.rotate s ≠ ids.rotate r

theorem startMarks_ne_nil (hmax : ids.max? = some greatest) : startMarks greatest ids ≠ [] := by
  cases ids with
  | nil => cases hmax
  | cons a rest =>
      rw [startMarks, List.getLast?_eq_some_getLast (List.cons_ne_nil a rest)]
      exact List.cons_ne_nil _ _

/-- The least rotation of the marks is a possible start if there is one. -/
theorem closesRun_leastRotation (hmax : ids.max? = some greatest) {s : Nat}
    (hs : ClosesRun (ids.rotate s)) :
    ClosesRun (ids.rotate (leastRotation (startMarks greatest ids))) := by
  have hids : ids ≠ [] := List.ne_nil_of_mem (List.max?_eq_some_iff.1 hmax).1
  have hmarks := startMarks_ne_nil hmax
  have hmark := repeating_startMarks hids hmarks hmax
  rw [← (hmark s).2] at hs
  by_contra hr
  rw [← (hmark _).2, Bool.not_eq_false] at hr
  refine (leastRotation_isFirstLeast hmarks).least s ⟨0, fun m hm => absurd hm (Nat.not_lt_zero m), ?_⟩
  exact StartMark.compare_eq_lt_of_later hs hr

/-- Where the ids are the same, so are the marks. -/
theorem repeating_startMarks_eq (hmarks : startMarks greatest ids ≠ []) {r s : Nat}
    (h : ids.rotate s = ids.rotate r) (m : Nat) : repeating (startMarks greatest ids) hmarks (s + m) =
      repeating (startMarks greatest ids) hmarks (r + m) := by
  have hrotate : ∀ n, (startMarks greatest ids).rotate n ≠ [] := fun n hn =>
    hmarks (List.rotate_eq_nil_iff.1 hn)
  have hsame : (startMarks greatest ids).rotate s = (startMarks greatest ids).rotate r := by
    rw [← startMarks_rotate, h, startMarks_rotate]
  rw [← repeating_rotate hmarks (hrotate s), ← repeating_rotate hmarks (hrotate r)]
  simp only [hsame]

end Marks

theorem loopStart_isCanonicalStart (ids : List Int) : IsCanonicalStart ids (loopStart ids) := by
  cases hmax : ids.max? with
  | none =>
      cases List.max?_eq_none_iff.1 hmax
      exact ⟨fun _ => rfl, fun ⟨a, ha, _⟩ => absurd ha List.not_mem_nil, fun s hs => by
        rw [List.rotate_nil, List.rotate_nil], fun s hs => absurd hs (Nat.not_lt_zero s)⟩
  | some greatest =>
      have hids : ids ≠ [] := List.ne_nil_of_mem (List.max?_eq_some_iff.1 hmax).1
      have hmarks := startMarks_ne_nil hmax
      have hleast := leastRotation_isFirstLeast hmarks
      have hstart : loopStart ids = leastRotation (startMarks greatest ids) := by
        rw [loopStart, hmax]
      rw [hstart]
      have hfirst : ∀ s < leastRotation (startMarks greatest ids),
          ids.rotate s ≠ ids.rotate (leastRotation (startMarks greatest ids)) := fun s hs hsame =>
        hleast.first s hs (hleast.least.of_eq (repeating_startMarks_eq hmarks hsame.symm))
      refine ⟨fun hconstant => ?_, fun hdiffer => ?_, fun s hs => ?_, hfirst⟩
      · by_contra hpos
        exact hfirst 0 (Nat.pos_of_ne_zero hpos) (rotate_eq_rotate_of_constant hconstant _ _)
      · obtain ⟨a, ha, b, hb, hab⟩ := hdiffer
        have hother : ∃ c ∈ ids, c ≠ greatest := by
          by_cases hagreatest : a = greatest
          · exact ⟨b, hb, fun hbgreatest => hab (hagreatest.trans hbgreatest.symm)⟩
          · exact ⟨a, ha, hagreatest⟩
        obtain ⟨s, hs⟩ := exists_closesRun hmax hother
        exact closesRun_leastRotation hmax hs
      · by_contra hlt
        have hbefore := (rotate_lt_rotate_iff hids).1 (not_le.1 hlt)
        exact hleast.least s (startsBefore_startMarks hids hmarks hmax
          (closesRun_leastRotation hmax hs) hs hbefore)

/-- From its canonical start, a rotation has the same ids as the sequence it comes from. -/
theorem IsCanonicalStart.rotate_rotate {ids : List Int} {r r' s : Nat} (hr : IsCanonicalStart ids r)
    (hr' : IsCanonicalStart (ids.rotate s) r') : (ids.rotate s).rotate r' = ids.rotate r := by
  by_cases hdiffer : ∃ a ∈ ids, ∃ b ∈ ids, a ≠ b
  · have hcloses := hr.closes hdiffer
    have hcloses' := hr'.closes (by simpa only [List.mem_rotate] using hdiffer)
    obtain ⟨m, hm⟩ : (ids.rotate s).IsRotated (ids.rotate r) :=
      List.IsRotated.trans (List.IsRotated.symm ⟨s, rfl⟩) ⟨r, rfl⟩
    refine le_antisymm ?_ ?_
    · rw [← hm] at hcloses ⊢
      exact hr'.least m hcloses
    · rw [List.rotate_rotate] at hcloses' ⊢
      exact hr.least _ hcloses'
  · have hconstant : ∀ a ∈ ids, ∀ b ∈ ids, a = b := by
      simpa only [not_exists, not_and, not_not] using hdiffer
    rw [List.rotate_rotate]
    exact rotate_eq_rotate_of_constant hconstant _ _

/-! ### Ascending loops -/

theorem closesRun_of_ascends {a b : Int} {between : List Int}
    (hascends : (a :: (between ++ [b])).Pairwise (· < ·)) : ClosesRun (a :: (between ++ [b])) := by
  obtain ⟨hfirst, hrest⟩ := List.pairwise_cons.1 hascends
  have hab : a < b := hfirst b (List.mem_append_right _ (List.mem_singleton_self b))
  have hmax : (a :: (between ++ [b])).max? = some b := by
    refine List.max?_eq_some_iff.2 ⟨by simp, fun c hc => ?_⟩
    rcases List.mem_cons.1 hc with rfl | hc
    · exact hab.le
    · rcases List.mem_append.1 hc with hc | hc
      · exact ((List.pairwise_append.1 hrest).2.2 c hc b (List.mem_singleton_self b)).le
      · exact (List.eq_of_mem_singleton hc).le
  rw [closesRun_iff hmax, ← List.cons_append, List.getLast?_concat]
  exact ⟨rfl, fun hhead => hab.ne (Option.some.inj hhead)⟩

/-- Of the rotations of ascending ids, none is less than they are. -/
theorem eq_of_isRotated_of_le {ids rotated : List Int} (hascends : ids.Pairwise (· < ·))
    (hrotated : ids.IsRotated rotated) (hle : rotated ≤ ids) : rotated = ids := by
  cases rotated with
  | nil => exact (List.isRotated_nil_iff.1 hrotated).symm
  | cons c rest =>
      cases ids with
      | nil => cases List.isRotated_nil_iff'.1 hrotated
      | cons a ids =>
          have hac : a ≤ c := by
            rcases List.mem_cons.1 (hrotated.mem_iff.2 List.mem_cons_self) with rfl | hc
            · exact le_rfl
            · exact (List.rel_of_pairwise_cons hascends hc).le
          have hca : c ≤ a := by
            by_contra hlt
            exact absurd hle (not_le.2 (List.cons_lt_cons_iff.2 (.inl (not_le.1 hlt))))
          obtain rfl := le_antisymm hac hca
          have hnodup : (a :: ids).Nodup := hascends.imp ne_of_lt
          rw [eq_of_isRotated_cons hnodup hrotated]

/-- Ascending ids have their canonical start at the beginning. -/
theorem rotate_loopStart_of_ascends {ids : List Int} (hascends : ids.Pairwise (· < ·)) :
    ids.rotate (loopStart ids) = ids := by
  cases ids with
  | nil => exact List.rotate_nil _
  | cons a rest =>
      rcases List.eq_nil_or_concat rest with rfl | ⟨between, b, rfl⟩
      · exact List.rotate_singleton a _
      · rw [List.concat_eq_append] at hascends ⊢
        have hcloses := closesRun_of_ascends hascends
        rw [← List.rotate_zero (a :: (between ++ [b]))] at hcloses
        have hle := (loopStart_isCanonicalStart _).least 0 hcloses
        rw [List.rotate_zero] at hle
        exact eq_of_isRotated_of_le hascends ⟨_, rfl⟩ hle

section Key

variable {α : Type} {key : α → Int} {l m : List α}

/-- The canonical loops of a loop and of its rotations show the same ids. -/
theorem map_canonicalLoop_of_isRotated (h : l.IsRotated m) :
    (canonicalLoop key m).map key = (canonicalLoop key l).map key := by
  obtain ⟨n, rfl⟩ := h
  rw [canonicalLoop_eq_rotate, canonicalLoop_eq_rotate, List.map_rotate, List.map_rotate,
    List.map_rotate]
  exact (loopStart_isCanonicalStart _).rotate_rotate (loopStart_isCanonicalStart _)

/-- A rotation whose ids ascend is the canonical loop. -/
theorem canonicalLoop_of_ascends (h : l.IsRotated m)
    (hascends : m.Pairwise fun a b => key a < key b) : canonicalLoop key l = m := by
  have hsame : (canonicalLoop key l).map key = m.map key := by
    rw [← map_canonicalLoop_of_isRotated h, canonicalLoop_eq_rotate, List.map_rotate]
    exact rotate_loopStart_of_ascends (List.pairwise_map.2 hascends)
  have hsorted : ((canonicalLoop key l).map key).Pairwise (· ≤ ·) := by
    rw [hsame]
    exact List.pairwise_map.2 (hascends.imp le_of_lt)
  exact eq_of_perm_of_pairwise_lt ((canonicalLoop_perm key l).trans h.perm) (List.pairwise_map.1 hsorted)
    hascends

end Key

/-! ### Tables of ids -/

/-- The table gives the canonical rotation if it covers the loop. -/
theorem canonicalLoop?_eq_rotate {ids : Array Int} {edges : List Int}
    (hedges : ∀ e ∈ edges, 0 ≤ e ∧ e < ids.size) : canonicalLoop? ids edges =
      .ok (edges.rotate (loopStart (edges.map fun e => ids.getD e.toNat noInput))) := by
  obtain ⟨places, rfl⟩ : ∃ places : List Nat, edges = places.map Int.ofNat := by
    refine ⟨edges.map Int.toNat, ?_⟩
    rw [List.map_map]
    have hsame := List.map_congr_left fun e he => Int.toNat_of_nonneg (hedges e he).1
    exact (hsame.trans (List.map_id edges)).symm
  rw [canonicalLoop?_eq_ok fun e he => ?_]
  · rw [canonicalLoop_eq_rotate, List.map_rotate, List.map_map]
    rfl
  · exact Int.ofNat_lt.1 (hedges _ (List.mem_map_of_mem he)).2

/-- For a table of ids and a loop that it covers, the canonical loop is the rotation to the canonical start.
Every rotation of the loop comes out with the same ids, and the canonical loop comes out as it is. -/
theorem canonicalLoop?_isCanonicalStart {ids : Array Int} {edges : List Int}
    (hedges : ∀ e ∈ edges, 0 ≤ e ∧ e < ids.size) :
    ∃ r, canonicalLoop? ids edges = .ok (edges.rotate r) ∧
      IsCanonicalStart (edges.map fun e => ids.getD e.toNat noInput) r ∧
      (∀ s, ∃ loop, canonicalLoop? ids (edges.rotate s) = .ok loop ∧
        (loop.map fun e => ids.getD e.toNat noInput) =
          (edges.rotate r).map fun e => ids.getD e.toNat noInput) ∧
      canonicalLoop? ids (edges.rotate r) = .ok (edges.rotate r) := by
  have hrotate : ∀ s, canonicalLoop? ids (edges.rotate s) = .ok ((edges.rotate s).rotate
      (loopStart ((edges.rotate s).map fun e => ids.getD e.toNat noInput))) := by
    intro s
    exact canonicalLoop?_eq_rotate fun e he => hedges e (List.mem_rotate.1 he)
  have hstart := loopStart_isCanonicalStart (edges.map fun e => ids.getD e.toNat noInput)
  refine ⟨_, ?_, hstart, fun s => ⟨_, hrotate s, ?_⟩, ?_⟩
  · simpa only [List.rotate_zero] using hrotate 0
  · rw [List.map_rotate, List.map_rotate, List.map_rotate]
    exact hstart.rotate_rotate (loopStart_isCanonicalStart _)
  · rw [hrotate, List.map_rotate, loopStart_rotate, List.rotate_zero]

theorem canonicalLoop?_isCanonicalStart_twoRuns :
    (∀ e ∈ ([2, 3, 0, 1] : List Int), 0 ≤ e ∧ e < (#[5, 0, 5, 1] : Array Int).size) ∧
      canonicalLoop? #[5, 0, 5, 1] [2, 3, 0, 1] = .ok [1, 2, 3, 0] ∧
      ∃ r, ([1, 2, 3, 0] : List Int) = [2, 3, 0, 1].rotate r ∧ IsCanonicalStart [5, 1, 5, 0] r ∧
        ∀ s, ∃ loop, canonicalLoop? #[5, 0, 5, 1] ([2, 3, 0, 1].rotate s) = .ok loop ∧
          loop.map (fun e => (#[5, 0, 5, 1] : Array Int).getD e.toNat noInput) = [0, 5, 1, 5] := by
  have hedges : ∀ e ∈ ([2, 3, 0, 1] : List Int), 0 ≤ e ∧ e < (#[5, 0, 5, 1] : Array Int).size := by
    decide
  have hloop : canonicalLoop? #[5, 0, 5, 1] [2, 3, 0, 1] = .ok [1, 2, 3, 0] := by cbv
  obtain ⟨r, hr, hstart, hrotations, -⟩ := canonicalLoop?_isCanonicalStart hedges
  have hrotate := Except.ok.inj (hloop.symm.trans hr)
  rw [← hrotate] at hrotations
  exact ⟨hedges, hloop, r, hrotate, hstart, hrotations⟩

end SnapGraph
