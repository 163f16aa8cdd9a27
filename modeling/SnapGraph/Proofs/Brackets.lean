import Mathlib
import SnapGraph.Proofs.LeftTurn

/-! The turns at a vertex are a matching of brackets on the circle of its spokes, an incoming edge
being an opening bracket. One way through the spokes leaves some incoming edges waiting and some
outgoing ones free; below a stack of waiting edges the same way gives the free ones to that stack, top
first. What lies before a spoke is therefore met as if the way went on past the end, and the answer to
an incoming edge is the first outgoing one that is reached with nothing left open in between, wherever
the circle is cut. -/

namespace SnapGraph

/-- Going through the spokes, `answer` is the first outgoing one that has `depth` more outgoing than
incoming spokes before it, and `between` are the spokes before it. -/
structure Answers (depth : Nat) (spokes between : List Spoke) (answer : Spoke) : Prop where
  leads : between ++ [answer] <+: spokes
  outgoing : answer.incoming = false
  balance : between.countP (!·.incoming) = between.countP (·.incoming) + depth
  first : ∀ between' other, between' ++ [other] <+: spokes → other.incoming = false →
    between'.countP (!·.incoming) = between'.countP (·.incoming) + depth →
    between.length ≤ between'.length

namespace Answers

variable {depth depth' : Nat} {s answer answer' : Spoke} {rest spokes between between' : List Spoke}

theorem not_nil : ¬Answers depth [] between answer := by
  intro h
  have hlen := h.leads.length_le
  simp at hlen

/-- An outgoing spoke is the answer if nothing is open. -/
theorem zero_cons_iff (hs : s.incoming = false) :
    Answers 0 (s :: rest) between answer ↔ between = [] ∧ answer = s := by
  constructor
  · intro h
    have hnil : between = [] :=
      List.eq_nil_of_length_eq_zero (Nat.le_zero.1 (h.first [] s (by simp) hs rfl))
    subst hnil
    have hleads := h.leads
    simp only [List.nil_append, List.cons_prefix_cons] at hleads
    exact ⟨rfl, hleads.1⟩
  · rintro ⟨rfl, rfl⟩
    exact ⟨by simp, hs, rfl, fun _ _ _ _ _ => Nat.zero_le _⟩

/-- Any other spoke opens or closes one bracket. -/
theorem cons_iff (hdepth : s.incoming = true ∧ depth' = depth + 1 ∨
      s.incoming = false ∧ depth = depth' + 1) :
    Answers depth (s :: rest) between answer ↔
      ∃ between', between = s :: between' ∧ Answers depth' rest between' answer := by
  have hbalance : ∀ l : List Spoke,
      (s :: l).countP (!·.incoming) = (s :: l).countP (·.incoming) + depth ↔
        l.countP (!·.incoming) = l.countP (·.incoming) + depth' := by
    intro l
    simp only [List.countP_cons]
    rcases hdepth with ⟨hs, rfl⟩ | ⟨hs, rfl⟩
    · simp only [hs, Bool.not_true, Bool.false_eq_true, if_false, if_true]
      omega
    · simp only [hs, Bool.not_false, Bool.false_eq_true, if_false, if_true]
      omega
  have hcons : ∀ l t, l ++ [t] <+: s :: rest → t.incoming = false →
      l.countP (!·.incoming) = l.countP (·.incoming) + depth →
      ∃ l', l = s :: l' ∧ l' ++ [t] <+: rest := by
    intro l t hl ht hcount
    cases l with
    | nil =>
        obtain ⟨rfl, -⟩ := List.cons_prefix_cons.1 hl
        rcases hdepth with ⟨hs, -⟩ | ⟨-, rfl⟩
        · exact absurd (ht.symm.trans hs) Bool.false_ne_true
        · simp at hcount
    | cons a l =>
        rw [List.cons_append, List.cons_prefix_cons] at hl
        obtain ⟨rfl, hl⟩ := hl
        exact ⟨l, rfl, hl⟩
  constructor
  · intro h
    obtain ⟨l, rfl, hl⟩ := hcons _ _ h.leads h.outgoing h.balance
    refine ⟨l, rfl, hl, h.outgoing, (hbalance l).1 h.balance, fun l' t hl' ht hcount => ?_⟩
    have hle := h.first (s :: l') t (List.cons_prefix_cons.2 ⟨rfl, hl'⟩) ht ((hbalance l').2 hcount)
    simpa using hle
  · rintro ⟨l, rfl, h⟩
    refine ⟨List.cons_prefix_cons.2 ⟨rfl, h.leads⟩, h.outgoing, (hbalance l).2 h.balance,
      fun l' t hl' ht hcount => ?_⟩
    obtain ⟨l', rfl, hrest⟩ := hcons _ _ hl' ht hcount
    have hle := h.first l' t hrest ht ((hbalance l').1 hcount)
    simpa using hle

theorem unique (h : Answers depth spokes between answer) (h' : Answers depth spokes between' answer') :
    between = between' ∧ answer = answer' := by
  have hlen : between.length = between'.length :=
    Nat.le_antisymm (h.first _ _ h'.leads h'.outgoing h'.balance)
      (h'.first _ _ h.leads h.outgoing h.balance)
  have heq : between ++ [answer] = between' ++ [answer'] :=
    (List.prefix_of_prefix_length_le h.leads h'.leads (by simp [hlen])).eq_of_length (by simp [hlen])
  obtain ⟨hbetween, hanswer⟩ := List.append_inj heq hlen
  exact ⟨hbetween, List.singleton_inj.1 hanswer⟩

/-- The answer does not depend on what comes after it. -/
theorem append (h : Answers depth spokes between answer) (later : List Spoke) :
    Answers depth (spokes ++ later) between answer where
  leads := h.leads.trans (List.prefix_append _ _)
  outgoing := h.outgoing
  balance := h.balance
  first := by
    intro l t hl ht hcount
    by_contra hlt
    have hle : (l ++ [t]).length ≤ spokes.length := by
      have := h.leads.length_le
      simp only [List.length_append, List.length_singleton] at this ⊢
      omega
    exact hlt (h.first l t
      (List.prefix_of_prefix_length_le hl (List.prefix_append _ _) hle) ht hcount)

theorem exists_of_countP_lt
    (h : spokes.countP (·.incoming) + depth < spokes.countP (!·.incoming)) :
    ∃ between answer, Answers depth spokes between answer := by
  induction spokes generalizing depth with
  | nil => simp at h
  | cons s rest ih =>
      simp only [List.countP_cons] at h
      by_cases hs : s.incoming = true
      · simp only [hs, Bool.not_true, Bool.false_eq_true, if_false, if_true] at h
        have hdeeper : rest.countP (·.incoming) + (depth + 1) < rest.countP (!·.incoming) := by
          omega
        obtain ⟨between, answer, hanswer⟩ := ih hdeeper
        exact ⟨_, answer, (cons_iff (.inl ⟨hs, rfl⟩)).2 ⟨between, rfl, hanswer⟩⟩
      · rw [Bool.not_eq_true] at hs
        simp only [hs, Bool.not_false, Bool.false_eq_true, if_false, if_true] at h
        cases depth with
        | zero => exact ⟨[], s, (zero_cons_iff hs).2 ⟨rfl, rfl⟩⟩
        | succ depth =>
            have hless : rest.countP (·.incoming) + depth < rest.countP (!·.incoming) := by
              omega
            obtain ⟨between, answer, hanswer⟩ := ih hless
            exact ⟨_, answer, (cons_iff (.inr ⟨hs, rfl⟩)).2 ⟨between, rfl, hanswer⟩⟩

/-- On the way to the answer no more brackets are closed than were opened. -/
theorem countP_le (h : Answers 0 spokes between answer) {part : List Spoke}
    (hpart : part <+: between) : part.countP (!·.incoming) ≤ part.countP (·.incoming) := by
  by_contra hle
  have hlt : part.countP (·.incoming) + 0 < part.countP (!·.incoming) := Nat.lt_of_not_le hle
  obtain ⟨between', answer', hanswer⟩ := exists_of_countP_lt hlt
  obtain ⟨later, rfl⟩ := hpart.trans ((List.prefix_append _ _).trans h.leads)
  obtain ⟨rfl, -⟩ := h.unique (hanswer.append later)
  have := hanswer.leads.length_le
  have := hpart.length_le
  simp only [List.length_append, List.length_singleton] at *
  omega

end Answers

/-- The edge of the answer. -/
def AnsweredBy (depth : Nat) (spokes : List Spoke) (f : Nat) : Prop :=
  ∃ between answer, Answers depth spokes between answer ∧ answer.edge = f

theorem not_answeredBy_nil (depth f : Nat) : ¬AnsweredBy depth [] f :=
  fun ⟨_, _, h, _⟩ => h.not_nil

theorem answeredBy_zero_cons_iff {s : Spoke} {rest : List Spoke} {f : Nat}
    (hs : s.incoming = false) : AnsweredBy 0 (s :: rest) f ↔ s.edge = f := by
  constructor
  · rintro ⟨between, answer, h, hf⟩
    obtain ⟨-, rfl⟩ := (Answers.zero_cons_iff hs).1 h
    exact hf
  · intro hf
    exact ⟨[], s, (Answers.zero_cons_iff hs).2 ⟨rfl, rfl⟩, hf⟩

theorem answeredBy_cons_iff {depth depth' f : Nat} {s : Spoke} {rest : List Spoke}
    (hdepth : s.incoming = true ∧ depth' = depth + 1 ∨ s.incoming = false ∧ depth = depth' + 1) :
    AnsweredBy depth (s :: rest) f ↔ AnsweredBy depth' rest f := by
  constructor
  · rintro ⟨_, answer, h, hf⟩
    obtain ⟨between, -, h⟩ := (Answers.cons_iff hdepth).1 h
    exact ⟨between, answer, h, hf⟩
  · rintro ⟨between, answer, h, hf⟩
    exact ⟨s :: between, answer, (Answers.cons_iff hdepth).2 ⟨between, rfl, h⟩, hf⟩

namespace Matching

/-! ### Waiting and free edges -/

/-- The free edges answer a stack of waiting edges and whatever lies below it. -/
theorem free_getElem?_iff {waiting : List Nat} {spokes : List Spoke} {d f : Nat} :
    (scan waiting spokes).2.2[d]? = some f ↔ AnsweredBy (waiting.length + d) spokes f := by
  fun_induction scan waiting spokes generalizing d with
  | case1 waiting => simp [not_answeredBy_nil]
  | case2 waiting s rest hs ih =>
      rw [ih, answeredBy_cons_iff (.inl ⟨hs, rfl⟩), List.length_cons, Nat.add_right_comm]
  | case3 s rest hs e waiting turns left free h ih =>
      rw [h] at ih
      rw [Bool.not_eq_true] at hs
      rw [List.length_cons, Nat.add_right_comm, answeredBy_cons_iff (.inr ⟨hs, rfl⟩)]
      exact ih
  | case4 s rest hs turns left free h ih =>
      rw [h] at ih
      rw [Bool.not_eq_true] at hs
      rw [List.length_nil, Nat.zero_add]
      cases d with
      | zero =>
          rw [answeredBy_zero_cons_iff hs]
          simp
      | succ d =>
          rw [answeredBy_cons_iff (.inr ⟨hs, rfl⟩), List.getElem?_cons_succ, ih, List.length_nil,
            Nat.zero_add]

theorem scan_incoming {s : Spoke} (hs : s.incoming = true) (waiting : List Nat) (rest : List Spoke) :
    scan waiting (s :: rest) = scan (s.edge :: waiting) rest := by
  rw [scan.eq_def]
  exact if_pos hs

theorem scan_matched {s : Spoke} (hs : s.incoming = false) (e : Nat) (waiting : List Nat)
    (rest : List Spoke) : scan (e :: waiting) (s :: rest) =
      ((e, s.edge) :: (scan waiting rest).1, (scan waiting rest).2) := by
  rw [scan.eq_def]
  exact if_neg (Bool.eq_false_iff.1 hs)

theorem scan_free {s : Spoke} (hs : s.incoming = false) (rest : List Spoke) :
    scan [] (s :: rest) =
      ((scan [] rest).1, (scan [] rest).2.1, s.edge :: (scan [] rest).2.2) := by
  rw [scan.eq_def]
  exact if_neg (Bool.eq_false_iff.1 hs)

theorem scan_append (waiting : List Nat) (spokes later : List Spoke) :
    scan waiting (spokes ++ later) =
      ((scan waiting spokes).1 ++ (scan (scan waiting spokes).2.1 later).1,
        (scan (scan waiting spokes).2.1 later).2.1,
        (scan waiting spokes).2.2 ++ (scan (scan waiting spokes).2.1 later).2.2) := by
  induction spokes generalizing waiting with
  | nil => rfl
  | cons s rest ih =>
      rw [List.cons_append]
      by_cases hs : s.incoming = true
      · rw [scan_incoming hs, scan_incoming hs, ih]
      · rw [Bool.not_eq_true] at hs
        cases waiting with
        | nil =>
            rw [scan_free hs, scan_free hs, ih]
            rfl
        | cons e waiting =>
            rw [scan_matched hs, scan_matched hs, ih]
            rfl

/-- Waiting edges at the bottom of the stack get the edges that are free without them. -/
theorem scan_above (upper lower : List Nat) (spokes : List Spoke) :
    (scan (upper ++ lower) spokes).1.Perm
        ((scan upper spokes).1 ++ lower.zip (scan upper spokes).2.2) ∧
      (scan (upper ++ lower) spokes).2.1 =
        (scan upper spokes).2.1 ++ lower.drop (scan upper spokes).2.2.length ∧
      (scan (upper ++ lower) spokes).2.2 = (scan upper spokes).2.2.drop lower.length := by
  induction spokes generalizing upper lower with
  | nil => simp [scan]
  | cons s rest ih =>
      by_cases hs : s.incoming = true
      · rw [scan_incoming hs, scan_incoming hs]
        exact ih (s.edge :: upper) lower
      · rw [Bool.not_eq_true] at hs
        cases upper with
        | cons e upper =>
            obtain ⟨hturns, hleft, hfree⟩ := ih upper lower
            rw [List.cons_append, scan_matched hs, scan_matched hs]
            exact ⟨hturns.cons _, hleft, hfree⟩
        | nil =>
            cases lower with
            | nil => simp
            | cons e lower =>
                obtain ⟨hturns, hleft, hfree⟩ := ih [] lower
                rw [List.nil_append, scan_matched hs, scan_free hs]
                exact ⟨(hturns.cons _).trans List.perm_middle.symm, hleft, hfree⟩

theorem mem_zip_append_cons_iff {left right l : List Nat} {e f : Nat} (hleft : e ∉ left)
    (hright : e ∉ right) : (e, f) ∈ (left ++ e :: right).zip l ↔ l[left.length]? = some f := by
  induction left generalizing l with
  | nil =>
      cases l with
      | nil => simp
      | cons a l =>
          have hnot : (e, f) ∉ right.zip l := fun h => hright (List.of_mem_zip h).1
          simp [hnot, eq_comm]
  | cons a left ih =>
      have hne : e ≠ a := List.ne_of_not_mem_cons hleft
      cases l with
      | nil => simp
      | cons b l => simp [ih (List.not_mem_of_not_mem_cons hleft), hne]

theorem not_mem_of_not_mem_incomingIds {e : Nat} {spokes : List Spoke}
    (he : e ∉ Spoke.incomingIds spokes) :
    (∀ f, (e, f) ∉ (scan [] spokes).1) ∧ e ∉ (scan [] spokes).2.1 := by
  have hperm := scan_incoming_perm [] spokes
  constructor
  · intro f hef
    exact he (hperm.mem_iff.1 (List.mem_append_left _ (List.mem_map.2 ⟨_, hef, rfl⟩)))
  · intro hwaits
    exact he (hperm.mem_iff.1 (List.mem_append_right _ hwaits))

/-- What is left of an edge that finds no answer before the end is answered from the start. -/
theorem mem_turns_iff {before after : List Spoke} {s : Spoke} (hs : s.incoming = true)
    (hbefore : s.edge ∉ Spoke.incomingIds before) (hafter : s.edge ∉ Spoke.incomingIds after)
    {f : Nat} : (s.edge, f) ∈ (ofSpokes (before ++ s :: after)).turns ↔
      AnsweredBy 0 (after ++ before) f := by
  obtain ⟨hturnsB, hleftB⟩ := not_mem_of_not_mem_incomingIds hbefore
  obtain ⟨hturnsA, hleftA⟩ := not_mem_of_not_mem_incomingIds hafter
  -- The free edges of the way that goes on past the end, of which the first is the answer.
  have hanswer : AnsweredBy 0 (after ++ before) f ↔
      ((scan [] after).2.2 ++ (scan [] before).2.2.drop (scan [] after).2.1.length)[0]? = some f := by
    have hlater := (scan_above [] (scan [] after).2.1 before).2.2
    have hfree : (scan [] (after ++ before)).2.2[0]? = some f ↔ AnsweredBy 0 (after ++ before) f :=
      free_getElem?_iff
    rw [scan_append, ← List.nil_append (scan [] after).2.1, hlater] at hfree
    exact hfree.symm
  obtain ⟨hturns, hleft, hfree⟩ := scan_above [] (s.edge :: (scan [] before).2.1) after
  rw [List.nil_append] at hturns hleft hfree
  have hmem : (s.edge, f) ∈ (ofSpokes (before ++ s :: after)).turns ↔
      (s.edge, f) ∈ (s.edge :: (scan [] before).2.1).zip (scan [] after).2.2 ∨
        (s.edge, f) ∈ ((scan [] after).2.1 ++
          (s.edge :: (scan [] before).2.1).drop (scan [] after).2.2.length).zip
            ((scan [] before).2.2 ++ (scan [] after).2.2.drop ((scan [] before).2.1.length + 1)) := by
    simp only [ofSpokes, scan_append, scan_incoming hs, List.mem_append, hturns.mem_iff, hleft, hfree,
      hturnsB, hturnsA, false_or, List.length_cons]
  rw [hanswer, hmem]
  cases hnext : (scan [] after).2.2 with
  | nil =>
      rw [List.zip_nil_right, List.length_nil, List.drop_zero, List.drop_nil, List.append_nil,
        mem_zip_append_cons_iff hleftA hleftB]
      simp
  | cons a free =>
      have hwaits : s.edge ∉ (scan [] after).2.1 ++ (scan [] before).2.1.drop free.length := by
        rw [List.mem_append, not_or]
        exact ⟨hleftA, fun h => hleftB (List.mem_of_mem_drop h)⟩
      have hone : (s.edge, f) ∈ (s.edge :: (scan [] before).2.1).zip (a :: free) ↔ a = f := by
        rw [← List.nil_append (s.edge :: _), mem_zip_append_cons_iff List.not_mem_nil hleftB]
        simp
      rw [hone, List.length_cons, List.drop_succ_cons]
      constructor
      · rintro (rfl | h)
        · rfl
        · exact absurd (List.of_mem_zip h).1 hwaits
      · intro h
        exact .inl (Option.some.inj h)

end Matching

/-! ### The circle -/

theorem exists_eq_append_of_isRotated_cons {α : Type} {l rest : List α} {a : α}
    (h : l.IsRotated (a :: rest)) : ∃ before after, l = before ++ a :: after ∧ rest = after ++ before := by
  obtain ⟨n, hn, rfl⟩ := List.isRotated_iff_mod.1 h.symm
  cases n with
  | zero => exact ⟨[], rest, by simp, by simp⟩
  | succ n =>
      refine ⟨rest.drop n, rest.take n, ?_, (List.take_append_drop n rest).symm⟩
      rw [List.rotate_eq_drop_append_take hn, List.drop_succ_cons, List.take_succ_cons]

/-- Where nothing occurs twice, a circle is read in one way from each of its members. -/
theorem eq_of_isRotated_cons {α : Type} {a : α} {rest rest' : List α} (hnodup : (a :: rest).Nodup)
    (h : (a :: rest).IsRotated (a :: rest')) : rest = rest' := by
  obtain ⟨before, after, hcut, rfl⟩ := exists_eq_append_of_isRotated_cons h
  cases before with
  | nil =>
      rw [List.append_nil]
      exact (List.cons.inj hcut).2
  | cons b before =>
      obtain ⟨rfl, rfl⟩ := List.cons.inj hcut
      simp at hnodup

/-- Going around the circle of the spokes from an incoming one, `answer` is the first outgoing spoke
with as many incoming as outgoing ones on the way to it, and these are `between`. -/
structure IsArc (spokes : List Spoke) (s : Spoke) (between : List Spoke) (answer : Spoke) : Prop where
  incoming : s.incoming = true
  answers : ∃ rest, spokes.IsRotated (s :: rest) ∧ Answers 0 rest between answer

namespace IsArc

variable {spokes spokes' between between' : List Spoke} {s s' answer answer' : Spoke}

theorem isRotated (h : IsArc spokes s between answer) (hspokes : spokes'.IsRotated spokes) :
    IsArc spokes' s between answer := by
  obtain ⟨rest, hrest, hanswer⟩ := h.answers
  exact ⟨h.incoming, rest, hspokes.trans hrest, hanswer⟩

/-- A bracket that is opened on an arc is closed on it. -/
theorem subset_between (hnodup : spokes.Nodup) (h : IsArc spokes s between answer)
    (h' : IsArc spokes s' between' answer') (hmem : s' ∈ between) :
    s' :: (between' ++ [answer']) ⊆ between := by
  obtain ⟨rest, hrest, hanswer⟩ := h.answers
  obtain ⟨rest', hrest', hanswer'⟩ := h'.answers
  obtain ⟨later, rfl⟩ := hanswer.leads
  obtain ⟨part, inner, rfl⟩ := List.append_of_mem hmem
  -- From the inner bracket the circle first leads through the rest of the arc.
  have hcut : rest' = inner ++ (answer :: later ++ s :: part) := by
    refine eq_of_isRotated_cons (a := s') (hrest'.nodup_iff.1 hnodup) ?_
    refine hrest'.symm.trans (hrest.trans ?_)
    have hrotate : ((s :: part) ++ (s' :: (inner ++ answer :: later))).IsRotated
        ((s' :: (inner ++ answer :: later)) ++ (s :: part)) := List.isRotated_append
    simpa using hrotate
  have hinner : inner.countP (·.incoming) + 0 < inner.countP (!·.incoming) := by
    have hpart := hanswer.countP_le (List.prefix_append part (s' :: inner))
    have hbalance := hanswer.balance
    simp only [List.countP_append, List.countP_cons, h'.incoming, Bool.not_true, Bool.false_eq_true,
      if_false, if_true] at hbalance
    omega
  obtain ⟨_, _, hfound⟩ := Answers.exists_of_countP_lt hinner
  obtain ⟨rfl, rfl⟩ := hanswer'.unique (hcut ▸ hfound.append (answer :: later ++ s :: part))
  intro x hx
  rcases List.mem_cons.1 hx with rfl | hx
  · exact hmem
  · exact List.mem_append_right _ (List.mem_cons_of_mem _ (hfound.leads.subset hx))

theorem prefix_of_not_mem {α : Type} {p l l' : List α} {a : α} (h : p <+: l ++ a :: l') (ha : a ∉ p) :
    p <+: l := by
  rcases List.prefix_or_prefix_of_prefix h (List.prefix_append l (a :: l')) with hp | ⟨q, rfl⟩
  · exact hp
  · cases q with
    | nil => simp
    | cons b q =>
        rw [List.prefix_append_right_inj, List.cons_prefix_cons] at h
        obtain ⟨rfl, -⟩ := h
        simp at ha

/-- Two arcs are nested, or they have nothing in common. -/
theorem nested_or_disjoint (hnodup : spokes.Nodup) (h : IsArc spokes s between answer)
    (h' : IsArc spokes s' between' answer') :
    s :: (between ++ [answer]) ⊆ s' :: (between' ++ [answer']) ∨
      s' :: (between' ++ [answer']) ⊆ s :: (between ++ [answer]) ∨
      (s :: (between ++ [answer])).Disjoint (s' :: (between' ++ [answer'])) := by
  by_cases hinner : s ∈ between'
  · refine .inl fun x hx => List.mem_cons_of_mem _ (List.mem_append_left _ ?_)
    exact subset_between hnodup h' h hinner hx
  by_cases houter : s' ∈ between
  · refine .inr (.inl fun x hx => List.mem_cons_of_mem _ (List.mem_append_left _ ?_))
    exact subset_between hnodup h h' houter hx
  obtain ⟨rest, hrest, hanswer⟩ := h.answers
  obtain ⟨rest', hrest', hanswer'⟩ := h'.answers
  by_cases hsame : s = s'
  · subst hsame
    obtain rfl : rest = rest' :=
      eq_of_isRotated_cons (hrest.nodup_iff.1 hnodup) (hrest.symm.trans hrest')
    obtain ⟨rfl, rfl⟩ := hanswer.unique hanswer'
    exact .inl (List.Subset.refl _)
  have hne : s' ≠ answer := fun heq =>
    Bool.false_ne_true (hanswer.outgoing.symm.trans (heq ▸ h'.incoming))
  have hne' : s ≠ answer' := fun heq =>
    Bool.false_ne_true (hanswer'.outgoing.symm.trans (heq ▸ h.incoming))
  obtain ⟨later, rfl⟩ := hanswer.leads
  have hlater : s' ∈ later := by
    have hmem : s' ∈ s :: (between ++ [answer] ++ later) :=
      hrest.mem_iff.1 (hrest'.mem_iff.2 List.mem_cons_self)
    simpa [Ne.symm hsame, houter, hne] using hmem
  obtain ⟨part, inner, rfl⟩ := List.append_of_mem hlater
  have hcut : rest' = inner ++ s :: (between ++ [answer] ++ part) := by
    refine eq_of_isRotated_cons (a := s') (hrest'.nodup_iff.1 hnodup) ?_
    refine hrest'.symm.trans (hrest.trans ?_)
    have hrotate : ((s :: (between ++ [answer] ++ part)) ++ (s' :: inner)).IsRotated
        ((s' :: inner) ++ (s :: (between ++ [answer] ++ part))) := List.isRotated_append
    simpa using hrotate
  have hwithin : between' ++ [answer'] <+: inner := by
    refine prefix_of_not_mem (hcut ▸ hanswer'.leads) ?_
    simp [hinner, hne']
  refine .inr (.inr fun x hx hx' => ?_)
  have hx'' : x ∈ part ++ s' :: inner := by
    rcases List.mem_cons.1 hx' with rfl | hx'
    · simp
    · exact List.mem_append_right _ (List.mem_cons_of_mem _ (hwithin.subset hx'))
  have hsplit : (s :: (between ++ [answer]) ++ (part ++ s' :: inner)).Nodup :=
    hrest.nodup_iff.1 hnodup
  exact (List.nodup_append.1 hsplit).2.2 x hx x hx'' rfl

end IsArc

theorem Spoke.mem_incomingIds {spokes : List Spoke} {e : Nat} :
    e ∈ incomingIds spokes ↔ ∃ s ∈ spokes, s.incoming = true ∧ s.edge = e := by
  simp [incomingIds, and_assoc]

/-- No spoke occurs twice if no edge does, in either direction. -/
theorem Spoke.nodup_of_ids {spokes : List Spoke} (hin : (incomingIds spokes).Nodup)
    (hout : (outgoingIds spokes).Nodup) : spokes.Nodup := by
  rw [List.nodup_iff_count_le_one]
  intro s
  cases hs : s.incoming with
  | true =>
      rw [← List.count_filter (p := Spoke.incoming) hs]
      exact List.nodup_iff_count_le_one.1 (List.Nodup.of_map _ hin) s
  | false =>
      rw [← List.count_filter (p := fun s => !s.incoming) (by simp [hs])]
      exact List.nodup_iff_count_le_one.1 (List.Nodup.of_map _ hout) s

/-- An incoming edge turns to the other end of its arc. -/
theorem Matching.mem_turns_iff_isArc {spokes : List Spoke} (hin : (Spoke.incomingIds spokes).Nodup)
    (hnodup : spokes.Nodup) {s : Spoke} (hmem : s ∈ spokes) (hs : s.incoming = true) {f : Nat} :
    (s.edge, f) ∈ (ofSpokes spokes).turns ↔
      ∃ between answer, IsArc spokes s between answer ∧ answer.edge = f := by
  obtain ⟨before, after, rfl⟩ := List.append_of_mem hmem
  have hids : (Spoke.incomingIds before ++ s.edge :: Spoke.incomingIds after).Nodup := by
    simpa [Spoke.incomingIds, hs] using hin
  have hfresh := (List.nodup_middle.1 hids).notMem
  rw [List.mem_append, not_or] at hfresh
  have hcut : (before ++ s :: after).IsRotated (s :: (after ++ before)) := List.isRotated_append
  rw [mem_turns_iff hs hfresh.1 hfresh.2]
  constructor
  · rintro ⟨between, answer, hanswer, hf⟩
    exact ⟨between, answer, ⟨hs, _, hcut, hanswer⟩, hf⟩
  · rintro ⟨between, answer, ⟨-, rest, hrest, hanswer⟩, hf⟩
    obtain rfl : after ++ before = rest :=
      eq_of_isRotated_cons (hcut.nodup_iff.1 hnodup) (hcut.symm.trans hrest)
    exact ⟨between, answer, hanswer, hf⟩

namespace Graph

/-- The spokes of a vertex in the order in which they are matched. -/
def spokesAt (g : Graph) (arrange : Star Nat → List Spoke) (inIds : List Nat) (v : Int) :
    List Spoke :=
  match (routingStars g.edges inIds).find? (·.center == v) with
  | some s => arrange s
  | none => []

/-- The turns at a vertex match its spokes like brackets on a circle, an incoming edge being an
opening bracket and an outgoing edge a closing one. -/
structure MatchesBrackets (g : Graph) (turns : Turns) (v : Int) (spokes : List Spoke) : Prop where
  entering : (Spoke.incomingIds spokes).Perm (g.arrivals v)
  leaving : (Spoke.outgoingIds spokes).Perm (g.departures v)
  matched : ∀ s ∈ spokes, s.incoming = true → ∀ f, turns.next? s.edge = some f ↔
    ∃ between answer, IsArc spokes s between answer ∧ answer.edge = f
  cut : ∀ spokes', spokes'.IsRotated spokes → ∀ e ∈ g.arrivals v, ∀ f,
    turns.next? e = some f ↔ (e, f) ∈ (Matching.ofSpokes spokes').turns
  nested : ∀ s between answer s' between' answer', IsArc spokes s between answer →
    IsArc spokes s' between' answer' →
    s :: (between ++ [answer]) ⊆ s' :: (between' ++ [answer']) ∨
      s' :: (between' ++ [answer']) ⊆ s :: (between ++ [answer]) ∨
      (s :: (between ++ [answer])).Disjoint (s' :: (between' ++ [answer']))

section InOrder

variable {g : Graph} {inIds : List Nat} {arrange : Star Nat → List Spoke} (h : g.InOrder inIds)
  (harrange : g.Arranges inIds arrange) (v : Int)

include h harrange

/-- A vertex without a star has no edges. -/
theorem InOrder.spokesAt_perm :
    (Spoke.incomingIds (g.spokesAt arrange inIds v)).Perm (g.arrivals v) ∧
      (Spoke.outgoingIds (g.spokesAt arrange inIds v)).Perm (g.departures v) := by
  unfold spokesAt
  cases hfind : (routingStars g.edges inIds).find? (·.center == v) with
  | some s =>
      obtain rfl : s.center = v := by simpa using List.find?_some hfind
      have hs := List.mem_of_find?_eq_some hfind
      exact ⟨h.incomingIds_perm hs (harrange s hs), h.outgoingIds_perm hs (harrange s hs)⟩
  | none =>
      have hnone : ∀ e < g.numEdges, ¬((g.edge e).origin = v ∨ (g.edge e).dest = v) := by
        intro e he htouches
        obtain ⟨s, hs, hcenter⟩ := h.exists_star_iff.2 ⟨e, he, htouches⟩
        have := List.find?_eq_none.1 hfind s hs
        simp [hcenter] at this
      have harrivals : g.arrivals v = [] := List.eq_nil_iff_forall_not_mem.2 fun e he =>
        hnone e (mem_arrivals.1 he).1 (.inr (mem_arrivals.1 he).2.1)
      have hdepartures : g.departures v = [] := List.eq_nil_iff_forall_not_mem.2 fun e he =>
        hnone e (mem_departures.1 he).1 (.inl (mem_departures.1 he).2.1)
      rw [harrivals, hdepartures]
      exact ⟨.refl _, .refl _⟩

/-- The turns at a vertex are those of its own matching. -/
theorem InOrder.next?_iff_of_mem_arrivals {e : Nat} (he : e ∈ g.arrivals v) {f : Nat} :
    (g.routeBy arrange inIds).value.next? e = some f ↔
      (e, f) ∈ (Matching.ofSpokes (g.spokesAt arrange inIds v)).turns := by
  obtain ⟨s, hs, hcenter⟩ : ∃ s ∈ routingStars g.edges inIds, s.center = v :=
    h.exists_star_iff.2 ⟨e, (mem_arrivals.1 he).1, .inr (mem_arrivals.1 he).2.1⟩
  have hfind : (routingStars g.edges inIds).find? (·.center == v) = some s := by
    cases hfind : (routingStars g.edges inIds).find? (·.center == v) with
    | none =>
        have := List.find?_eq_none.1 hfind s hs
        simp [hcenter] at this
    | some t =>
        have hcenter' : t.center = v := by simpa using List.find?_some hfind
        rw [h.star_eq (List.mem_of_find?_eq_some hfind) hs (hcenter'.trans hcenter.symm)]
  rw [spokesAt, hfind, h.next?_routeBy harrange]
  constructor
  · rintro ⟨t, ht, hef⟩
    have hcenter' : t.center = v :=
      (mem_arrivals.1 (h.mem_of_mem_turns harrange ht hef).1).2.1.symm.trans (mem_arrivals.1 he).2.1
    obtain rfl := h.star_eq ht hs (hcenter'.trans hcenter.symm)
    exact hef
  · intro hef
    exact ⟨s, hs, hef⟩

theorem InOrder.matchesBrackets : g.MatchesBrackets (g.routeBy arrange inIds).value v
    (g.spokesAt arrange inIds v) := by
  obtain ⟨hin, hout⟩ := h.spokesAt_perm harrange v
  have hinNodup : (Spoke.incomingIds (g.spokesAt arrange inIds v)).Nodup :=
    hin.nodup_iff.2 (g.nodup_edgeIds.filter _)
  have hnodup : (g.spokesAt arrange inIds v).Nodup :=
    Spoke.nodup_of_ids hinNodup (hout.nodup_iff.2 (g.nodup_edgeIds.filter _))
  have hmatched : ∀ s ∈ g.spokesAt arrange inIds v, s.incoming = true → ∀ f,
      (g.routeBy arrange inIds).value.next? s.edge = some f ↔
        ∃ between answer, IsArc (g.spokesAt arrange inIds v) s between answer ∧ answer.edge = f := by
    intro s hs hincoming f
    have he : s.edge ∈ g.arrivals v :=
      hin.mem_iff.1 (Spoke.mem_incomingIds.2 ⟨s, hs, hincoming, rfl⟩)
    rw [h.next?_iff_of_mem_arrivals harrange v he]
    exact Matching.mem_turns_iff_isArc hinNodup hnodup hs hincoming
  refine ⟨hin, hout, hmatched, fun spokes hspokes e he f => ?_,
    fun _ _ _ _ _ _ => IsArc.nested_or_disjoint hnodup⟩
  obtain ⟨s, hs, hincoming, rfl⟩ := Spoke.mem_incomingIds.1 (hin.mem_iff.2 he)
  have hinNodup' := (Spoke.incomingIds_perm hspokes.perm).nodup_iff.2 hinNodup
  rw [hmatched s hs hincoming, Matching.mem_turns_iff_isArc hinNodup' (hspokes.nodup_iff.2 hnodup)
    (hspokes.mem_iff.2 hs) hincoming]
  constructor
  · rintro ⟨between, answer, harc, hf⟩
    exact ⟨between, answer, harc.isRotated hspokes, hf⟩
  · rintro ⟨between, answer, harc, hf⟩
    exact ⟨between, answer, harc.isRotated hspokes.symm, hf⟩

end InOrder

/-- Routing matches the edges at every vertex like brackets on a circle, in whatever order they stand on
it. -/
theorem routeLeft_matchesBrackets (sort : ComparisonSort Spoke) (g : Graph) (w : Workspace)
    {ids : List Int} (hids : ids = g.inEdgeIds.map Int.ofNat ∨ g.siblingMap = .ok ids) :
    ∃ inIds : List Nat, ids = inIds.map Int.ofNat ∧
      (∀ arrange, g.Arranges inIds arrange → ∀ v,
        g.MatchesBrackets (g.routeBy arrange inIds).value v (g.spokesAt arrange inIds v)) ∧
      (g.GivesUp (w.routeLeft g (some ids) sort) ∨ ∃ arrange, g.Arranges inIds arrange ∧
        (∀ s ∈ routingStars g.edges inIds, s.spokes sort g.compass = .ok (arrange s)) ∧
        w.routeLeft g (some ids) sort = .ok ({ w with turns := (g.routeBy arrange inIds).value },
          (g.routeBy arrange inIds).error?)) := by
  obtain ⟨inIds, rfl, h⟩ : ∃ inIds : List Nat, ids = inIds.map Int.ofNat ∧ g.InOrder inIds := by
    rcases hids with rfl | hids
    · exact ⟨g.inEdgeIds, rfl, g.inOrder_inEdgeIds⟩
    · exact g.exists_siblingMap hids
  exact ⟨inIds, rfl, fun arrange => h.matchesBrackets, h.routeLeft_cases sort w⟩

/-- Around the first vertex an edge leaves, two enter, one leaves and one enters. -/
def unevenStar : Graph where
  options := {}
  vertices := #[default, default, default, default, default, default]
  edges := #[⟨0, 1⟩, ⟨0, 4⟩, ⟨2, 0⟩, ⟨3, 0⟩, ⟨5, 0⟩]
  inputHandles := #[0, 1, 2, 3, 4]
  inputSets := .empty
  labelHandles := #[]
  labelSets := .empty
  valid := rfl

theorem routeLeft_matchesBrackets_unevenStar :
    ∃ inIds : List Nat, [2, 3, 4, 0, 1] = inIds.map Int.ofNat ∧
      (∀ arrange, unevenStar.Arranges inIds arrange → ∀ v, unevenStar.MatchesBrackets
        (unevenStar.routeBy arrange inIds).value v (unevenStar.spokesAt arrange inIds v)) ∧
      ∃ arrange, unevenStar.Arranges inIds arrange ∧
        (∀ s ∈ routingStars unevenStar.edges inIds,
          s.spokes .standard unevenStar.compass = .ok (arrange s)) ∧
        Workspace.routeLeft {} unevenStar (some [2, 3, 4, 0, 1]) =
          .ok ({ turns := (unevenStar.routeBy arrange inIds).value },
            (unevenStar.routeBy arrange inIds).error?) := by
  have hclockwise : unevenStar.OrdersClockwise := by decide +kernel
  obtain ⟨inIds, hids, hmatches, hstep⟩ :=
    @routeLeft_matchesBrackets .standard unevenStar {} [2, 3, 4, 0, 1] (.inl (by cbv))
  exact ⟨inIds, hids, hmatches, hstep.resolve_left fun hgives => hgives.2 hclockwise⟩

end Graph

end SnapGraph
