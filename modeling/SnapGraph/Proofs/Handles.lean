import Mathlib
import SnapGraph.Proofs.IdSets
import SnapGraph.Proofs.Search

/-! What the handles of sets mean while a lexicon is in use. A handle names the set it was given out
for until the lexicon is cleared, and the handles of the empty set and of singletons, which need no
storage, name theirs in every lexicon. As interning the members of a known set gives back its handle,
two handles from between the same clearings agree exactly if their sets do. -/

namespace SnapGraph

namespace IdSet

/-- The set has the given ids as members, and all ways of reading it agree: they see its members
once each, in ascending order. -/
structure IsSetOf (set : IdSet) (ids : List Int) : Prop where
  mem : ∀ id, id ∈ set.toList ↔ id ∈ ids
  ascends : set.toList.Pairwise (· < ·)
  size : set.size = set.toList.length
  isEmpty : set.isEmpty = true ↔ set.toList = []
  first : set.first? = set.toList.head?
  contains : ∀ id, set.contains id = true ↔ id ∈ set.toList

theorem contains_iff {set : IdSet} (hset : set.toList.Pairwise (· < ·)) (id : Int) :
    set.contains id = true ↔ id ∈ set.toList := by
  cases set with
  | empty => simp [contains, toList]
  | single member =>
      simp only [contains, toList, List.mem_singleton, beq_iff_eq]
      exact eq_comm
  | many ids =>
      have hids : ids.toArray.toList.Pairwise (· < ·) := hset
      have hfound := getElem?_partitionPoint hids id
      simpa only [contains, toList, beq_iff_eq, List.mem_toArray] using hfound

theorem isSetOf {set : IdSet} {ids : List Int} (h : set.toList = ascending ids) :
    set.IsSetOf ids := by
  have hascends : set.toList.Pairwise (· < ·) := h ▸ pairwise_ascending ids
  exact
    { mem := fun id => h ▸ mem_ascending
      ascends := hascends
      size := set.length_toList.symm
      isEmpty := by rw [isEmpty, beq_iff_eq, ← length_toList, List.length_eq_zero_iff]
      first := set.head?_toList.symm
      contains := contains_iff hascends }

/-- A set is determined by its members. -/
theorem IsSetOf.mem_iff {set : IdSet} {ids ids' : List Int} (h : set.IsSetOf ids)
    (h' : set.IsSetOf ids') (id : Int) : id ∈ ids ↔ id ∈ ids' :=
  (h.mem id).symm.trans (h'.mem id)

end IdSet

namespace IdSets

/-! ### Runs -/

/-- What can be asked of a lexicon that changes it. -/
inductive Call
  | add (ids : List Int)
  | clear

/-- The ids that a call hands over. -/
def Call.ids : Call → List Int
  | .add ids => ids
  | .clear => []

/-- The lexicon after a call. -/
def call (s : IdSets) : Call → Except Fault IdSets
  | .add ids => (s.add ids).map (·.2)
  | .clear => .ok s.clear

/-- The lexicon after some calls. -/
def run (s : IdSets) : List Call → Except Fault IdSets
  | [] => .ok s
  | c :: calls => do (← s.call c).run calls

theorem call_add_eq_ok_iff {s s' : IdSets} {ids : List Int} :
    s.call (.add ids) = .ok s' ↔ ∃ handle, s.add ids = .ok (handle, s') := by
  rw [call]
  cases s.add ids with
  | error fault => simp [Except.map]
  | ok result => simp [Except.map, Prod.ext_iff]

theorem run_cons_eq_ok_iff {s s' : IdSets} {c : Call} {calls : List Call} :
    s.run (c :: calls) = .ok s' ↔ ∃ mid, s.call c = .ok mid ∧ mid.run calls = .ok s' :=
  bind_eq_ok_iff

theorem run_append_eq_ok_iff {s s' : IdSets} {calls calls' : List Call} :
    s.run (calls ++ calls') = .ok s' ↔ ∃ mid, s.run calls = .ok mid ∧ mid.run calls' = .ok s' := by
  induction calls generalizing s with
  | nil => simp [run]
  | cons c calls ih =>
      rw [List.cons_append, run_cons_eq_ok_iff]
      simp only [ih, run_cons_eq_ok_iff]
      constructor
      · rintro ⟨first, hfirst, mid, hmid, hrest⟩
        exact ⟨mid, ⟨first, hfirst, hmid⟩, hrest⟩
      · rintro ⟨mid, ⟨first, hfirst, hmid⟩, hrest⟩
        exact ⟨first, hfirst, mid, hmid, hrest⟩

/-- All ids that are handed over are natural numbers. -/
def Nonnegative (calls : List Call) : Prop := ∀ c ∈ calls, ∀ id ∈ c.ids, 0 ≤ id

theorem exists_run {calls : List Call} (h : Nonnegative calls) (s : IdSets) :
    ∃ s', s.run calls = .ok s' := by
  induction calls generalizing s with
  | nil => exact ⟨s, rfl⟩
  | cons c calls ih =>
      obtain ⟨hc, hrest⟩ := List.forall_mem_cons.1 h
      have hcall : ∃ mid, s.call c = .ok mid := by
        cases c with
        | add ids =>
            obtain ⟨handle, mid, hadd⟩ := exists_add hc s
            exact ⟨mid, call_add_eq_ok_iff.2 ⟨handle, hadd⟩⟩
        | clear => exact ⟨_, rfl⟩
      obtain ⟨mid, hmid⟩ := hcall
      obtain ⟨s', hs'⟩ := ih hrest mid
      exact ⟨s', run_cons_eq_ok_iff.2 ⟨mid, hmid, hs'⟩⟩

theorem Built.run {s s' : IdSets} {calls : List Call} (hs : Built s) (h : s.run calls = .ok s') :
    Built s' := by
  induction calls generalizing s with
  | nil =>
      cases h
      exact hs
  | cons c calls ih =>
      obtain ⟨mid, hmid, hrest⟩ := run_cons_eq_ok_iff.1 h
      cases c with
      | add ids =>
          obtain ⟨handle, hadd⟩ := call_add_eq_ok_iff.1 hmid
          exact ih (hs.add hadd) hrest
      | clear =>
          cases hmid
          exact ih .empty hrest

/-- Every handle keeps its meaning up to the next clearing. -/
theorem extends_run {s s' : IdSets} {calls : List Call} (hclear : .clear ∉ calls)
    (h : s.run calls = .ok s') : Extends s s' := by
  induction calls generalizing s with
  | nil =>
      cases h
      exact .refl _
  | cons c calls ih =>
      obtain ⟨mid, hmid, hrest⟩ := run_cons_eq_ok_iff.1 h
      have hext := ih (fun hmem => hclear (List.mem_cons_of_mem _ hmem)) hrest
      cases c with
      | add ids =>
          obtain ⟨handle, hadd⟩ := call_add_eq_ok_iff.1 hmid
          exact (extends_add hadd).trans hext
      | clear => exact absurd List.mem_cons_self hclear

theorem size_run_le {s s' : IdSets} {calls : List Call} (h : s.run calls = .ok s') :
    s'.large.size ≤ s.large.size + calls.length := by
  induction calls generalizing s with
  | nil =>
      cases h
      exact Nat.le_refl _
  | cons c calls ih =>
      obtain ⟨mid, hmid, hrest⟩ := run_cons_eq_ok_iff.1 h
      have hlast := ih hrest
      have hfirst : mid.large.size ≤ s.large.size + 1 := by
        cases c with
        | add ids =>
            obtain ⟨handle, hadd⟩ := call_add_eq_ok_iff.1 hmid
            exact size_add_le hadd
        | clear =>
            cases hmid
            exact Nat.zero_le _
      rw [List.length_cons]
      omega

/-! ### Handles -/

/-- The handle stands for the set of the given ids. -/
def Names (s : IdSets) (handle : Int) (ids : List Int) : Prop :=
  ∃ set, s.find handle = .ok set ∧ set.IsSetOf ids

theorem Extends.names {s s' : IdSets} (h : Extends s s') {handle : Int} {ids : List Int}
    (hnames : s.Names handle ids) : s'.Names handle ids := by
  obtain ⟨set, hset, hids⟩ := hnames
  exact ⟨set, h.find handle set hset, hids⟩

theorem names_add {s s' : IdSets} {ids : List Int} {handle : Int}
    (h : s.add ids = .ok (handle, s')) (hfits : s'.Fits) : s'.Names handle ids := by
  obtain ⟨set, hset, hlist⟩ := exists_find_add h hfits
  exact ⟨set, hset, IdSet.isSetOf hlist⟩

/-- The handle of a set with at most one member stands for it in every lexicon. -/
theorem names_of_small {s s' : IdSets} {ids : List Int} {handle : Int}
    (h : s.add ids = .ok (handle, s')) (hsmall : ∀ a ∈ ids, ∀ b ∈ ids, a = b) (t : IdSets) :
    t.Names handle ids := by
  obtain ⟨hids, rfl, -⟩ | ⟨id, hids, hid, rfl, -⟩ | ⟨hstored, -, -⟩ := add_cases h
  · exact ⟨.empty, rfl, IdSet.isSetOf hids.symm⟩
  · exact ⟨.single handle, if_pos hid, IdSet.isSetOf hids.symm⟩
  · -- A stored set has a first and a second member, and the first is smaller.
    have hlen := hstored.two_le
    have hlt : (ascending ids)[0] < (ascending ids)[1] :=
      List.pairwise_iff_getElem.1 hstored.ascends 0 1 (by omega) hlen Nat.zero_lt_one
    have heq : (ascending ids)[0] = (ascending ids)[1] :=
      hsmall _ (mem_ascending.1 (List.getElem_mem _)) _ (mem_ascending.1 (List.getElem_mem _))
    omega

/-- Interning a set that has a handle already gives that handle, and no other set gets it. -/
theorem Built.handle_eq_iff {s s' : IdSets} (hs : Built s) {ids ids' : List Int} {handle handle' : Int}
    (hnames : s.Names handle ids) (h : s.add ids' = .ok (handle', s')) (hfits : s'.Fits) :
    handle = handle' ↔ ∀ id, id ∈ ids ↔ id ∈ ids' := by
  constructor
  · rintro rfl
    obtain ⟨set, hset, hids⟩ := (extends_add h).names hnames
    obtain ⟨set', hset', hids'⟩ := names_add h hfits
    cases hset.symm.trans hset'
    exact hids.mem_iff hids'
  · intro hsame
    obtain ⟨set, hset, hids⟩ := hnames
    have hagain : s.add ids' = .ok (handle, s) :=
      hs.wellFormed.add_of_find hset fun id => (hsame id).symm.trans (hids.mem id).symm
    cases hagain.symm.trans h
    rfl

/-- In a run from the empty lexicon the call after the given ones interns a set, and this is its
handle. -/
def Returns (before : List Call) (ids : List Int) (handle : Int) : Prop :=
  ∃ s s', run .empty before = .ok s ∧ s.add ids = .ok (handle, s')

/-- The handle that a call returned stands for its set after the calls that follow, if none of them
clears the lexicon or the set is small. -/
theorem Returns.exists_names {before between : List Call} {ids : List Int} {handle : Int}
    (h : Returns before ids handle) (hnonneg : Nonnegative between)
    (hfits : ∀ s, run .empty (before ++ [.add ids]) = .ok s → s.Fits)
    (hmeans : .clear ∉ between ∨ ∀ a ∈ ids, ∀ b ∈ ids, a = b) :
    ∃ s, run .empty (before ++ .add ids :: between) = .ok s ∧ s.Names handle ids := by
  obtain ⟨s, s', hs, hadd⟩ := h
  have hcall : s.call (.add ids) = .ok s' := call_add_eq_ok_iff.2 ⟨handle, hadd⟩
  obtain ⟨t, ht⟩ := exists_run hnonneg s'
  refine ⟨t, run_append_eq_ok_iff.2 ⟨s, hs, run_cons_eq_ok_iff.2 ⟨s', hcall, ht⟩⟩, ?_⟩
  rcases hmeans with hclear | hsmall
  · have hs' : s'.Fits :=
      hfits s' (run_append_eq_ok_iff.2 ⟨s, hs, run_cons_eq_ok_iff.2 ⟨s', hcall, rfl⟩⟩)
    exact (extends_run hclear ht).names (names_add hadd hs')
  · exact names_of_small hadd hsmall t

/-- What the handles given out in a run from the empty lexicon mean. -/
structure KeepsHandles (calls : List Call) : Prop where
  returns : ∀ (before : List Call) (ids : List Int) (after : List Call),
    calls = before ++ Call.add ids :: after → ∃ handle, Returns before ids handle
  named : ∀ (before : List Call) (ids : List Int) (between after : List Call) (handle : Int),
    calls = before ++ Call.add ids :: (between ++ after) → Returns before ids handle →
    Call.clear ∉ between ∨ (∀ a ∈ ids, ∀ b ∈ ids, a = b) →
    ∃ s, run .empty (before ++ Call.add ids :: between) = .ok s ∧ s.Names handle ids
  shared : ∀ (before : List Call) (ids : List Int) (between : List Call) (ids' : List Int)
    (after : List Call) (handle handle' : Int),
    calls = before ++ Call.add ids :: (between ++ Call.add ids' :: after) → Call.clear ∉ between →
    Returns before ids handle → Returns (before ++ Call.add ids :: between) ids' handle' →
    (handle = handle' ↔ ∀ id, id ∈ ids ↔ id ∈ ids')

/-- While a lexicon never stores too many sets, its handles keep their meaning until it is cleared,
those of the empty set and of singletons even then, and equal sets have equal handles. -/
theorem keepsHandles {calls : List Call} (hnonneg : Nonnegative calls)
    (hfits : ∀ before s, before <+: calls → run .empty before = .ok s → s.Fits) :
    KeepsHandles calls := by
  constructor
  case returns =>
    rintro before ids after rfl
    have hbefore : Nonnegative before := fun c hc => hnonneg c (by simp [hc])
    obtain ⟨s, hs⟩ := exists_run hbefore .empty
    obtain ⟨handle, s', hadd⟩ := exists_add (hnonneg (.add ids) (by simp)) s
    exact ⟨handle, s, s', hs, hadd⟩
  case named =>
    rintro before ids between after handle rfl hreturns hmeans
    refine hreturns.exists_names (fun c hc => hnonneg c (by simp [hc])) (fun s hs => ?_) hmeans
    exact hfits (before ++ [.add ids]) s ⟨between ++ after, by simp⟩ hs
  case shared =>
    rintro before ids between ids' after handle handle' rfl hclear hreturns ⟨s, s', hs, hadd⟩
    have hnames : s.Names handle ids := by
      obtain ⟨t, ht, hnames⟩ := hreturns.exists_names (fun c hc => hnonneg c (by simp [hc]))
        (fun t ht => hfits (before ++ [.add ids]) t ⟨between ++ .add ids' :: after, by simp⟩ ht)
        (.inl hclear)
      cases hs.symm.trans ht
      exact hnames
    have hfits' : s'.Fits := by
      refine hfits (before ++ .add ids :: (between ++ [.add ids'])) s' ⟨after, by simp⟩ ?_
      rw [← List.cons_append, ← List.append_assoc]
      exact run_append_eq_ok_iff.2
        ⟨s, hs, run_cons_eq_ok_iff.2 ⟨s', call_add_eq_ok_iff.2 ⟨handle', hadd⟩, rfl⟩⟩
    exact (Built.empty.run hs).handle_eq_iff hnames hadd hfits'

/-- Two large sets, each interned twice, with another set and a clearing in between. -/
def interning : List Call :=
  [.add [4, 9], .clear, .add [7, 3, 3, 5], .add [], .add [2, 1], .add [6, 6], .add [5, 7, 3], .clear,
    .add [1, 2]]

theorem keepsHandles_interning : KeepsHandles interning := by
  apply keepsHandles
  · unfold Nonnegative
    decide
  · intro before s hbefore hs
    constructor
    have hsize := size_run_le hs
    have hlen := hbefore.length_le
    change s.large.size ≤ 0 + before.length at hsize
    change before.length ≤ 9 at hlen
    omega

end IdSets

end SnapGraph
