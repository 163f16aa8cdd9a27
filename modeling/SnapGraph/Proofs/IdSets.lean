import Mathlib
import SnapGraph.Cleaning

/-! Lexicons of sets as their operations build them. A stored set has two or more members, ascending
and not negative, so its members can always be interned again; and a handle keeps its meaning while
sets are added. Uniting sets that the lexicon knows therefore never fails. -/

namespace SnapGraph.IdSets

/-- The lexicons that arise from the empty one by adding sets. -/
inductive Built : IdSets → Prop
  | empty : Built .empty
  | add {s s' : IdSets} {ids : List Int} {handle : Int} :
      Built s → s.add ids = .ok (handle, s') → Built s'

/-- What holds of every stored set. -/
structure StoredSet (ids : List Int) : Prop where
  two_le : 2 ≤ ids.length
  ascends : ids.Pairwise (· < ·)
  nonneg : ∀ id ∈ ids, 0 ≤ id

/-- A lexicon that stores only large ascending sets of natural numbers. -/
structure WellFormed (s : IdSets) : Prop where
  stored : ∀ i ids, s.large.get? i = some ids → StoredSet ids

/-- Every handle of the first lexicon names the same set in the second, which stores no fewer
sets. -/
structure Extends (s s' : IdSets) : Prop where
  find : ∀ handle set, s.find handle = .ok set → s'.find handle = .ok set
  size_le : s.large.size ≤ s'.large.size

theorem Extends.refl (s : IdSets) : Extends s s where
  find _ _ h := h
  size_le := Nat.le_refl _

theorem Extends.trans {s₁ s₂ s₃ : IdSets} (h : Extends s₁ s₂) (h' : Extends s₂ s₃) :
    Extends s₁ s₃ where
  find handle set hs := h'.find handle set (h.find handle set hs)
  size_le := h.size_le.trans h'.size_le

theorem Extends.knows {s s' : IdSets} (h : Extends s s') {handle : Int} (hk : s.Knows handle) :
    s'.Knows handle := by
  obtain ⟨set, hset⟩ := hk
  exact ⟨set, h.find handle set hset⟩

/-- Handles are 32-bit integers, and a set at place `2 ^ 31 - 1` would get that of the empty set. With
fewer sets each has a handle of its own. -/
structure Fits (s : IdSets) : Prop where
  size_lt : s.large.size < 2 ^ 31

theorem Extends.fits {s s' : IdSets} (h : Extends s s') (hfits : s'.Fits) : s.Fits :=
  ⟨h.size_le.trans_lt hfits.size_lt⟩

/-! ### Adding a set -/

/-- The three ways of interning a set, by its size. -/
theorem add_cases {s s' : IdSets} {ids : List Int} {handle : Int}
    (h : s.add ids = .ok (handle, s')) :
    (ascending ids = [] ∧ handle = emptyId ∧ s' = s) ∨
    (∃ id, ascending ids = [id] ∧ 0 ≤ id ∧ handle = id ∧ s' = s) ∨
    (StoredSet (ascending ids) ∧ handle = largeId (s.large.add (ascending ids)).1 ∧
      s' = ⟨(s.large.add (ascending ids)).2⟩) := by
  have hsorted := pairwise_ascending ids
  unfold add at h
  split at h
  · rename_i hids
    cases h
    exact .inl ⟨hids, rfl, rfl⟩
  · rename_i id hids
    unfold singletonId at h
    split at h
    · rename_i hid
      cases h
      exact .inr (.inl ⟨_, hids, hid, rfl, rfl⟩)
    · cases h
  · rename_i least rest hrest hids
    rw [hids] at hsorted ⊢
    split at h
    · rename_i hleast
      cases h
      refine .inr (.inr ⟨⟨?_, hsorted, fun id hid => ?_⟩, rfl, rfl⟩)
      · have := List.length_pos_iff.2 (fun hnil => hrest (hnil ▸ rfl))
        simp only [List.length_cons]
        omega
      · rcases List.mem_cons.1 hid with rfl | hid
        · exact hleast
        · have := List.rel_of_pairwise_cons hsorted hid
          omega
    · cases h

theorem exists_add {ids : List Int} (hids : ∀ id ∈ ids, 0 ≤ id) (s : IdSets) :
    ∃ handle s', s.add ids = .ok (handle, s') := by
  have hids : ∀ id ∈ ascending ids, 0 ≤ id := fun id hid => hids id (mem_ascending.1 hid)
  unfold add
  split
  · exact ⟨_, _, rfl⟩
  · rename_i id h
    rw [h] at hids
    rw [singletonId, if_pos (hids id List.mem_cons_self)]
    exact ⟨_, _, rfl⟩
  · rename_i least rest _ h
    rw [h] at hids
    rw [if_pos (hids least List.mem_cons_self)]
    exact ⟨_, _, rfl⟩

/-- The values of a lexicon after interning one more are the old ones and that one. -/
theorem get?_add_eq {α : Type} [BEq α] [LawfulBEq α] [Hashable α] {l : Lexicon α} {a b : α} {i : Nat}
    (h : (l.add a).2.get? i = some b) : l.get? i = some b ∨ b = a := by
  unfold Lexicon.add at h
  split at h
  · exact .inl h
  · simp only [Lexicon.get?, Lexicon.push, Array.getElem?_push] at h
    split at h
    · exact .inr (Option.some.inj h).symm
    · exact .inl h

theorem size_le_size_add {α : Type} [BEq α] [LawfulBEq α] [Hashable α] (l : Lexicon α) (a : α) :
    l.size ≤ (l.add a).2.size := by
  unfold Lexicon.add
  split
  · exact Nat.le_refl _
  · simp [Lexicon.size, Lexicon.push]

theorem size_add_le_succ {α : Type} [BEq α] [LawfulBEq α] [Hashable α] (l : Lexicon α) (a : α) :
    (l.add a).2.size ≤ l.size + 1 := by
  unfold Lexicon.add
  split
  · exact Nat.le_succ _
  · simp [Lexicon.size, Lexicon.push]

theorem size_add_le {s s' : IdSets} {ids : List Int} {handle : Int}
    (h : s.add ids = .ok (handle, s')) : s'.large.size ≤ s.large.size + 1 := by
  obtain ⟨-, -, rfl⟩ | ⟨-, -, -, -, rfl⟩ | ⟨-, -, rfl⟩ := add_cases h
  · exact Nat.le_succ _
  · exact Nat.le_succ _
  · exact size_add_le_succ _ _

theorem WellFormed.add {s s' : IdSets} {ids : List Int} {handle : Int} (hs : WellFormed s)
    (h : s.add ids = .ok (handle, s')) : WellFormed s' := by
  obtain ⟨-, -, rfl⟩ | ⟨-, -, -, -, rfl⟩ | ⟨hids, -, rfl⟩ := add_cases h
  · exact hs
  · exact hs
  · refine ⟨fun i stored hi => ?_⟩
    rcases get?_add_eq hi with hi | rfl
    · exact hs.stored i stored hi
    · exact hids

theorem Built.wellFormed {s : IdSets} (hs : Built s) : WellFormed s := by
  induction hs with
  | empty =>
      refine ⟨fun i ids h => ?_⟩
      simp [IdSets.empty, Lexicon.empty, Lexicon.get?] at h
  | add _ h ih => exact ih.add h

/-- The handles below zero, but for that of the empty set, name stored sets. -/
theorem find_eq_ok_iff_of_neg {s : IdSets} {handle : Int} {set : IdSet} (hneg : ¬0 ≤ handle)
    (hne : handle ≠ emptyId) :
    s.find handle = .ok set ↔
      ∃ ids, s.large.get? (-1 - handle).toNat = some ids ∧ IdSet.many ids = set := by
  rw [find, if_neg hneg, if_neg hne]
  cases s.large.get? (-1 - handle).toNat with
  | none => simp
  | some ids => simp

/-- A handle keeps its meaning while sets are added. -/
theorem extends_add {s s' : IdSets} {ids : List Int} {handle : Int}
    (h : s.add ids = .ok (handle, s')) : Extends s s' := by
  obtain ⟨-, -, rfl⟩ | ⟨-, -, -, -, rfl⟩ | ⟨-, -, rfl⟩ := add_cases h
  · exact Extends.refl _
  · exact Extends.refl _
  · refine ⟨fun handle set hset => ?_, size_le_size_add _ _⟩
    by_cases hpos : 0 ≤ handle
    · simpa [find, hpos] using hset
    · by_cases hne : handle = emptyId
      · simpa [find, hne, emptyId] using hset
      · rw [find_eq_ok_iff_of_neg hpos hne] at hset ⊢
        obtain ⟨stored, hstored, rfl⟩ := hset
        exact ⟨stored, Lexicon.get?_add_of_get? hstored _, rfl⟩

/-! ### Uniting sets -/

theorem WellFormed.nonneg_of_find {s : IdSets} (hs : WellFormed s) {handle : Int} {set : IdSet}
    (h : s.find handle = .ok set) : ∀ id ∈ set.toList, 0 ≤ id := by
  intro id hid
  by_cases hpos : 0 ≤ handle
  · rw [find, if_pos hpos] at h
    cases h
    simpa [IdSet.toList] using (List.mem_singleton.1 hid) ▸ hpos
  · by_cases hne : handle = emptyId
    · rw [find, if_neg hpos, if_pos hne] at h
      cases h
      simp [IdSet.toList] at hid
    · obtain ⟨ids, hids, rfl⟩ := (find_eq_ok_iff_of_neg hpos hne).1 h
      exact (hs.stored _ _ hids).nonneg id hid

theorem WellFormed.exists_members {s : IdSets} (hs : WellFormed s) {handles : List Int}
    (hk : ∀ handle ∈ handles, s.Knows handle) :
    ∃ ids, s.members handles = .ok ids ∧ ∀ id ∈ ids, 0 ≤ id := by
  induction handles with
  | nil => exact ⟨[], rfl, by simp⟩
  | cons handle handles ih =>
      obtain ⟨set, hset⟩ := hk handle List.mem_cons_self
      obtain ⟨ids, hids, hnonneg⟩ := ih fun h hh => hk h (List.mem_cons_of_mem _ hh)
      refine ⟨set.toList ++ ids, by rw [members, hset, hids]; rfl, fun id hid => ?_⟩
      rcases List.mem_append.1 hid with hid | hid
      · exact hs.nonneg_of_find hset id hid
      · exact hnonneg id hid

theorem largeId_neg (i : Nat) : ¬0 ≤ largeId i := by
  unfold largeId
  omega

theorem toNat_largeId (i : Nat) : (-1 - largeId i).toNat = i := by
  unfold largeId
  omega

theorem largeId_ne_emptyId {i : Nat} (h : i + 1 < 2 ^ 31) : largeId i ≠ emptyId := by
  unfold largeId emptyId
  omega

/-- A stored set is found by its handle, if that is not the handle of the empty set. -/
theorem find_largeId {s : IdSets} {i : Nat} {ids : List Int} (h : s.large.get? i = some ids)
    (hne : largeId i ≠ emptyId) : s.find (largeId i) = .ok (.many ids) := by
  rw [find_eq_ok_iff_of_neg (largeId_neg i) hne, toNat_largeId]
  exact ⟨ids, h, rfl⟩

/-- The handle that is given out names a set. -/
theorem knows_add {s s' : IdSets} {ids : List Int} {handle : Int}
    (h : s.add ids = .ok (handle, s')) : s'.Knows handle := by
  obtain ⟨-, rfl, rfl⟩ | ⟨id, -, hid, rfl, rfl⟩ | ⟨-, rfl, rfl⟩ := add_cases h
  · exact ⟨.empty, rfl⟩
  · exact ⟨.single handle, if_pos hid⟩
  · have hstored := Lexicon.get?_add_self s.large (ascending ids)
    by_cases hempty : largeId (s.large.add (ascending ids)).1 = emptyId
    · exact ⟨.empty, by rw [find, if_neg (largeId_neg _), if_pos hempty]⟩
    · exact ⟨_, find_largeId hstored hempty⟩

/-- The handle that is given out names the set of the given ids. -/
theorem exists_find_add {s s' : IdSets} {ids : List Int} {handle : Int}
    (h : s.add ids = .ok (handle, s')) (hfits : s'.Fits) :
    ∃ set, s'.find handle = .ok set ∧ set.toList = ascending ids := by
  obtain ⟨hids, rfl, rfl⟩ | ⟨id, hids, hid, rfl, rfl⟩ | ⟨-, rfl, rfl⟩ := add_cases h
  · exact ⟨.empty, rfl, hids.symm⟩
  · exact ⟨.single handle, if_pos hid, hids.symm⟩
  · have hstored := Lexicon.get?_add_self s.large (ascending ids)
    have hlt : (s.large.add (ascending ids)).1 < (s.large.add (ascending ids)).2.size := by
      apply Nat.lt_of_not_le
      intro hle
      rw [Lexicon.get?_eq_none_iff.2 hle] at hstored
      cases hstored
    exact ⟨_, find_largeId hstored (largeId_ne_emptyId (Nat.lt_of_le_of_lt hlt hfits.size_lt)), rfl⟩

theorem unite_nil (s : IdSets) : s.unite [] = .ok (emptyId, s) := by
  have hnil : ascending [] = [] := by simp [ascending, squeeze]
  show s.add [] = _
  rw [add, hnil]

/-- Sets that a lexicon knows can be united, and nothing is forgotten. -/
theorem WellFormed.exists_unite {s : IdSets} (hs : WellFormed s) {handles : List Int}
    (hk : ∀ handle ∈ handles, s.Knows handle) :
    ∃ handle s', s.unite handles = .ok (handle, s') ∧ WellFormed s' ∧ Extends s s' ∧
      s'.Knows handle := by
  obtain ⟨ids, hids, hnonneg⟩ := hs.exists_members hk
  obtain ⟨handle, s', hadd⟩ := exists_add hnonneg s
  unfold unite
  split
  · exact ⟨_, s, rfl, hs, Extends.refl s, hk _ List.mem_cons_self⟩
  · rw [hids]
    exact ⟨handle, s', hadd, hs.add hadd, extends_add hadd, knows_add hadd⟩

/-- Uniting sets stores at most one more, and that only if there are two to unite. -/
theorem size_unite_le {s s' : IdSets} {handles : List Int} {handle : Int}
    (h : s.unite handles = .ok (handle, s')) :
    2 * s'.large.size ≤ 2 * s.large.size + handles.length := by
  match handles, h with
  | [], h =>
      rw [unite_nil] at h
      cases h
      exact Nat.le_refl _
  | [single], h =>
      cases h
      exact Nat.le_succ _
  | first :: second :: rest, h =>
      obtain ⟨ids, -, h⟩ := bind_eq_ok_iff.1 h
      have hadd := size_add_le h
      simp only [List.length_cons]
      omega

/-- In the second lexicon the handle names the union of the sets that the others name in the
first. -/
def Unites (s : IdSets) (handles : List Int) (s' : IdSets) (handle : Int) : Prop :=
  ∃ set, s'.find handle = .ok set ∧
    ∀ id, id ∈ set.toList ↔ ∃ h ∈ handles, ∃ part, s.find h = .ok part ∧ id ∈ part.toList

theorem mem_members {s : IdSets} {handles ids : List Int} (h : s.members handles = .ok ids) (id : Int) :
    id ∈ ids ↔ ∃ h ∈ handles, ∃ part, s.find h = .ok part ∧ id ∈ part.toList := by
  induction handles generalizing ids with
  | nil =>
      cases h
      simp
  | cons handle handles ih =>
      obtain ⟨set, hset, h⟩ := bind_eq_ok_iff.1 h
      obtain ⟨rest, hrest, h⟩ := bind_eq_ok_iff.1 h
      cases h
      rw [List.mem_append, ih hrest, List.exists_mem_cons_iff, hset]
      simp

theorem unites_singleton {s : IdSets} {handle : Int} (hk : s.Knows handle) :
    s.Unites [handle] s handle := by
  obtain ⟨set, hset⟩ := hk
  refine ⟨set, hset, fun id => ?_⟩
  simp [hset]

theorem unites_of_unite {s s' : IdSets} {handles : List Int} {handle : Int}
    (hk : ∀ handle ∈ handles, s.Knows handle) (hfits : s'.Fits)
    (h : s.unite handles = .ok (handle, s')) : s.Unites handles s' handle := by
  unfold unite at h
  split at h
  · cases h
    exact unites_singleton (hk _ List.mem_cons_self)
  · obtain ⟨ids, hids, h⟩ := bind_eq_ok_iff.1 h
    obtain ⟨set, hset, hlist⟩ := exists_find_add h hfits
    refine ⟨set, hset, fun id => ?_⟩
    rw [hlist, mem_ascending, mem_members hids]

/-- Earlier lexicons know the parts, and later ones the union. -/
theorem Unites.extend {s s₁ s₂ s' : IdSets} {handles : List Int} {handle : Int}
    (hk : ∀ handle ∈ handles, s.Knows handle) (h : s.Extends s₁) (h' : s₂.Extends s')
    (hunites : s₁.Unites handles s₂ handle) : s.Unites handles s' handle := by
  obtain ⟨set, hset, hmem⟩ := hunites
  refine ⟨set, h'.find handle set hset, fun id => (hmem id).trans ?_⟩
  have hparts : ∀ a ∈ handles, s₁.find a = s.find a := by
    intro a ha
    obtain ⟨part, hpart⟩ := hk a ha
    rw [hpart, h.find a part hpart]
  constructor
  · rintro ⟨a, ha, part, hpart, hid⟩
    exact ⟨a, ha, part, hparts a ha ▸ hpart, hid⟩
  · rintro ⟨a, ha, part, hpart, hid⟩
    exact ⟨a, ha, part, (hparts a ha).trans hpart, hid⟩

/-! ### Adding several sets -/

theorem exists_addAll {lists : List (List Int)} (h : ∀ ids ∈ lists, ∀ id ∈ ids, 0 ≤ id) (s : IdSets) :
    ∃ handles s', s.addAll lists = .ok (handles, s') := by
  induction lists generalizing s with
  | nil => exact ⟨[], s, rfl⟩
  | cons ids lists ih =>
      obtain ⟨hids, hlists⟩ := List.forall_mem_cons.1 h
      obtain ⟨handle, mid, hadd⟩ := exists_add hids s
      obtain ⟨handles, s', haddAll⟩ := ih hlists mid
      refine ⟨handle :: handles, s', ?_⟩
      rw [addAll, hadd]
      show (mid.addAll lists >>= _) = _
      rw [haddAll]
      rfl

theorem addAll_cons_cases {s s' : IdSets} {ids : List Int} {lists : List (List Int)}
    {handles : List Int} (h : s.addAll (ids :: lists) = .ok (handles, s')) :
    ∃ handle mid rest, s.add ids = .ok (handle, mid) ∧ mid.addAll lists = .ok (rest, s') ∧
      handles = handle :: rest := by
  obtain ⟨⟨handle, mid⟩, hadd, h⟩ := bind_eq_ok_iff.1 h
  obtain ⟨⟨rest, last⟩, hrest, h⟩ := bind_eq_ok_iff.1 h
  cases h
  exact ⟨handle, mid, rest, hadd, hrest, rfl⟩

theorem extends_addAll {s s' : IdSets} {lists : List (List Int)} {handles : List Int}
    (h : s.addAll lists = .ok (handles, s')) : Extends s s' := by
  induction lists generalizing s handles with
  | nil =>
      cases h
      exact .refl _
  | cons ids lists ih =>
      obtain ⟨handle, mid, rest, hadd, hrest, -⟩ := addAll_cons_cases h
      exact (extends_add hadd).trans (ih hrest)

theorem size_addAll_le {s s' : IdSets} {lists : List (List Int)} {handles : List Int}
    (h : s.addAll lists = .ok (handles, s')) : s'.large.size ≤ s.large.size + lists.length := by
  induction lists generalizing s handles with
  | nil =>
      cases h
      exact Nat.le_refl _
  | cons ids lists ih =>
      obtain ⟨handle, mid, rest, hadd, hrest, -⟩ := addAll_cons_cases h
      have hmid := size_add_le hadd
      have hlast := ih hrest
      rw [List.length_cons]
      omega

/-- The handle in each place names the set of the ids in that place. -/
theorem exists_find_of_addAll {s s' : IdSets} {lists : List (List Int)} {handles : List Int}
    (h : s.addAll lists = .ok (handles, s')) (hfits : s'.Fits) {i : Nat} {ids : List Int}
    (hi : lists[i]? = some ids) :
    ∃ handle set, handles[i]? = some handle ∧ s'.find handle = .ok set ∧
      set.toList = ascending ids := by
  induction lists generalizing s handles i with
  | nil => cases hi
  | cons first lists ih =>
      obtain ⟨handle, mid, rest, hadd, hrest, rfl⟩ := addAll_cons_cases h
      have hext := extends_addAll hrest
      cases i with
      | zero =>
          obtain rfl : first = ids := Option.some.inj hi
          obtain ⟨set, hset, hlist⟩ := exists_find_add hadd (hext.fits hfits)
          exact ⟨handle, set, rfl, hext.find handle set hset, hlist⟩
      | succ i => exact ih hrest hi

/-! ### Interning again -/

/-- A strictly ascending list is what any list of its members is brought into. -/
theorem ascending_eq_of_mem_iff {l ids : List Int} (hids : ids.Pairwise (· < ·))
    (h : ∀ id, id ∈ l ↔ id ∈ ids) : ascending l = ids :=
  (pairwise_ascending l).eq_of_mem_iff hids fun id => mem_ascending.trans (h id)

/-- Interning the members of a set gives back its handle. -/
theorem WellFormed.add_of_find {s : IdSets} (hs : WellFormed s) {handle : Int} {set : IdSet}
    (h : s.find handle = .ok set) {ids : List Int} (hids : ∀ id, id ∈ ids ↔ id ∈ set.toList) :
    s.add ids = .ok (handle, s) := by
  unfold IdSets.add
  by_cases hpos : 0 ≤ handle
  · rw [find, if_pos hpos] at h
    cases h
    have hsingle : ascending ids = [handle] :=
      ascending_eq_of_mem_iff (List.pairwise_singleton _ _) hids
    rw [hsingle]
    simp only [singletonId, if_pos hpos]
    rfl
  · by_cases hne : handle = emptyId
    · rw [find, if_neg hpos, if_pos hne] at h
      cases h
      have hnil : ascending ids = [] := ascending_eq_of_mem_iff List.Pairwise.nil hids
      rw [hnil, hne]
    · obtain ⟨stored, hstored, rfl⟩ := (find_eq_ok_iff_of_neg hpos hne).1 h
      obtain ⟨hlen, hascends, hnonneg⟩ := hs.stored _ _ hstored
      have hmany : ascending ids = stored := ascending_eq_of_mem_iff hascends hids
      have hplace : largeId (-1 - handle).toNat = handle := by
        unfold largeId
        omega
      rw [hmany]
      match stored, hlen with
      | least :: second :: rest, _ =>
          have hleast : 0 ≤ least := hnonneg least List.mem_cons_self
          simp only [if_pos hleast, Lexicon.add_of_get? hstored, hplace]

theorem members_replicate {s : IdSets} {handle : Int} {set : IdSet} (h : s.find handle = .ok set)
    (n : Nat) : s.members (List.replicate n handle) = .ok (List.replicate n set.toList).flatten := by
  induction n with
  | zero => rfl
  | succ n ih =>
      rw [List.replicate_succ, List.replicate_succ, members, h, ih]
      rfl

/-- Uniting a set with itself gives back its handle. -/
theorem WellFormed.unite_replicate {s : IdSets} (hs : WellFormed s) {handle : Int}
    (hk : s.Knows handle) (n : Nat) :
    s.unite (List.replicate (n + 1) handle) = .ok (handle, s) := by
  obtain ⟨set, hset⟩ := hk
  unfold unite
  split
  · rename_i single heq
    have hmem : single ∈ List.replicate (n + 1) handle := heq ▸ List.mem_cons_self
    rw [List.eq_of_mem_replicate hmem]
  · rw [members_replicate hset]
    apply hs.add_of_find hset
    simp

end SnapGraph.IdSets
