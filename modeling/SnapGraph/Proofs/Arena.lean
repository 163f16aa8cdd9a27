import Mathlib
import SnapGraph.Arena
import SnapGraph.Lexicon

/-! What the ids of an arena mean while it is in use. Its buffer, its offsets and its buckets always
describe one list of different sequences, in which an id is a place. So ids are given out in order from
zero, every id names its sequence until the arena is cleared, and equal sequences have equal ids,
whatever the hash. -/

namespace SnapGraph

/-! ### Lists put end to end -/

section Flatten

variable {α : Type} {parts : List (List α)} {p : List α} {i : Nat}

theorem length_flatten_take_succ (h : parts[i]? = some p) :
    (parts.take (i + 1)).flatten.length = (parts.take i).flatten.length + p.length := by
  rw [List.take_add_one, h, List.flatten_append, List.length_append]
  simp only [Option.toList_some, List.flatten_singleton]

/-- A list is found again between its offset and the next one. -/
theorem extract_flatten (h : parts[i]? = some p) :
    parts.flatten.extract (parts.take i).flatten.length (parts.take (i + 1)).flatten.length = p := by
  obtain ⟨hi, rfl⟩ := List.getElem?_eq_some_iff.1 h
  have hsplit : parts.flatten =
      (parts.take i).flatten ++ (parts[i] ++ (parts.drop (i + 1)).flatten) := by
    rw [← List.flatten_cons, ← List.drop_eq_getElem_cons hi, ← List.flatten_append,
      List.take_append_drop]
  rw [length_flatten_take_succ h, List.extract_eq_take_drop, Nat.add_sub_cancel_left, hsplit,
    List.drop_left, List.take_left]

end Flatten

theorem getElem?_concat_eq_some_iff {α : Type} {l : List α} {a b : α} {i : Nat} :
    (l ++ [a])[i]? = some b ↔ l[i]? = some b ∨ i = l.length ∧ b = a := by
  rcases Nat.lt_trichotomy i l.length with hlt | rfl | hgt
  · rw [List.getElem?_append_left hlt]
    exact ⟨.inl, fun h => h.elim id fun h => absurd h.1 (Nat.ne_of_lt hlt)⟩
  · rw [List.getElem?_concat_length, List.getElem?_eq_none (Nat.le_refl _)]
    constructor
    · intro h
      exact .inr ⟨rfl, (Option.some.inj h).symm⟩
    · rintro (h | ⟨-, rfl⟩)
      · cases h
      · rfl
  · rw [List.getElem?_eq_none (by rw [List.length_append, List.length_singleton]; omega),
      List.getElem?_eq_none hgt.le]
    exact ⟨.inl, fun h => h.elim id fun h => absurd h.1 (Nat.ne_of_gt hgt)⟩

namespace Arena

/-! ### What an arena stores -/

/-- The arena stores the given sequences, and their places are their ids. -/
structure Stores (s : Arena) (seqs : List (List Int)) : Prop where
  values : s.values.toList = seqs.flatten
  size : s.begins.size = seqs.length + 1
  begins : ∀ i ≤ seqs.length, s.begins[i]? = some (seqs.take i).flatten.length
  buckets : ∀ h id, id ∈ s.bucket h ↔ ∃ seq, seqs[id]? = some seq ∧ s.hash seq = h
  nodup : seqs.Nodup

variable {s : Arena} {seqs : List (List Int)}

theorem stores_empty (hash : List Int → UInt64) : Stores (empty hash) [] where
  values := rfl
  size := rfl
  begins := by
    intro i hi
    cases Nat.le_zero.1 hi
    rfl
  buckets := by
    intro h id
    simp [bucket, empty]
  nodup := List.nodup_nil

theorem Stores.size_eq (h : Stores s seqs) : s.size = seqs.length := by
  rw [Arena.size, h.size, Nat.add_sub_cancel]

theorem Stores.sequence_of_getElem? (h : Stores s seqs) {id : Nat} {seq : List Int}
    (hseq : seqs[id]? = some seq) : s.sequence id = .ok seq := by
  have hid : id < seqs.length := (List.getElem?_eq_some_iff.1 hseq).1
  have hbounds := bounds_eq_ok (h.begins id hid.le) (h.begins (id + 1) hid)
  have hstop : (seqs.take (id + 1)).flatten.length ≤ s.values.size := by
    rw [← Array.length_toList, h.values]
    exact ((List.take_sublist _ _).flatten).length_le
  have hstart : (seqs.take id).flatten.length ≤ (seqs.take (id + 1)).flatten.length := by
    rw [length_flatten_take_succ hseq]
    exact Nat.le_add_right _ _
  rw [sequence, part_eq_ok hbounds hstart hstop]
  show Except.ok _ = _
  rw [Array.toList_extract, h.values, extract_flatten hseq]

theorem Stores.sequence_of_le (h : Stores s seqs) {id : Nat} (hid : seqs.length ≤ id) :
    s.sequence id = .error .outOfRange := by
  rw [sequence, part_eq_error (by rw [h.size]; omega)]
  rfl

theorem Stores.sequence_eq_ok_iff (h : Stores s seqs) {id : Nat} {seq : List Int} :
    s.sequence id = .ok seq ↔ seqs[id]? = some seq := by
  constructor
  · intro hseq
    rcases Nat.lt_or_ge id seqs.length with hlt | hge
    · have hget := List.getElem?_eq_getElem hlt
      rw [h.sequence_of_getElem? hget] at hseq
      rw [hget, Except.ok.inj hseq]
    · rw [h.sequence_of_le hge] at hseq
      cases hseq
  · exact h.sequence_of_getElem?

/-- Ids and sequences decide each other. -/
theorem Stores.id_eq_iff (h : Stores s seqs) {id id' : Nat} {seq seq' : List Int}
    (hid : seqs[id]? = some seq) (hid' : seqs[id']? = some seq') : id = id' ↔ seq = seq' := by
  rw [← List.getElem?_inj (List.getElem?_eq_some_iff.1 hid).1 h.nodup, hid, hid', Option.some.injEq]

/-! ### Adding a sequence -/

theorem Stores.findIn_eq (h : Stores s seqs) (seq : List Int) {ids : List Nat}
    (hids : ∀ id ∈ ids, id < seqs.length) :
    s.findIn seq ids = .ok (ids.find? fun id => seqs[id]? == some seq) := by
  induction ids with
  | nil => rfl
  | cons id ids ih =>
      obtain ⟨hid, hids⟩ := List.forall_mem_cons.1 hids
      have hget := List.getElem?_eq_getElem hid
      rw [findIn, h.sequence_of_getElem? hget, List.find?_cons, hget]
      show (if seqs[id] = seq then Except.ok (some id) else s.findIn seq ids) = _
      by_cases heq : seqs[id] = seq
      · rw [if_pos heq, heq, beq_self_eq_true]
      · rw [if_neg heq, ih hids, beq_eq_false_iff_ne.2 fun hsome => heq (Option.some.inj hsome)]

theorem Stores.lt_of_mem_bucket (h : Stores s seqs) {hash : UInt64} {id : Nat}
    (hid : id ∈ s.bucket hash) : id < seqs.length := by
  obtain ⟨seq, hseq, -⟩ := (h.buckets hash id).1 hid
  exact (List.getElem?_eq_some_iff.1 hseq).1

/-- Interning a stored sequence changes nothing. -/
theorem Stores.add_of_getElem? (h : Stores s seqs) {id : Nat} {seq : List Int}
    (hseq : seqs[id]? = some seq) : s.add seq = .ok (id, s) := by
  have hfound : (s.bucket (s.hash seq)).find? (fun id => seqs[id]? == some seq) = some id := by
    have hsome : ((s.bucket (s.hash seq)).find? fun id => seqs[id]? == some seq).isSome := by
      rw [List.find?_isSome]
      exact ⟨id, (h.buckets _ _).2 ⟨seq, hseq, rfl⟩, beq_iff_eq.2 hseq⟩
    obtain ⟨id', hid'⟩ := Option.isSome_iff_exists.1 hsome
    have hseq' : (seqs[id']? == some seq) = true := (List.find?_eq_some_iff_append.1 hid').1
    rw [hid', (h.id_eq_iff (beq_iff_eq.1 hseq') hseq).2 rfl]
  rw [add, h.findIn_eq seq fun id hid => h.lt_of_mem_bucket hid, hfound]
  rfl

/-- The id of a new sequence is the old size. -/
theorem Stores.add_of_not_mem (h : Stores s seqs) {seq : List Int} (hseq : seq ∉ seqs) :
    s.add seq = .ok (seqs.length, s.push seq) := by
  have hfound : (s.bucket (s.hash seq)).find? (fun id => seqs[id]? == some seq) = none := by
    rw [List.find?_eq_none]
    intro id hid hsome
    exact hseq (List.mem_of_getElem? (beq_iff_eq.1 hsome))
  rw [add, h.findIn_eq seq fun id hid => h.lt_of_mem_bucket hid, hfound, ← h.size_eq]
  rfl

theorem Stores.push (h : Stores s seqs) {seq : List Int} (hseq : seq ∉ seqs) :
    Stores (s.push seq) (seqs ++ [seq]) where
  values := by
    show (s.values ++ seq).toList = _
    rw [Array.toList_appendList, h.values, List.flatten_append, List.flatten_singleton]
  size := by
    show (s.begins.push _).size = _
    rw [Array.size_push, h.size, List.length_append, List.length_singleton]
  begins := by
    intro i hi
    show (s.begins.push _)[i]? = _
    rw [Array.getElem?_push, h.size]
    rw [List.length_append, List.length_singleton] at hi
    by_cases hlast : i = seqs.length + 1
    · rw [if_pos hlast, hlast, List.take_of_length_le (by simp), ← Array.length_toList, h.values,
        List.flatten_append, List.length_append, List.flatten_singleton]
    · have hi : i ≤ seqs.length := by omega
      rw [if_neg hlast, h.begins i hi, List.take_append_of_le_length hi]
  buckets := by
    intro hash id
    show id ∈ (s.buckets.insert (s.hash seq) (s.bucket (s.hash seq) ++ [s.size])).getD hash [] ↔
      ∃ other, _ ∧ s.hash other = hash
    rw [Std.HashMap.getD_insert]
    simp only [getElem?_concat_eq_some_iff]
    have hold := h.buckets hash id
    unfold bucket at hold ⊢
    by_cases hhash : s.hash seq = hash
    · rw [if_pos (beq_iff_eq.2 hhash), hhash, List.mem_append, hold, List.mem_singleton, h.size_eq]
      constructor
      · rintro (⟨other, hother, hsame⟩ | rfl)
        · exact ⟨other, .inl hother, hsame⟩
        · exact ⟨seq, .inr ⟨rfl, rfl⟩, hhash⟩
      · rintro ⟨other, hother | ⟨hid, -⟩, hsame⟩
        · exact .inl ⟨other, hother, hsame⟩
        · exact .inr hid
    · rw [if_neg fun hbeq => hhash (beq_iff_eq.1 hbeq), hold]
      constructor
      · rintro ⟨other, hother, hsame⟩
        exact ⟨other, .inl hother, hsame⟩
      · rintro ⟨other, hother | ⟨-, rfl⟩, hsame⟩
        · exact ⟨other, hother, hsame⟩
        · exact absurd hsame hhash
  nodup := by
    rw [List.nodup_append]
    exact ⟨h.nodup, List.nodup_singleton _, fun a ha b hb => by
      rw [List.mem_singleton.1 hb]
      exact fun heq => hseq (heq ▸ ha)⟩

theorem Stores.clear (h : Stores s seqs) : Stores s.clear [] where
  values := rfl
  size := by
    show (s.begins.take 1).size = 1
    rw [Array.take_eq_extract, Array.size_extract, h.size]
    omega
  begins := by
    intro i hi
    cases Nat.le_zero.1 hi
    show (s.begins.take 1)[0]? = some 0
    rw [Array.take_eq_extract, Array.getElem?_extract, h.size, if_pos (by omega)]
    exact h.begins 0 (Nat.zero_le _)
  buckets := by
    intro hash id
    simp [bucket, Arena.clear]
  nodup := List.nodup_nil

/-! ### Calls -/

/-- What can be asked of a lexicon that changes it. -/
inductive Call (α : Type)
  | add (a : α)
  | clear

section Calls

variable {α : Type}

/-- The value has been added since the last clearing. -/
def Added (calls : List (Call α)) (a : α) : Prop :=
  ∃ before between, calls = before ++ .add a :: between ∧ .clear ∉ between

theorem added_concat_iff {calls : List (Call α)} {c : Call α} {a : α} :
    Added (calls ++ [c]) a ↔ c = .add a ∨ c ≠ .clear ∧ Added calls a := by
  constructor
  · rintro ⟨before, between, heq, hclear⟩
    rcases between.eq_nil_or_concat' with rfl | ⟨between, last, rfl⟩
    · obtain ⟨-, hlast⟩ := List.append_inj' heq rfl
      exact .inl (List.singleton_inj.1 hlast)
    · rw [← List.cons_append, ← List.append_assoc] at heq
      obtain ⟨rfl, hlast⟩ := List.append_inj' heq rfl
      cases List.singleton_inj.1 hlast
      rw [List.mem_append, List.mem_singleton, not_or] at hclear
      exact .inr ⟨Ne.symm hclear.2, before, between, rfl, hclear.1⟩
  · rintro (rfl | ⟨hne, before, between, rfl, hclear⟩)
    · exact ⟨calls, [], rfl, List.not_mem_nil⟩
    · refine ⟨before, between ++ [c], by rw [List.append_assoc, List.cons_append], ?_⟩
      rw [List.mem_append, List.mem_singleton, not_or]
      exact ⟨hclear, Ne.symm hne⟩

variable [BEq α] [LawfulBEq α]

/-- What is stored after a call. -/
def Call.stored (l : List α) : Call α → List α
  | .add a => if a ∈ l then l else l ++ [a]
  | .clear => []

/-- What is stored after some calls to an empty lexicon. -/
def storedBy (calls : List (Call α)) : List α := calls.foldl Call.stored []

theorem storedBy_concat (calls : List (Call α)) (c : Call α) :
    storedBy (calls ++ [c]) = c.stored (storedBy calls) := by
  rw [storedBy, List.foldl_concat]
  rfl

/-- What is stored keeps its place up to the next clearing. -/
theorem getElem?_foldl_stored {calls : List (Call α)} (hclear : .clear ∉ calls) {l : List α}
    {id : Nat} {a : α} (ha : l[id]? = some a) : (calls.foldl Call.stored l)[id]? = some a := by
  induction calls generalizing l with
  | nil => exact ha
  | cons c calls ih =>
      rw [List.foldl_cons]
      apply ih fun hmem => hclear (List.mem_cons_of_mem _ hmem)
      cases c with
      | add b =>
          rw [Call.stored]
          split
          · exact ha
          · exact getElem?_concat_eq_some_iff.2 (.inl ha)
      | clear => exact absurd List.mem_cons_self hclear

/-- What is stored has been added since the last clearing. -/
theorem mem_storedBy_iff {calls : List (Call α)} {a : α} : a ∈ storedBy calls ↔ Added calls a := by
  induction calls using List.reverseRecOn with
  | nil =>
      refine iff_of_false List.not_mem_nil ?_
      rintro ⟨before, between, heq, -⟩
      exact absurd heq.symm (List.append_ne_nil_of_right_ne_nil _ (List.cons_ne_nil _ _))
  | append_singleton calls c ih =>
      rw [storedBy_concat, added_concat_iff, ← ih]
      cases c with
      | add b =>
          rw [Call.stored, Call.add.injEq]
          split
          · rename_i hb
            exact ⟨fun h => .inr ⟨nofun, h⟩, fun h => h.elim (fun heq => heq ▸ hb) And.right⟩
          · rw [List.mem_append, List.mem_singleton]
            exact ⟨fun h => h.elim (fun h => .inr ⟨nofun, h⟩) fun heq => .inl heq.symm,
              fun h => h.elim (fun heq => .inr heq.symm) fun h => .inl h.2⟩
      | clear =>
          rw [Call.stored]
          exact iff_of_false List.not_mem_nil fun h => h.elim nofun fun h => h.1 rfl

variable [Hashable α]

/-- A lexicon that keeps every value for itself, after a call. -/
def Call.intern (l : Lexicon α) : Call α → Lexicon α
  | .add a => (l.add a).2
  | .clear => .empty

/-- The lexicon of values after some calls. -/
def interned (calls : List (Call α)) : Lexicon α := calls.foldl Call.intern .empty

theorem toList_intern (l : Lexicon α) (c : Call α) :
    (c.intern l).values.toList = c.stored l.values.toList := by
  have hknows : ∀ (id : Nat) (a : α), l.ids[a]? = some id ↔ l.values.toList[id]? = some a := by
    intro id a
    rw [l.ids_iff, Array.getElem?_toList]
  cases c with
  | add a =>
      rw [Call.intern, Call.stored, Lexicon.add]
      split
      · rename_i id hfound
        rw [if_pos (List.mem_of_getElem? ((hknows id a).1 hfound))]
      · rename_i hnone
        have hmem : a ∉ l.values.toList := by
          intro hmem
          obtain ⟨id, hid⟩ := List.mem_iff_getElem?.1 hmem
          cases hnone.symm.trans ((hknows id a).2 hid)
        rw [if_neg hmem]
        exact Array.toList_push
  | clear => rfl

theorem toList_interned (calls : List (Call α)) :
    (interned calls).values.toList = storedBy calls := by
  induction calls using List.reverseRecOn with
  | nil => rfl
  | append_singleton calls c ih =>
      rw [storedBy_concat, ← ih, ← toList_intern, interned, List.foldl_concat]
      rfl

end Calls

/-! ### Runs -/

/-- The arena after a call. -/
def call (s : Arena) : Call (List Int) → Except Fault Arena
  | .add seq => (s.add seq).map (·.2)
  | .clear => .ok s.clear

/-- The arena after some calls. -/
def run (s : Arena) (calls : List (Call (List Int))) : Except Fault Arena := calls.foldlM call s

/-- Adding a sequence gives it a place among those that are stored. -/
theorem Stores.exists_add (h : Stores s seqs) (seq : List Int) :
    ∃ id s', s.add seq = .ok (id, s') ∧ Stores s' ((Call.add seq).stored seqs) ∧
      ((Call.add seq).stored seqs)[id]? = some seq := by
  by_cases hseq : seq ∈ seqs
  · obtain ⟨id, hid⟩ := List.mem_iff_getElem?.1 hseq
    rw [Call.stored, if_pos hseq]
    exact ⟨id, s, h.add_of_getElem? hid, h, hid⟩
  · rw [Call.stored, if_neg hseq]
    exact ⟨_, _, h.add_of_not_mem hseq, h.push hseq, List.getElem?_concat_length⟩

theorem Stores.exists_call (h : Stores s seqs) (c : Call (List Int)) :
    ∃ s', s.call c = .ok s' ∧ Stores s' (c.stored seqs) := by
  cases c with
  | add seq =>
      obtain ⟨id, s', hadd, hs', -⟩ := h.exists_add seq
      refine ⟨s', ?_, hs'⟩
      rw [call, hadd]
      rfl
  | clear => exact ⟨_, rfl, h.clear⟩

theorem Stores.exists_run (h : Stores s seqs) (calls : List (Call (List Int))) :
    ∃ s', s.run calls = .ok s' ∧ Stores s' (calls.foldl Call.stored seqs) := by
  induction calls generalizing s seqs with
  | nil => exact ⟨s, rfl, h⟩
  | cons c calls ih =>
      obtain ⟨mid, hmid, hstores⟩ := h.exists_call c
      obtain ⟨s', hs', hstores'⟩ := ih hstores
      refine ⟨s', ?_, hstores'⟩
      rw [run, List.foldlM_cons, hmid]
      exact hs'

theorem exists_run (hash : List Int → UInt64) (calls : List (Call (List Int))) :
    ∃ s, (empty hash).run calls = .ok s ∧ Stores s (storedBy calls) :=
  (stores_empty hash).exists_run calls

/-! ### Ids -/

/-- In a run from an empty arena the call after the given ones adds a sequence, and this is its id. -/
def Returns (hash : List Int → UInt64) (before : List (Call (List Int))) (seq : List Int)
    (id : Nat) : Prop :=
  ∃ s s', (empty hash).run before = .ok s ∧ s.add seq = .ok (id, s')

/-- A call returns the place that its sequence has then. -/
theorem returns_iff {hash : List Int → UInt64} {before : List (Call (List Int))} {seq : List Int}
    {id : Nat} : Returns hash before seq id ↔ (storedBy (before ++ [.add seq]))[id]? = some seq := by
  obtain ⟨s, hs, hstores⟩ := exists_run hash before
  obtain ⟨id', s', hadd, hstores', hid'⟩ := hstores.exists_add seq
  rw [← storedBy_concat] at hstores' hid'
  constructor
  · rintro ⟨t, t', ht, hadd'⟩
    cases hs.symm.trans ht
    cases hadd.symm.trans hadd'
    exact hid'
  · intro hid
    rw [(hstores'.id_eq_iff hid hid').2 rfl]
    exact ⟨s, s', hs, hadd⟩

theorem exists_returns (hash : List Int → UInt64) (before : List (Call (List Int))) (seq : List Int) :
    ∃ id, Returns hash before seq id := by
  obtain ⟨s, hs, hstores⟩ := exists_run hash before
  obtain ⟨id, s', hadd, -⟩ := hstores.exists_add seq
  exact ⟨id, s, s', hs, hadd⟩

theorem Returns.getElem?_storedBy {hash : List Int → UInt64} {before between : List (Call (List Int))}
    {seq : List Int} {id : Nat} (h : Returns hash before seq id) (hclear : .clear ∉ between) :
    (storedBy (before ++ .add seq :: between))[id]? = some seq := by
  have hplace := getElem?_foldl_stored hclear (returns_iff.1 h)
  rwa [storedBy, ← List.foldl_append, List.append_assoc] at hplace

/-- What the ids mean that were given out by some calls to an empty arena, which have led to the
arena `s`. They count on without bound; as long as the arena holds no more than `2 ^ 32` sequences, each
is the number of a machine word. -/
structure KeepsIds (hash : List Int → UInt64) (calls : List (Call (List Int))) (s : Arena) : Prop where
  dense : ∀ id, id < s.size ↔ ∃ before seq between,
    calls = before ++ Call.add seq :: between ∧ Call.clear ∉ between ∧ Returns hash before seq id
  word : s.size ≤ 2 ^ 32 → ∀ before seq between id, calls = before ++ Call.add seq :: between →
    Call.clear ∉ between → Returns hash before seq id → (UInt32.ofNat id).toNat = id
  named : ∀ before seq between id, calls = before ++ Call.add seq :: between →
    Call.clear ∉ between → Returns hash before seq id → s.sequence id = .ok seq
  shared : ∀ before seq between id seq' id', calls = before ++ Call.add seq :: between →
    Call.clear ∉ between → Returns hash before seq id → Returns hash calls seq' id' →
    (id = id' ↔ seq = seq')
  fresh : ∀ seq, ¬Added calls seq → ∃ s', s.add seq = .ok (s.size, s') ∧ s'.size = s.size + 1
  known : ∀ seq, Added calls seq → ∃ id, s.add seq = .ok (id, s)
  unnamed : ∀ id, (∃ fault, s.sequence id = .error fault) ↔ s.size ≤ id
  alike : ∀ id seq, s.sequence id = .ok seq ↔ (interned calls).get? id = some seq

/-- Whatever the hash, all calls succeed, and the ids keep their meaning. -/
theorem exists_keepsIds (hash : List Int → UInt64) (calls : List (Call (List Int))) :
    ∃ s, (empty hash).run calls = .ok s ∧ KeepsIds hash calls s := by
  obtain ⟨s, hs, hstores⟩ := exists_run hash calls
  refine ⟨s, hs, ?_⟩
  constructor
  case dense =>
    intro id
    rw [hstores.size_eq]
    constructor
    · intro hid
      obtain ⟨seq, hseq⟩ : ∃ seq, (storedBy calls)[id]? = some seq := ⟨_, List.getElem?_eq_getElem hid⟩
      obtain ⟨before, between, rfl, hclear⟩ := mem_storedBy_iff.1 (List.mem_of_getElem? hseq)
      obtain ⟨id', hid'⟩ := exists_returns hash before seq
      rw [(hstores.id_eq_iff hseq (hid'.getElem?_storedBy hclear)).2 rfl]
      exact ⟨before, seq, between, rfl, hclear, hid'⟩
    · rintro ⟨before, seq, between, rfl, hclear, hid⟩
      exact (List.getElem?_eq_some_iff.1 (hid.getElem?_storedBy hclear)).1
  case word =>
    rintro hsize before seq between id rfl hclear hid
    have hlt := (List.getElem?_eq_some_iff.1 (hid.getElem?_storedBy hclear)).1
    rw [← hstores.size_eq] at hlt
    exact UInt32.toNat_ofNat_of_lt' (hlt.trans_le hsize)
  case named =>
    rintro before seq between id rfl hclear hid
    exact hstores.sequence_of_getElem? (hid.getElem?_storedBy hclear)
  case shared =>
    rintro before seq between id seq' id' rfl hclear hid hid'
    obtain ⟨t, _, hstores'⟩ := exists_run hash (before ++ .add seq :: between ++ [.add seq'])
    have hplace : (storedBy (before ++ .add seq :: between ++ [.add seq']))[id]? = some seq := by
      rw [List.append_assoc, List.cons_append]
      exact hid.getElem?_storedBy (by simpa using hclear)
    exact hstores'.id_eq_iff hplace (returns_iff.1 hid')
  case fresh =>
    intro seq hseq
    have hmem : seq ∉ storedBy calls := mt mem_storedBy_iff.1 hseq
    have hpush := hstores.push hmem
    refine ⟨s.push seq, ?_, ?_⟩
    · rw [hstores.add_of_not_mem hmem, hstores.size_eq]
    · rw [hpush.size_eq, hstores.size_eq, List.length_append, List.length_singleton]
  case known =>
    intro seq hseq
    obtain ⟨id, hid⟩ := List.mem_iff_getElem?.1 (mem_storedBy_iff.2 hseq)
    exact ⟨id, hstores.add_of_getElem? hid⟩
  case unnamed =>
    intro id
    rw [hstores.size_eq]
    constructor
    · rintro ⟨fault, hfault⟩
      by_contra hid
      rw [hstores.sequence_of_getElem? (List.getElem?_eq_getElem (Nat.lt_of_not_le hid))] at hfault
      cases hfault
    · intro hid
      exact ⟨_, hstores.sequence_of_le hid⟩
  case alike =>
    intro id seq
    rw [hstores.sequence_eq_ok_iff, ← toList_interned, Array.getElem?_toList, Lexicon.get?]

end Arena

end SnapGraph
