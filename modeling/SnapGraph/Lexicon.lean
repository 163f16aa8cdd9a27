import Std.Data.HashMap

/-!
A lexicon hands out dense ids for values: equal values share one id, and an id keeps its meaning
while values are added. Look-up by value goes through a hash table, so a lexicon works with any
hash of its values, colliding or not.
-/

namespace SnapGraph

/-- Interned values in order of their ids, and the id of each value. -/
structure Lexicon (α : Type) [BEq α] [LawfulBEq α] [Hashable α] where
  values : Array α
  ids : Std.HashMap α Nat
  /-- The hash table knows exactly the stored values. -/
  ids_iff : ∀ (a : α) (i : Nat), ids[a]? = some i ↔ values[i]? = some a

namespace Lexicon

variable {α : Type} [BEq α] [LawfulBEq α] [Hashable α]

def empty : Lexicon α where
  values := #[]
  ids := ∅
  ids_iff := by simp

instance : Inhabited (Lexicon α) := ⟨empty⟩

/-- How many values the lexicon holds; its ids are `0, …, size - 1`. -/
def size (l : Lexicon α) : Nat := l.values.size

def get? (l : Lexicon α) (id : Nat) : Option α := l.values[id]?

/-- The id of a value that the lexicon does not hold yet is its old size. -/
def push (l : Lexicon α) (a : α) (h : l.ids[a]? = none) : Lexicon α where
  values := l.values.push a
  ids := l.ids.insert a l.values.size
  ids_iff := by
    intro b i
    rw [Std.HashMap.getElem?_insert, Array.getElem?_push]
    have hb := l.ids_iff b i
    by_cases hab : a = b
    · subst hab
      have hno : l.values[i]? ≠ some a := fun hi => by simp [(l.ids_iff a i).2 hi] at h
      by_cases hi : i = l.values.size
      · simp [hi]
      · simp [hi, hno, Ne.symm hi]
    · by_cases hi : i = l.values.size
      · subst hi
        simp [hab, hb]
      · simp [hab, hi, hb]

/-- Interns a value: the id it has, or a new one. -/
def add (l : Lexicon α) (a : α) : Nat × Lexicon α :=
  match h : l.ids[a]? with
  | some id => (id, l)
  | none => (l.size, l.push a h)

theorem get?_add_self (l : Lexicon α) (a : α) : (l.add a).2.get? (l.add a).1 = some a := by
  unfold add
  split
  · exact (l.ids_iff _ _).1 (by assumption)
  · simp [get?, push, size]

/-- Interning a value again changes nothing. -/
theorem add_of_get? {l : Lexicon α} {a : α} {i : Nat} (h : l.get? i = some a) : l.add a = (i, l) := by
  have hid := (l.ids_iff a i).2 h
  unfold add
  split
  · rename_i id hfound
    cases hid.symm.trans hfound
    rfl
  · rename_i hnone
    cases hid.symm.trans hnone

/-- An id keeps its meaning. -/
theorem get?_add_of_get? {l : Lexicon α} {i : Nat} {b : α} (h : l.get? i = some b) (a : α) :
    (l.add a).2.get? i = some b := by
  unfold add
  split
  · exact h
  · have hi : i < l.values.size := by
      by_cases hi : i < l.values.size
      · exact hi
      · simp [get?, Array.getElem?_eq_none (Nat.le_of_not_lt hi)] at h
    simpa [get?, push, Array.getElem?_push, Nat.ne_of_lt hi] using h

theorem get?_eq_none_iff {l : Lexicon α} {i : Nat} : l.get? i = none ↔ l.size ≤ i := by
  simp [get?, size]

end Lexicon

end SnapGraph
