import SnapGraph.Fault
import SnapGraph.Lexicon
import SnapGraph.Search

/-!
Interned sets of non-negative ids. A set is named by one integer, its handle: the empty set by
`emptyId`, a singleton by its member, and a larger set by `-1 - i`, where `i` is the place of its
ascending list in a lexicon. So only sets of two or more ids take any storage.
-/

namespace SnapGraph

/-! ### Ascending lists -/

/-- Drops repeated neighbours. -/
def squeeze : List Int → List Int
  | [] => []
  | [a] => [a]
  | a :: b :: l => if a = b then squeeze (b :: l) else a :: squeeze (b :: l)

/-- The distinct members of a list in ascending order. -/
def ascending (ids : List Int) : List Int := squeeze (ids.mergeSort (· ≤ ·))

@[simp] theorem mem_squeeze {a : Int} {l : List Int} : a ∈ squeeze l ↔ a ∈ l := by
  fun_induction squeeze l <;> simp_all

@[simp] theorem mem_ascending {a : Int} {l : List Int} : a ∈ ascending l ↔ a ∈ l := by
  simp [ascending]

theorem pairwise_squeeze {l : List Int} (h : l.Pairwise (· ≤ ·)) :
    (squeeze l).Pairwise (· < ·) := by
  fun_induction squeeze l with
  | case1 => simp
  | case2 a => simp
  | case3 a l ih => exact ih h.tail
  | case4 a b l hab ih =>
    refine List.pairwise_cons.2 ⟨fun c hc => ?_, ih h.tail⟩
    have hle : a ≤ b := List.rel_of_pairwise_cons h (by simp)
    have hbc : b ≤ c := by
      rcases List.mem_cons.1 (mem_squeeze.1 hc) with rfl | hc
      · exact Int.le_refl _
      · exact List.rel_of_pairwise_cons h.tail hc
    omega

theorem pairwise_ascending (l : List Int) : (ascending l).Pairwise (· < ·) := by
  have h : (l.mergeSort fun a b => decide (a ≤ b)).Pairwise fun a b => decide (a ≤ b) = true :=
    List.pairwise_mergeSort (by intro a b c; simp; omega) (by intro a b; simp; omega) l
  exact pairwise_squeeze (by simpa using h)

/-! ### Sets and handles -/

inductive IdSet
  | empty
  | single (id : Int)
  /-- Two or more ids, in ascending order. -/
  | many (ids : List Int)
  deriving DecidableEq, Repr

namespace IdSet

def toList : IdSet → List Int
  | empty => []
  | single id => [id]
  | many ids => ids

def size : IdSet → Nat
  | empty => 0
  | single _ => 1
  | many ids => ids.length

def isEmpty (s : IdSet) : Bool := s.size == 0

def first? : IdSet → Option Int
  | empty => none
  | single id => some id
  | many ids => ids.head?

/-- Whether an id is in the set; a larger set is searched by halving. -/
def contains : IdSet → Int → Bool
  | empty, _ => false
  | single id, x => id == x
  | many ids, x =>
      let ids := ids.toArray
      ids[partitionPoint ids (· < x)]? == some x

theorem length_toList (s : IdSet) : s.toList.length = s.size := by cases s <;> rfl

theorem head?_toList (s : IdSet) : s.toList.head? = s.first? := by cases s <;> rfl

end IdSet

/-- The larger sets that handles have been given out for. -/
structure IdSets where
  large : Lexicon (List Int)

namespace IdSets

def empty : IdSets := ⟨.empty⟩

instance : Inhabited IdSets := ⟨empty⟩

/-- The handle of the empty set: the least 32-bit integer, which no larger set gets. -/
def emptyId : Int := -2147483648

/-- The handle of the set with one member. -/
def singletonId (id : Int) : Except Fault Int :=
  if 0 ≤ id then .ok id else .error .negativeId

/-- The handle of the larger set at place `i` of the lexicon: the bitwise complement of `i`. -/
def largeId (i : Nat) : Int := -1 - (i : Int)

/-- Interns the set of the given ids, whatever their order and repetition. -/
def add (s : IdSets) (ids : List Int) : Except Fault (Int × IdSets) :=
  match ascending ids with
  | [] => .ok (emptyId, s)
  | [id] => (singletonId id).map fun handle => (handle, s)
  | least :: rest =>
      if 0 ≤ least then
        let (i, large) := s.large.add (least :: rest)
        .ok (largeId i, ⟨large⟩)
      else .error .negativeId

/-- The set that a handle names. -/
def find (s : IdSets) (handle : Int) : Except Fault IdSet :=
  if 0 ≤ handle then .ok (.single handle)
  else if handle = emptyId then .ok .empty
  else match s.large.get? (-1 - handle).toNat with
    | some ids => .ok (.many ids)
    | none => .error .outOfRange

/-- Forgets the larger sets; the other handles need none. -/
def clear (_ : IdSets) : IdSets := empty

/-- Whether a handle names a set. -/
def Knows (s : IdSets) (handle : Int) : Prop := ∃ set, s.find handle = .ok set

def addAll (s : IdSets) : List (List Int) → Except Fault (List Int × IdSets)
  | [] => .ok ([], s)
  | ids :: rest => do
      let (handle, s) ← s.add ids
      let (handles, s) ← s.addAll rest
      return (handle :: handles, s)

end IdSets

end SnapGraph
