/-!
Directed edges between numbered vertices, and their lexicographic order: by origin, then by
destination. The order is total, so a sorted edge table keeps all edges leaving a vertex together.

Throughout, vertices are numbered from zero by their place in the vertex table and edges by their
place in the edge table. Input edges, the edges before snapping, have ids of their own.
-/

namespace SnapGraph

/-- A directed edge. Its endpoints are integers because edges that come from outside may name
negative vertices, which no table has. -/
structure Edge where
  origin : Int
  dest : Int
  deriving DecidableEq, Repr, Inhabited

namespace Edge

/-- The same edge travelled backwards: its sibling. -/
def reverse (e : Edge) : Edge := ⟨e.dest, e.origin⟩

def isDegenerate (e : Edge) : Bool := e.origin == e.dest

def touches (e : Edge) (v : Int) : Bool := e.origin == v || e.dest == v

instance : LE Edge := ⟨fun a b => a.origin < b.origin ∨ a.origin = b.origin ∧ a.dest ≤ b.dest⟩

instance : LT Edge := ⟨fun a b => a.origin < b.origin ∨ a.origin = b.origin ∧ a.dest < b.dest⟩

theorem le_def {a b : Edge} :
    a ≤ b ↔ a.origin < b.origin ∨ a.origin = b.origin ∧ a.dest ≤ b.dest := Iff.rfl

theorem lt_def {a b : Edge} :
    a < b ↔ a.origin < b.origin ∨ a.origin = b.origin ∧ a.dest < b.dest := Iff.rfl

instance (a b : Edge) : Decidable (a ≤ b) := decidable_of_iff _ le_def.symm

instance (a b : Edge) : Decidable (a < b) := decidable_of_iff _ lt_def.symm

theorem ext_iff' {a b : Edge} : a = b ↔ a.origin = b.origin ∧ a.dest = b.dest := by
  cases a; cases b; simp

theorem le_refl (a : Edge) : a ≤ a := by rw [le_def]; omega

theorem le_trans {a b c : Edge} (hab : a ≤ b) (hbc : b ≤ c) : a ≤ c := by
  rw [le_def] at *; omega

theorem le_total (a b : Edge) : a ≤ b ∨ b ≤ a := by
  rw [le_def, le_def]; omega

theorem le_antisymm {a b : Edge} (hab : a ≤ b) (hba : b ≤ a) : a = b := by
  rw [le_def] at *; rw [ext_iff']; omega

theorem not_le {a b : Edge} : ¬a ≤ b ↔ b < a := by rw [le_def, lt_def]; omega

theorem not_lt {a b : Edge} : ¬a < b ↔ b ≤ a := by rw [le_def, lt_def]; omega

theorem lt_iff_le_and_ne {a b : Edge} : a < b ↔ a ≤ b ∧ a ≠ b := by
  rw [le_def, lt_def, Ne, ext_iff']; omega

@[simp] theorem reverse_reverse (e : Edge) : e.reverse.reverse = e := rfl

@[simp] theorem reverse_origin (e : Edge) : e.reverse.origin = e.dest := rfl

@[simp] theorem reverse_dest (e : Edge) : e.reverse.dest = e.origin := rfl

theorem reverse_inj {a b : Edge} : a.reverse = b.reverse ↔ a = b := by
  rw [ext_iff', ext_iff']; simp [and_comm]

theorem isDegenerate_iff {e : Edge} : e.isDegenerate = true ↔ e.origin = e.dest := by
  simp [isDegenerate]

theorem reverse_eq_self_iff {e : Edge} : e.reverse = e ↔ e.isDegenerate = true := by
  rw [ext_iff', isDegenerate_iff]; simp; omega

theorem isDegenerate_reverse (e : Edge) : e.reverse.isDegenerate = e.isDegenerate := by
  rw [Bool.eq_iff_iff, isDegenerate_iff, isDegenerate_iff]
  exact eq_comm

/-- Numbered edges in lexicographic order, equal edges by number: a strict order that orders any
two edges with different numbers. -/
def before (a b : Edge) (i j : Int) : Bool := decide (a < b) || a == b && decide (i < j)

end Edge

end SnapGraph
