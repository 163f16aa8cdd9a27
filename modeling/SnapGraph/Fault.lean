import SnapGraph.Edge

/-!
What can go wrong, by cause. A `BuildError` reports that edges do not describe valid geometry; a
`Fault` that a caller broke a precondition. Each cause has one wording, given by `message`.
-/

namespace SnapGraph

/-- A structural invariant of an edge table that does not hold. -/
inductive Violation
  /-- The table of input id sets is not as long as the edge table. -/
  | setCount (sets edges : Nat)
  /-- An edge of the table leaves the vertices `0, …, numVertices - 1`. -/
  | edgeOutOfRange (index : Nat) (edge : Edge) (numVertices : Nat)
  /-- The edges at `index` and `index + 1` descend. -/
  | edgesOutOfOrder (index : Nat)
  /-- An input edge leaves the vertices `0, …, numVertices - 1`. -/
  | inputOutOfRange (edge : Edge) (numVertices : Nat)
  | described (text : String)
  deriving DecidableEq, Repr

def Violation.message : Violation → String
  | .setCount sets edges => s!"{sets} input edge id sets for {edges} edges"
  | .edgeOutOfRange index edge numVertices =>
      s!"edge {index} = ({edge.origin}, {edge.dest}) references a vertex outside 0..{numVertices}"
  | .edgesOutOfOrder index =>
      s!"edges {index} and {index + 1} are not in lexicographic order"
  | .inputOutOfRange edge numVertices =>
      s!"input edge ({edge.origin}, {edge.dest}) references a vertex outside 0..{numVertices}"
  | .described text => text

/-- The classes of error a caller can tell apart. -/
inductive ErrorKind
  | builder
  deriving DecidableEq, Repr

/-- Why edges cannot be processed or assembled. -/
inductive BuildError
  /-- Sibling pairs are required, and some edge has no sibling. -/
  | missingSiblings
  /-- A degenerate edge cannot take part in left-turn routing. -/
  | degenerateEdge (edge : Int)
  /-- More edges enter the vertex than leave it, and this one was left without a turn. -/
  | unmatchedEdge (edge : Int) (vertex : Int)
  /-- An edge and its sibling were routed into the same complement. -/
  | siblingInSameComplement (edge : Int)
  | invariantViolation (violation : Violation)
  deriving DecidableEq, Repr

namespace BuildError

def message : BuildError → String
  | missingSiblings => "Expected all input edges to have siblings, but some were missing"
  | degenerateEdge edge => s!"Degenerate edge {edge} cannot be part of a loop"
  | unmatchedEdge edge vertex =>
      s!"Given edges do not form loops (indegree != outdegree): edge {edge} at vertex {vertex} " ++
        "has no left turn"
  | siblingInSameComplement edge =>
      s!"Given undirected edges do not form loops: edge {edge} shares a complement with its sibling"
  | invariantViolation violation => "Graph invariant violated: " ++ violation.message

/-- Every error so far concerns the edges handed to the builder. -/
def kind : BuildError → ErrorKind
  | missingSiblings | degenerateEdge _ | unmatchedEdge _ _ | siblingInSameComplement _
  | invariantViolation _ => .builder

end BuildError

/-- A broken precondition. -/
inductive Fault
  /-- A set of ids, or a single id, to be interned has a negative member. -/
  | negativeId
  /-- A sibling map was asked for under options that do not guarantee siblings. -/
  | siblingsNotGuaranteed
  /-- A graph was made from tables that break an invariant. -/
  | invalidTables (violation : Violation)
  /-- A vertex, edge, set, sequence or label id names nothing where it is looked up. -/
  | outOfRange
  /-- Parallel tables differ in length. -/
  | lengthMismatch
  /-- The options do not admit this operation. -/
  | unsupportedOptions
  /-- Copies of an undirected degenerate edge do not come in pairs. -/
  | unpairedDegenerate
  /-- The edges are not the sibling pairs that the options promise. -/
  | brokenPairing
  /-- Items were to be sorted whose comparisons contradict each other. -/
  | inconsistentOrder
  /-- A walk that was to be cut into loops did not come back to where it began. -/
  | unclosedWalk
  deriving DecidableEq, Repr

/-- The wording of a fault, where it has one. -/
def Fault.message? : Fault → Option String
  | .negativeId => some "ids must be non-negative"
  | .siblingsNotGuaranteed => some "sibling map requires sibling pairs"
  | .invalidTables violation =>
      some ("[invariants] Graph::new: " ++ (BuildError.invariantViolation violation).message)
  | _ => none

/-- Either kind of failure, for operations that can meet both. -/
inductive Failure
  | fault (cause : Fault)
  | error (cause : BuildError)
  deriving DecidableEq, Repr

/-- Runs a step that can only break a precondition. -/
def liftFault {α : Type} : Except Fault α → Except Failure α
  | .ok a => .ok a
  | .error f => .error (.fault f)

@[simp] theorem liftFault_ok {α : Type} (a : α) : liftFault (.ok a) = .ok a := rfl

@[simp] theorem liftFault_error {α : Type} (f : Fault) :
    (liftFault (.error f) : Except Failure α) = .error (.fault f) := rfl

@[simp] theorem ok_bind {ε α β : Type} (a : α) (f : α → Except ε β) :
    ((.ok a : Except ε α) >>= f) = f a := rfl

@[simp] theorem error_bind {ε α β : Type} (e : ε) (f : α → Except ε β) :
    ((.error e : Except ε α) >>= f) = .error e := rfl

/-- A step succeeds after another if both do. -/
theorem bind_eq_ok_iff {ε α β : Type} {x : Except ε α} {f : α → Except ε β} {b : β} :
    (x >>= f) = .ok b ↔ ∃ a, x = .ok a ∧ f a = .ok b := by
  cases x with
  | error e =>
      constructor
      · intro h
        cases h
      · intro ⟨a, h, _⟩
        cases h
  | ok a =>
      constructor
      · intro h
        exact ⟨a, rfl, h⟩
      · intro ⟨a', h, h'⟩
        cases h
        exact h'

/-- Steps that all succeed give their results in order. -/
theorem mapM_eq_ok {ε α β : Type} {f : α → Except ε β} {value : α → β} {l : List α}
    (h : ∀ a ∈ l, f a = .ok (value a)) : l.mapM f = .ok (l.map value) := by
  induction l with
  | nil => rfl
  | cons a l ih =>
      rw [List.mapM_cons, h a List.mem_cons_self, ih fun b hb => h b (List.mem_cons_of_mem _ hb)]
      rfl

/-- If all of several steps succeed, each does. -/
theorem exists_of_mapM_eq_ok {ε α β : Type} {f : α → Except ε β} {l : List α} {bs : List β}
    (h : l.mapM f = .ok bs) : ∀ a ∈ l, ∃ b, f a = .ok b := by
  induction l generalizing bs with
  | nil => exact fun a ha => absurd ha List.not_mem_nil
  | cons a l ih =>
      rw [List.mapM_cons] at h
      obtain ⟨b, hb, h⟩ := bind_eq_ok_iff.1 h
      obtain ⟨bs, hbs, -⟩ := bind_eq_ok_iff.1 h
      intro c hc
      rcases List.mem_cons.1 hc with rfl | hc
      · exact ⟨b, hb⟩
      · exact ih hbs c hc

/-- What several steps give, one of them gives. -/
theorem exists_of_mem_mapM {ε α β : Type} {f : α → Except ε β} {l : List α} {bs : List β}
    (h : l.mapM f = .ok bs) : ∀ b ∈ bs, ∃ a ∈ l, f a = .ok b := by
  induction l generalizing bs with
  | nil =>
      cases h
      exact fun b hb => absurd hb List.not_mem_nil
  | cons a l ih =>
      rw [List.mapM_cons] at h
      obtain ⟨b, hb, h⟩ := bind_eq_ok_iff.1 h
      obtain ⟨rest, hrest, h⟩ := bind_eq_ok_iff.1 h
      cases h
      intro c hc
      rcases List.mem_cons.1 hc with rfl | hc
      · exact ⟨a, List.mem_cons_self, hb⟩
      · obtain ⟨d, hd, hc⟩ := ih hrest c hc
        exact ⟨d, List.mem_cons_of_mem a hd, hc⟩

/-- Steps that do the same on other items, up to a map of the results, do so in turn. -/
theorem mapM_map_eq {ε α α' β β' : Type} {f : α → Except ε β} {f' : α' → Except ε β'}
    {before : α → α'} {after : β → β'} {l : List α}
    (h : ∀ a ∈ l, f' (before a) = (f a).map after) :
    (l.map before).mapM f' = (l.mapM f).map (List.map after) := by
  induction l with
  | nil => rfl
  | cons a l ih =>
      rw [List.map_cons, List.mapM_cons, List.mapM_cons, h a List.mem_cons_self,
        ih fun b hb => h b (List.mem_cons_of_mem a hb)]
      cases f a with
      | error e => rfl
      | ok b =>
          cases l.mapM f with
          | error e => rfl
          | ok bs => rfl

/-- If several steps fail, one of them fails in the same way. -/
theorem exists_of_mapM_eq_error {ε α β : Type} {f : α → Except ε β} {l : List α} {e : ε}
    (h : l.mapM f = .error e) : ∃ a ∈ l, f a = .error e := by
  induction l with
  | nil => cases h
  | cons a l ih =>
      rw [List.mapM_cons] at h
      cases ha : f a with
      | error e' =>
          rw [ha] at h
          cases h
          exact ⟨a, List.mem_cons_self, ha⟩
      | ok b =>
          rw [ha] at h
          cases hl : l.mapM f with
          | error e' =>
              rw [hl] at h
              cases h
              obtain ⟨c, hc, hfail⟩ := ih hl
              exact ⟨c, List.mem_cons_of_mem a hc, hfail⟩
          | ok bs =>
              rw [hl] at h
              cases h

/-- A result that is complete even when an error is reported beside it. -/
structure Outcome (α : Type) where
  value : α
  error? : Option BuildError

/-- The natural number that a signed id stands for, if it is below `size`. -/
def indexOf (size : Nat) (id : Int) : Except Fault Nat :=
  if 0 ≤ id ∧ id.toNat < size then .ok id.toNat else .error .outOfRange

theorem indexOf_natCast {size i : Nat} (h : i < size) : indexOf size (i : Int) = .ok i := by
  simp [indexOf, h]

/-- Natural numbers below the size stand for themselves. -/
theorem mapM_indexOf {size : Nat} {ids : List Nat} (h : ∀ i ∈ ids, i < size) :
    (ids.map Int.ofNat).mapM (indexOf size) = .ok ids := by
  have hplace : ∀ id ∈ ids.map Int.ofNat, indexOf size id = .ok id.toNat := by
    intro id hid
    obtain ⟨i, hi, rfl⟩ := List.mem_map.1 hid
    exact indexOf_natCast (h i hi)
  have hback : (ids.map Int.ofNat).map Int.toNat = ids := by
    rw [List.map_map]
    exact List.map_id ids
  rw [mapM_eq_ok hplace, hback]

theorem lt_of_indexOf {size i : Nat} {id : Int} (h : indexOf size id = .ok i) :
    i < size ∧ (i : Int) = id := by
  unfold indexOf at h
  split at h
  · rename_i hid
    cases h
    exact ⟨hid.2, Int.toNat_of_nonneg hid.1⟩
  · cases h

end SnapGraph
