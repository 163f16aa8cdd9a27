import Std.Data.HashMap
import SnapGraph.Offsets

/-!
A lexicon of sequences that lie end to end in one buffer. Look-up by value goes through buckets, the
ids of the sequences with one hash; whether a sequence is the one looked for is decided by comparing
them item by item, so an arena works with any hash. Ids count on without bound; those of the first
`2 ^ 32` sequences fit a machine word.
-/

namespace SnapGraph

structure Arena where
  hash : List Int → UInt64
  values : Array Int
  /-- Where each sequence begins in the buffer, and where the next one will. -/
  begins : Array Nat
  /-- The ids of the sequences with each hash. -/
  buckets : Std.HashMap UInt64 (List Nat)

namespace Arena

def empty (hash : List Int → UInt64) : Arena where
  hash := hash
  values := #[]
  begins := #[0]
  buckets := ∅

/-- How many sequences the arena holds; its ids are `0, …, size - 1`. -/
def size (s : Arena) : Nat := s.begins.size - 1

/-- The sequence with an id. -/
def sequence (s : Arena) (id : Nat) : Except Fault (List Int) :=
  (part s.begins s.values id).map Array.toList

def bucket (s : Arena) (h : UInt64) : List Nat := s.buckets.getD h []

/-- The first of the ids whose sequence is the given one. -/
def findIn (s : Arena) (seq : List Int) : List Nat → Except Fault (Option Nat)
  | [] => .ok none
  | id :: ids => do
      let other ← s.sequence id
      if other = seq then return some id
      s.findIn seq ids

/-- Appends a sequence; its id is the old size. -/
def push (s : Arena) (seq : List Int) : Arena where
  hash := s.hash
  values := s.values ++ seq
  begins := s.begins.push (s.values.size + seq.length)
  buckets := s.buckets.insert (s.hash seq) (s.bucket (s.hash seq) ++ [s.size])

/-- Interns a sequence: the id it has, or a new one. -/
def add (s : Arena) (seq : List Int) : Except Fault (Nat × Arena) := do
  match ← s.findIn seq (s.bucket (s.hash seq)) with
  | some id => return (id, s)
  | none => return (s.size, s.push seq)

/-- Forgets all sequences; their ids will be given out again. -/
def clear (s : Arena) : Arena where
  hash := s.hash
  values := #[]
  begins := s.begins.take 1
  buckets := ∅

end Arena

end SnapGraph
