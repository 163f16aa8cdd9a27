import SnapGraph.Json.Reader
import SnapGraph.Options

/-!
Options as JSON: an object of five fields, the four policies by name.
-/

namespace SnapGraph

namespace EdgeType

def name : EdgeType → String
  | directed => "Directed"
  | undirected => "Undirected"

def ofName? : String → Option EdgeType
  | "Directed" => some directed
  | "Undirected" => some undirected
  | _ => none

theorem ofName?_name (t : EdgeType) : ofName? t.name = some t := by cases t <;> rfl

end EdgeType

namespace DegeneratePolicy

def name : DegeneratePolicy → String
  | discard => "Discard"
  | discardExcess => "DiscardExcess"
  | keep => "Keep"

def ofName? : String → Option DegeneratePolicy
  | "Discard" => some discard
  | "DiscardExcess" => some discardExcess
  | "Keep" => some keep
  | _ => none

theorem ofName?_name (p : DegeneratePolicy) : ofName? p.name = some p := by cases p <;> rfl

end DegeneratePolicy

namespace DuplicatePolicy

def name : DuplicatePolicy → String
  | merge => "Merge"
  | keep => "Keep"

def ofName? : String → Option DuplicatePolicy
  | "Merge" => some merge
  | "Keep" => some keep
  | _ => none

theorem ofName?_name (p : DuplicatePolicy) : ofName? p.name = some p := by cases p <;> rfl

end DuplicatePolicy

namespace SiblingPolicy

def name : SiblingPolicy → String
  | discard => "Discard"
  | keep => "Keep"
  | require => "Require"
  | create => "Create"

def ofName? : String → Option SiblingPolicy
  | "Discard" => some discard
  | "Keep" => some keep
  | "Require" => some require
  | "Create" => some create
  | _ => none

theorem ofName?_name (p : SiblingPolicy) : ofName? p.name = some p := by cases p <;> rfl

end SiblingPolicy

namespace Options

/-- The names of the fields, in the order they are written in. -/
def fieldNames : List String :=
  ["edge_type", "degenerate_edges", "duplicate_edges", "sibling_pairs", "allow_vertex_filtering"]

def fieldTexts (o : Options) : List String :=
  let quoted (name : String) := "\"" ++ name ++ "\""
  [quoted o.edgeType.name, quoted o.degenerates.name, quoted o.duplicates.name,
    quoted o.siblings.name, if o.allowVertexFiltering then "true" else "false"]

/-- Options as one line of JSON without blanks. -/
def toText (o : Options) : String :=
  let fields := (fieldNames.zip o.fieldTexts).map fun (name, text) => "\"" ++ name ++ "\":" ++ text
  "\x7b" ++ ",".intercalate fields ++ "\x7d"

def ofValue? (v : Json.Value) : Option Options := do
  match ← v.asRecord? fieldNames with
  | [edgeType, degenerates, duplicates, siblings, filtering] =>
      return { edgeType := ← EdgeType.ofName? (← edgeType.asName?),
               degenerates := ← DegeneratePolicy.ofName? (← degenerates.asName?),
               duplicates := ← DuplicatePolicy.ofName? (← duplicates.asName?),
               siblings := ← SiblingPolicy.ofName? (← siblings.asName?),
               allowVertexFiltering := ← filtering.asBool? }
  | _ => none

def ofText? (s : String) : Option Options := Json.read? s >>= ofValue?

end Options

end SnapGraph
