import SnapGraph.Json.Number

/-!
JSON values as they are written: a numeral keeps its digits and a string its escapes, because a
value that nobody asks for need only be well formed. `Text.decode?` and `Numeral.toFloat?` give
the meanings, where there is one.
-/

namespace SnapGraph.Json

/-- One character of a string: itself, or a sixteen-bit code given by an escape. -/
inductive TextUnit
  | plain (c : Char)
  | code (unit : Nat)
  deriving DecidableEq, Repr

abbrev Text := List TextUnit

/-- Whether a code is the first half of a pair. -/
def isHighSurrogate (unit : Nat) : Bool := 0xD800 ≤ unit && unit < 0xDC00

/-- Whether a code is the second half of a pair. -/
def isLowSurrogate (unit : Nat) : Bool := 0xDC00 ≤ unit && unit < 0xE000

/-- The characters of a string; codes of the surrogate range must come in pairs. -/
def Text.decode? : Text → Option (List Char)
  | [] => some []
  | .plain c :: rest => (decode? rest).map (c :: ·)
  | .code high :: .code low :: rest =>
      if isHighSurrogate high then
        if isLowSurrogate low then
          (decode? rest).map (Char.ofNat (0x10000 + (high - 0xD800) * 0x400 + (low - 0xDC00)) :: ·)
        else none
      else if isLowSurrogate high then none
      else (decode? (.code low :: rest)).map (Char.ofNat high :: ·)
  | .code unit :: rest =>
      if isHighSurrogate unit || isLowSurrogate unit then none
      else (decode? rest).map (Char.ofNat unit :: ·)

/-- A JSON value; the members of an object stand in the order they are written in. -/
inductive Value
  | null
  | bool (b : Bool)
  | number (n : Numeral)
  | string (t : Text)
  | array (elements : List Value)
  | object (members : List (Text × Value))

namespace Value

def asText? : Value → Option String
  | string t => t.decode?.map String.ofList
  | _ => none

def asBool? : Value → Option Bool
  | bool b => some b
  | _ => none

def asFloat? : Value → Option Float
  | number n => n.toFloat?
  | _ => none

/-- A name: a string, or an object whose only member has that name and is null. -/
def asName? : Value → Option String
  | object [(name, null)] => name.decode?.map String.ofList
  | v => v.asText?

/-- The value of the only member with the given name. -/
def onlyMember? (members : List (String × Value)) (name : String) : Option Value :=
  match members.filter fun m => m.1 == name with
  | [(_, v)] => some v
  | _ => none

/-- The values of a record's fields in order. A record is an object that has each field once, other
members being ignored, or an array of just its fields. -/
def asRecord? (fields : List String) : Value → Option (List Value)
  | array elements => if elements.length = fields.length then some elements else none
  | object members => do
      let named ← members.mapM fun m => m.1.decode?.map fun name => (String.ofList name, m.2)
      fields.mapM (onlyMember? named)
  | _ => none

end Value

end SnapGraph.Json
