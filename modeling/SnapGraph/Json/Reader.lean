import SnapGraph.Json.Value

/-!
Reading JSON text. Each reader takes the characters that are left and returns what it read with
the characters after it, or nothing if they do not start with what it reads.
-/

namespace SnapGraph.Json

/-- Blank characters between tokens. -/
def isBlank (c : Char) : Bool := c == ' ' || c == '\n' || c == '\t' || c == '\r'

def skipBlanks (cs : List Char) : List Char := cs.dropWhile isBlank

def digit? (c : Char) : Option Nat :=
  if '0' ≤ c ∧ c ≤ '9' then some (c.toNat - '0'.toNat) else none

def hexDigit? (c : Char) : Option Nat :=
  if '0' ≤ c ∧ c ≤ '9' then some (c.toNat - '0'.toNat)
  else if 'a' ≤ c ∧ c ≤ 'f' then some (c.toNat - 'a'.toNat + 10)
  else if 'A' ≤ c ∧ c ≤ 'F' then some (c.toNat - 'A'.toNat + 10)
  else none

def readDigits : List Char → List Nat × List Char
  | [] => ([], [])
  | c :: cs =>
      match digit? c with
      | some d => let (ds, rest) := readDigits cs; (d :: ds, rest)
      | none => ([], c :: cs)

def readSomeDigits (cs : List Char) : Option (List Nat × List Char) :=
  match readDigits cs with
  | ([], _) => none
  | (ds, rest) => some (ds, rest)

/-- The integer part of a numeral: digits of which only a lone one may be a leading zero. -/
def readWhole (cs : List Char) : Option (List Nat × List Char) :=
  match readDigits cs with
  | ([], _) | (0 :: _ :: _, _) => none
  | (ds, rest) => some (ds, rest)

/-- The fraction of a numeral, if it has one. -/
def readFraction : List Char → Option (List Nat × List Char)
  | '.' :: cs => readSomeDigits cs
  | cs => some ([], cs)

/-- The exponent of a numeral, if it has one: whether it is negative, and its digits. -/
def readExponent : List Char → Option (Bool × List Nat × List Char)
  | 'e' :: cs | 'E' :: cs =>
      match cs with
      | '-' :: cs => (readSomeDigits cs).map fun (ds, rest) => (true, ds, rest)
      | '+' :: cs => (readSomeDigits cs).map fun (ds, rest) => (false, ds, rest)
      | cs => (readSomeDigits cs).map fun (ds, rest) => (false, ds, rest)
  | cs => some (false, [], cs)

/-- A numeral without its sign. -/
def readUnsigned (negative : Bool) (cs : List Char) : Option (Numeral × List Char) := do
  let (whole, cs) ← readWhole cs
  let (fraction, cs) ← readFraction cs
  let (exponentNegative, exponent, cs) ← readExponent cs
  return (⟨negative, whole, fraction, exponentNegative, exponent⟩, cs)

def readNumeral : List Char → Option (Numeral × List Char)
  | '-' :: cs => readUnsigned true cs
  | cs => readUnsigned false cs

/-- The character that a one-letter escape stands for. -/
def escape? : Char → Option Char
  | '"' => some '"'
  | '\\' => some '\\'
  | '/' => some '/'
  | 'b' => some '\x08'
  | 'f' => some '\x0c'
  | 'n' => some '\n'
  | 'r' => some '\r'
  | 't' => some '\t'
  | _ => none

/-- The code that four hexadecimal digits stand for. -/
def hexCode? (a b c d : Char) : Option Nat := do
  return (((← hexDigit? a) * 16 + (← hexDigit? b)) * 16 + (← hexDigit? c)) * 16 + (← hexDigit? d)

/-- The rest of a string, after its opening quote. Control characters must be escaped. -/
def readText : List Char → Option (Text × List Char)
  | [] => none
  | '"' :: cs => some ([], cs)
  | '\\' :: 'u' :: a :: b :: c :: d :: cs => do
      let unit ← hexCode? a b c d
      let (text, rest) ← readText cs
      return (.code unit :: text, rest)
  | '\\' :: c :: cs => do
      let c ← escape? c
      let (text, rest) ← readText cs
      return (.plain c :: text, rest)
  | c :: cs =>
      if c = '\\' ∨ c < ' ' then none
      else do
        let (text, rest) ← readText cs
        return (.plain c :: text, rest)

mutual

/-- A value; `depth` bounds the steps. -/
def readValue : Nat → List Char → Option (Value × List Char)
  | 0, _ => none
  | depth + 1, cs =>
      match skipBlanks cs with
      | 'n' :: 'u' :: 'l' :: 'l' :: cs => some (.null, cs)
      | 't' :: 'r' :: 'u' :: 'e' :: cs => some (.bool true, cs)
      | 'f' :: 'a' :: 'l' :: 's' :: 'e' :: cs => some (.bool false, cs)
      | '"' :: cs => (readText cs).map fun (t, rest) => (.string t, rest)
      | '[' :: cs =>
          match skipBlanks cs with
          | ']' :: cs => some (.array [], cs)
          | cs => (readElements depth cs).map fun (vs, rest) => (.array vs, rest)
      | '\x7b' :: cs =>
          match skipBlanks cs with
          | '\x7d' :: cs => some (.object [], cs)
          | cs => (readMembers depth cs).map fun (ms, rest) => (.object ms, rest)
      | cs => (readNumeral cs).map fun (n, rest) => (.number n, rest)

/-- One or more elements of an array, and the bracket that closes it. -/
def readElements : Nat → List Char → Option (List Value × List Char)
  | 0, _ => none
  | depth + 1, cs => do
      let (v, cs) ← readValue depth cs
      match skipBlanks cs with
      | ',' :: cs => (readElements depth cs).map fun (vs, rest) => (v :: vs, rest)
      | ']' :: cs => some ([v], cs)
      | _ => none

/-- One or more members of an object, and the brace that closes it. -/
def readMembers : Nat → List Char → Option (List (Text × Value) × List Char)
  | 0, _ => none
  | depth + 1, cs =>
      match skipBlanks cs with
      | '"' :: cs => do
          let (name, cs) ← readText cs
          match skipBlanks cs with
          | ':' :: cs => do
              let (v, cs) ← readValue depth cs
              match skipBlanks cs with
              | ',' :: cs => (readMembers depth cs).map fun (ms, rest) => ((name, v) :: ms, rest)
              | '\x7d' :: cs => some ([(name, v)], cs)
              | _ => none
          | _ => none
      | _ => none

end

/-- The value that a text is, with nothing but blanks around it. Every second step of a reader
takes a character, so twice the length of the text is depth enough. -/
def read? (s : String) : Option Value := do
  let cs := s.toList
  let (v, rest) ← readValue (2 * cs.length + 2) cs
  if skipBlanks rest = [] then some v else none

end SnapGraph.Json
