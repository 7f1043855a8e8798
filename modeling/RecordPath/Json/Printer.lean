import RecordPath.Decimal.Layout
import RecordPath.Json.Basic

namespace RecordPath

/-- Floats in JSON always have a point or an exponent; half-way digits go to the even one. -/
def jsonFloat : Decimal.Layout where
  tie := .even
  isPositional e := -5 ≤ e && e ≤ 15
  pointsWhole := true
  plus := true

namespace Json

def escape (c : Char) : List Char :=
  if c = '\"' then ['\\', '\"']
  else if c = '\\' then ['\\', '\\']
  else if c = '\x08' then ['\\', 'b']
  else if c = '\t' then ['\\', 't']
  else if c = '\n' then ['\\', 'n']
  else if c = '\x0c' then ['\\', 'f']
  else if c = '\r' then ['\\', 'r']
  else if c.toNat < 0x20 then
    ['\\', 'u', '0', '0', Nat.digitChar (c.toNat / 16), Nat.digitChar (c.toNat % 16)]
  else [c]

def quoted (s : String) : String := "\"" ++ String.ofList (s.toList.flatMap escape) ++ "\""

def numberText : JsonNumber → String
  | .integer n => toString n
  | .float x => jsonFloat.text x

mutual

def compact : Json → String
  | null => "null"
  | bool true => "true"
  | bool false => "false"
  | number n => numberText n
  | string s => quoted s
  | array items => "[" ++ compactItems items ++ "]"
  | object members => "\x7b" ++ compactMembers members ++ "\x7d"
termination_by structural j => j

def compactItems : List Json → String
  | [] => ""
  | [j] => j.compact
  | j :: rest => j.compact ++ "," ++ compactItems rest
termination_by structural js => js

def compactMembers : List (String × Json) → String
  | [] => ""
  | [(name, j)] => quoted name ++ ":" ++ j.compact
  | (name, j) :: rest => quoted name ++ ":" ++ j.compact ++ "," ++ compactMembers rest
termination_by structural ms => ms

end

def newline (level : Nat) : String := "\n" ++ String.ofList (List.replicate (2 * level) ' ')

mutual

/-- The text with every item and member on a line of its own; what is empty stays closed. -/
def prettyAt (level : Nat) : Json → String
  | null => "null"
  | bool true => "true"
  | bool false => "false"
  | number n => numberText n
  | string s => quoted s
  | array [] => "[]"
  | array (j :: rest) =>
    "[" ++ newline (level + 1) ++ prettyAt (level + 1) j ++ prettyItems (level + 1) rest ++
      newline level ++ "]"
  | object [] => "\x7b\x7d"
  | object ((name, j) :: rest) =>
    "\x7b" ++ newline (level + 1) ++ quoted name ++ ": " ++ prettyAt (level + 1) j ++
      prettyMembers (level + 1) rest ++ newline level ++ "\x7d"
termination_by structural j => j

def prettyItems (level : Nat) : List Json → String
  | [] => ""
  | j :: rest => "," ++ newline level ++ prettyAt level j ++ prettyItems level rest
termination_by structural js => js

def prettyMembers (level : Nat) : List (String × Json) → String
  | [] => ""
  | (name, j) :: rest =>
    "," ++ newline level ++ quoted name ++ ": " ++ prettyAt level j ++ prettyMembers level rest
termination_by structural ms => ms

end

def pretty (j : Json) : String := j.prettyAt 0

end Json

end RecordPath
