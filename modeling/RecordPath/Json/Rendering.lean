import RecordPath.Json.Basic
import RecordPath.Record.Presence

namespace RecordPath

namespace Value

/-- A double that is no number is written as null. -/
def floatJson (x : Float) : Json :=
  if Decimal.isFinite x then .number (.float x) else .null

mutual

/-- Renders a value; `names` gives the names of ordinals. -/
def render : Value → (Int64 → Option String) → Json
  | bool b, _ => .bool b
  | int n, names =>
    match names n with
    | some s => .string s
    | none => .number (.integer n.toInt)
  | uint n, _ => .number (.integer n.toNat)
  | float x, _ => floatJson x
  | string s, _ => .string s
  | bytes bs, _ => .array (bs.map fun b => .number (.integer b.toNat))
  | message ⟨_, type, slots⟩, _ => .object (Json.sorted (renderFields type.fields slots))
  | list ⟨_, items⟩, names => .array (renderItems items names)
  | map ⟨_, _, entries⟩, names => .object (Json.sorted (renderEntries entries names))
termination_by structural v => v

def renderFields : List Field → List (Option Value) → List (String × Json)
  | _ :: fields, none :: slots => renderFields fields slots
  | f :: fields, some v :: slots =>
    if f.isPresent v then (f.name, v.render f.enumName?) :: renderFields fields slots
    else renderFields fields slots
  | _, _ => []
termination_by structural _ slots => slots

def renderItems : List Value → (Int64 → Option String) → List Json
  | [], _ => []
  | v :: rest, names => v.render names :: renderItems rest names
termination_by structural vs => vs

def renderEntries : List (MapKey × Value) → (Int64 → Option String) → List (String × Json)
  | [], _ => []
  | (k, v) :: rest, names => (k.text, v.render names) :: renderEntries rest names
termination_by structural es => es

end

def toJson (v : Value) : Json := v.render fun _ => none

end Value

end RecordPath
