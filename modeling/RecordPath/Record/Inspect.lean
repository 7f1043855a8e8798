import RecordPath.Record.Value
import RecordPath.Text.Quoted

namespace RecordPath

/-- Floats under inspection always have a point or an exponent; half-way digits go up. -/
def inspectedFloat : Decimal.Layout where
  tie := .up
  isPositional e := -4 ≤ e && e ≤ 15
  pointsWhole := true
  plus := false

def MapKey.inspect : MapKey → String
  | bool b => "Bool(" ++ boolText b ++ ")"
  | int n => "Int(" ++ toString n.toInt ++ ")"
  | uint n => "Uint(" ++ toString n.toNat ++ ")"
  | string s => "String(" ++ Text.quote s ++ ")"

namespace Value

mutual

def inspect : Value → String
  | bool b => "Bool(" ++ boolText b ++ ")"
  | int n => "Int(" ++ toString n.toInt ++ ")"
  | uint n => "Uint(" ++ toString n.toNat ++ ")"
  | float x => "Float(" ++ inspectedFloat.text x ++ ")"
  | string s => "String(" ++ Text.quote s ++ ")"
  | bytes bs => "Bytes([" ++ ", ".intercalate (bs.map fun b => toString b.toNat) ++ "])"
  | message ⟨_, type, slots⟩ =>
    let body :=
      match inspectSlots type.fields slots with
      | [] => ""
      | parts => " \x7b " ++ ", ".intercalate parts ++ " \x7d"
    "Message(" ++ type.name ++ body ++ ")"
  | list ⟨_, items⟩ => "List([" ++ ", ".intercalate (inspectItems items) ++ "])"
  | map ⟨_, _, entries⟩ =>
    "Map(\x7b" ++ ", ".intercalate (inspectEntries entries) ++ "\x7d)"
termination_by structural v => v

def inspectSlots : List Field → List (Option Value) → List String
  | _ :: fields, none :: slots => inspectSlots fields slots
  | f :: fields, some v :: slots => (f.name ++ ": " ++ v.inspect) :: inspectSlots fields slots
  | _, _ => []
termination_by structural _ slots => slots

def inspectItems : List Value → List String
  | [] => []
  | v :: rest => v.inspect :: inspectItems rest
termination_by structural vs => vs

def inspectEntries : List (MapKey × Value) → List String
  | [] => []
  | (k, v) :: rest => (k.inspect ++ ": " ++ v.inspect) :: inspectEntries rest
termination_by structural es => es

end

end Value

end RecordPath
