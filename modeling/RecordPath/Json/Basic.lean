namespace RecordPath

inductive JsonNumber where
  /-- A number without fraction and exponent. -/
  | integer (value : Int)
  | float (value : Float)
  deriving DecidableEq, Repr

/-- A document. Where one is read, members come in the order of their names, no name twice. -/
inductive Json where
  | null
  | bool (value : Bool)
  | number (value : JsonNumber)
  | string (value : String)
  | array (items : List Json)
  | object (members : List (String × Json))
  deriving Repr

namespace Json

def insert {α : Type} (name : String) (value : α) : List (String × α) → List (String × α)
  | [] => [(name, value)]
  | m :: rest =>
    match compare name m.1 with
    | .lt => (name, value) :: m :: rest
    | .eq => (name, value) :: rest
    | .gt => m :: insert name value rest

/-- Members in the order of their names; of two with the same name the later counts. -/
def sorted {α : Type} (members : List (String × α)) : List (String × α) :=
  members.foldl (fun sorted m => insert m.1 m.2 sorted) []

def isNull (j : Json) : Bool := j matches null

end Json

end RecordPath
