import RecordPath.Json.Basic
import RecordPath.Word

namespace RecordPath

inductive PlainShape where
  | bool
  | string
  | int
  | uint
  | float
  deriving DecidableEq, Repr

namespace PlainShape

def isNumber (p : PlainShape) : Bool := p matches int | uint | float

/-- The shape that two values have together; numbers of different kinds are floats. -/
def join? (p q : PlainShape) : Option PlainShape :=
  if p = q then some p
  else if p.isNumber && q.isNumber then some float
  else none

/-- Integers are signed where they fit, then unsigned, and floats beyond that. -/
def ofNumber : JsonNumber → PlainShape
  | .integer n =>
    if (signed? n).isSome then int
    else if (unsigned? n).isSome then uint
    else float
  | .float _ => float

end PlainShape

structure MemberShapeOf (σ : Type) where
  repeated : Bool
  /-- Nothing is known of the elements while only empty lists have been seen. -/
  element : Option σ

inductive Shape where
  | plain (shape : PlainShape)
  /-- The members in the order of their first appearance. -/
  | object (members : List (String × MemberShapeOf Shape))

abbrev MemberShape := MemberShapeOf Shape

inductive Unsupported where
  | listAndSingle (path : String)
  | nestedArray (path : String)
  | mixedKinds (path : String)
  | unfit (document : String) (field : String)
  | rootNotObject
  deriving DecidableEq, Repr

def Unsupported.message : Unsupported → String
  | listAndSingle path => "'" ++ path ++ "' is both a list and a single value"
  | nestedArray path => "nested array at '" ++ path ++ "'"
  | mixedKinds path => "'" ++ path ++ "' holds values of different kinds"
  | unfit document field => document ++ " does not fit field '" ++ field ++ "'"
  | rootNotObject => "the document root must be an object"

namespace Shape

def memberPath (path name : String) : String := path ++ "." ++ name

def update (name : String) (m : MemberShape) (members : List (String × MemberShape)) :
    List (String × MemberShape) :=
  members.map fun old => if old.1 = name then (name, m) else old

mutual

/-- The shape that two values at one path have together. -/
def merge (path : String) : Shape → Shape → Except Unsupported Shape
  | object as, object bs => object <$> mergeMembers path as bs
  | plain p, plain q =>
    match p.join? q with
    | some r => .ok (plain r)
    | none => .error (.mixedKinds path)
  | _, _ => .error (.mixedKinds path)
termination_by structural _ b => b

def mergeElement (path : String) : Option Shape → Option Shape → Except Unsupported (Option Shape)
  | none, b => .ok b
  | a, none => .ok a
  | some a, some b => some <$> merge path a b
termination_by structural _ b => b

/-- Adds members one by one, new ones at the end. -/
def mergeMembers (path : String) (as : List (String × MemberShape)) :
    List (String × MemberShape) → Except Unsupported (List (String × MemberShape))
  | [] => .ok as
  | (name, ⟨repeated, element⟩) :: rest =>
    match as.lookup name with
    | none => mergeMembers path (as ++ [(name, ⟨repeated, element⟩)]) rest
    | some old =>
      if old.repeated ≠ repeated then .error (.listAndSingle (memberPath path name))
      else do
        let merged ← mergeElement (memberPath path name) old.element element
        mergeMembers path (update name ⟨repeated, merged⟩ as) rest
termination_by structural bs => bs

end

mutual

/-- The shape of a member with this value; a null says nothing. -/
def ofMember (path : String) : Json → Except Unsupported (Option MemberShape)
  | .null => .ok none
  | .bool _ => .ok (some ⟨false, some (plain .bool)⟩)
  | .string _ => .ok (some ⟨false, some (plain .string)⟩)
  | .number n => .ok (some ⟨false, some (plain (.ofNumber n))⟩)
  | .object members => do
    return some ⟨false, some (object (← ofMembers path members))⟩
  | .array items => do return some ⟨true, ← ofItems path none items⟩
termination_by structural j => j

def ofItems (path : String) (known : Option Shape) : List Json → Except Unsupported (Option Shape)
  | [] => .ok known
  | .array _ :: _ => .error (.nestedArray path)
  | j :: rest => do
    let m ← ofMember path j
    ofItems path (← mergeElement path known (m.bind (·.element))) rest
termination_by structural js => js

def ofMembers (path : String) :
    List (String × Json) → Except Unsupported (List (String × MemberShape))
  | [] => .ok []
  | (name, j) :: rest => do
    match ← ofMember (memberPath path name) j with
    | none => ofMembers path rest
    | some m => return (name, m) :: (← ofMembers path rest)
termination_by structural ms => ms

end

end Shape

end RecordPath
