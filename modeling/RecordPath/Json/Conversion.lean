import RecordPath.Json.Printer
import RecordPath.Json.Shape
import RecordPath.Record.Builder

namespace RecordPath

inductive ConversionError where
  | unsupported (cause : Unsupported)
  | record (e : RecordError)
  deriving DecidableEq, Repr

/-- Message types by name; of two with one name the first in the list counts. -/
abbrev TypeTable := List (String × MessageType)

def PlainShape.kind : PlainShape → FieldKind
  | bool => .bool
  | string => .string
  | int => .int
  | uint => .uint
  | float => .float

namespace Shape

def enter (name : String) (fields : List (String × Cardinality × FieldKind)) (types : TypeTable) :
    Except RecordError (MessageType × TypeTable) := do
  let t ← MessageType.declare name fields
  return (t, (name, t) :: types)

def cardinality (repeated : Bool) : Cardinality := if repeated then .repeated else .single

mutual

/-- What a field of this shape holds. The types of objects are entered into the table on the way,
the inner ones first. -/
def declare (typeName : String) : Shape → TypeTable → Except RecordError (FieldKind × TypeTable)
  | plain p, types => .ok (p.kind, types)
  | object members, types => do
    let (fields, types) ← declareFields typeName members types
    let (_, types) ← enter typeName fields types
    return (.message typeName, types)
termination_by structural s => s

/-- Lists of which no element was seen hold strings. -/
def declareElement (typeName : String) :
    Option Shape → TypeTable → Except RecordError (FieldKind × TypeTable)
  | none, types => .ok (.string, types)
  | some s, types => declare typeName s types
termination_by structural s => s

def declareFields (typeName : String) :
    List (String × MemberShape) → TypeTable →
      Except RecordError (List (String × Cardinality × FieldKind) × TypeTable)
  | [], types => .ok ([], types)
  | (name, ⟨repeated, element⟩) :: rest, types => do
    let (kind, types) ← declareElement (memberPath typeName name) element types
    let (fields, types) ← declareFields typeName rest types
    return ((name, cardinality repeated, kind) :: fields, types)
termination_by structural members => members

end

end Shape

namespace Json

abbrev Convert := StateT Nat (Except ConversionError)

def ofAlloc {α : Type} (action : Alloc α) : Convert α := fun supply => .ok (action.run supply)

def plainValue? (kind : FieldKind) (j : Json) : Option Value :=
  match kind, j with
  | .bool, bool b => some (.bool b)
  | .string, string s => some (.string s)
  | .int, number (.integer n) => (signed? n).map .int
  | .uint, number (.integer n) => (unsigned? n).map .uint
  | .float, number (.integer n) => some (.float (Float.ofInt n))
  | .float, number (.float x) => some (.float x)
  | _, _ => none

mutual

/-- Sets the fields for the members that the type of the message declares. -/
def setMembers (types : TypeTable) (b : Builder) : List (String × Json) → Convert Builder
  | [] => return b
  | (name, j) :: rest => do
    match b.type.field? name, j with
    | none, _ | some _, null => setMembers types b rest
    | some f, array items => do
      let list ← ofAlloc (Value.newList (← elements types f items))
      setMembers types (← ofAlloc (b.set name list)) rest
    | some f, j => do
      let v ← element types f j
      setMembers types (← ofAlloc (b.set name v)) rest
termination_by structural ms => ms

def element (types : TypeTable) (f : Field) : Json → Convert Value
  | object members => do
    match f.kind with
    | .message typeName =>
      match types.lookup typeName with
      | none => throw (.unsupported (.unfit (object members).compact f.name))
      | some t => do
        let b ← setMembers types (.start t) members
        match ← ofAlloc b.build with
        | .ok m => return .message m
        | .error e => throw (.record e)
    | _ => throw (.unsupported (.unfit (object members).compact f.name))
  | j =>
    match plainValue? f.kind j with
    | some v => return v
    | none => throw (.unsupported (.unfit j.compact f.name))
termination_by structural j => j

def elements (types : TypeTable) (f : Field) : List Json → Convert (List Value)
  | [] => return []
  | null :: rest => elements types f rest
  | j :: rest => do
    let v ← element types f j
    return v :: (← elements types f rest)
termination_by structural js => js

end

def rootType : String := "Root"

/-- The record that a document stands for. Every object becomes a message of a type that is named
for the path of the object. -/
def toRecord (j : Json) : Convert Message := do
  match j with
  | object members =>
    match Shape.ofMembers rootType members with
    | .error e => throw (.unsupported e)
    | .ok shape =>
      let declared := do
        let (fields, types) ← Shape.declareFields rootType shape []
        Shape.enter rootType fields types
      match declared with
      | .error e => throw (.record e)
      | .ok (root, types) => do
        let b ← setMembers types (.start root) members
        match ← ofAlloc b.build with
        | .ok m => return m
        | .error e => throw (.record e)
  | _ => throw (.unsupported .rootNotObject)

end Json

end RecordPath
