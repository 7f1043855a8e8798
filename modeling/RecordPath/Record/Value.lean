import RecordPath.Record.Schema
import RecordPath.Scalar
import RecordPath.Text.Utf8
import RecordPath.Word

namespace RecordPath

/-- An identity, by the number of the draw from the counter that it came of. The numbers have no
end; what a program has of an identity is `shown`. -/
structure Ident where
  number : Nat
  deriving DecidableEq, Hashable, Repr

/-- The identity as a program has it, whose counter has 64 bits and begins again at zero: draws that
are `2 ^ 64` apart show the same identity. -/
def Ident.shown (i : Ident) : Ident := ⟨i.number % UInt64.size⟩

/-- Computations that draw identities; the state is the first number that is still free. -/
abbrev Alloc := StateM Nat

def Ident.fresh : Alloc Ident := modifyGet fun n => (⟨n⟩, n + 1)

/-- An identity for something that may turn out not to be made; it stays free then. -/
def Ident.freshIf (needed : Bool) : Alloc Ident := modifyGet fun n => (⟨n⟩, n + needed.toNat)

inductive MapKey where
  | bool (value : Bool)
  | int (value : Int64)
  | uint (value : UInt64)
  | string (value : String)
  deriving DecidableEq, Repr

namespace MapKey

def kind : MapKey → KeyKind
  | bool _ => .bool
  | int _ => .int
  | uint _ => .uint
  | string _ => .string

def text : MapKey → String
  | bool b => boolText b
  | int n => toString n.toInt
  | uint n => toString n.toNat
  | string s => s

def rank : MapKey → Nat
  | bool _ => 0
  | int _ => 1
  | uint _ => 2
  | string _ => 3

def compare : MapKey → MapKey → Ordering
  | bool a, bool b => Ord.compare a b
  | int a, int b => Ord.compare a.toInt b.toInt
  | uint a, uint b => Ord.compare a.toNat b.toNat
  | string a, string b => Ord.compare a b
  | a, b => Ord.compare a.rank b.rank

end MapKey

/-- A message has a slot for every field of its type. -/
structure MessageOf (α : Type) where
  ident : Ident
  type : MessageType
  slots : List (Option α)

structure ListOf (α : Type) where
  ident : Ident
  items : List α

/-- The entries of a map are in key order. -/
structure MapOf (α : Type) where
  ident : Ident
  keyKind : KeyKind
  entries : List (MapKey × α)

inductive Value where
  | bool (value : Bool)
  | int (value : Int64)
  | uint (value : UInt64)
  | float (value : Float)
  | string (value : String)
  | bytes (value : List UInt8)
  | message (value : MessageOf Value)
  | list (value : ListOf Value)
  | map (value : MapOf Value)

abbrev Message := MessageOf Value

abbrev ListValue := ListOf Value

abbrev MapValue := MapOf Value

namespace MapOf

variable {α : Type}

def insert (key : MapKey) (value : α) : List (MapKey × α) → List (MapKey × α)
  | [] => [(key, value)]
  | e :: rest =>
    match key.compare e.1 with
    | .lt => (key, value) :: e :: rest
    | .eq => (key, value) :: rest
    | .gt => e :: insert key value rest

def get? (m : MapOf α) (key : MapKey) : Option α := (m.entries.find? fun e => e.1 = key).map (·.2)

/-- Collects entries whose keys are all of one kind; of two with the same key the later counts. -/
def collect (kind : KeyKind) :
    List (MapKey × α) → List (MapKey × α) → Except RecordError (List (MapKey × α))
  | sorted, [] => .ok sorted
  | sorted, (key, value) :: rest =>
    if key.kind = kind then collect kind (insert key value sorted) rest
    else .error (.kindMismatch key.text (kind.name ++ " map key") key.kind.name)

end MapOf

namespace Value

def ofScalar : Scalar → Value
  | .bool b => bool b
  | .string s => string s
  | .int n => int n
  | .float x => float x

def kindName : Value → String
  | bool _ => "bool"
  | int _ => "int"
  | uint _ => "uint"
  | float _ => "float"
  | string _ => "string"
  | bytes _ => "bytes"
  | message _ => "message"
  | list _ => "list"
  | map _ => "map"

/-- The type of a value in expressions, where unsigned integers count as integers and bytes as
text. -/
def scalarType? : Value → Option ScalarType
  | bool _ => some .bool
  | int _ | uint _ => some .int
  | float _ => some .float
  | string _ | bytes _ => some .string
  | message _ | list _ | map _ => none

/-- The value as expressions see it. Unsigned integers beyond the signed range have no such
form. -/
def toScalar? : Value → Option Scalar
  | bool b => some (.bool b)
  | int n => some (.int n)
  | uint n => (signed? n.toNat).map .int
  | float x => some (.float x)
  | string s => some (.string s)
  | bytes bs => some (.string (String.ofList (Text.decodeUtf8 bs)))
  | message _ | list _ | map _ => none

def ident? : Value → Option Ident
  | message m => some m.ident
  | list l => some l.ident
  | map m => some m.ident
  | _ => none

def shown? (v : Value) : Option Ident := v.ident?.map Ident.shown

def isContainer (v : Value) : Bool := v matches message _ | list _ | map _

def toBool? : Value → Option Bool
  | bool b => some b
  | _ => none

def toInt? : Value → Option Int64
  | int n => some n
  | uint n => signed? n.toNat
  | _ => none

def toFloat? : Value → Option Float
  | int n => some (Float.ofInt n.toInt)
  | uint n => some (Float.ofNat n.toNat)
  | float x => some x
  | _ => none

def toString? : Value → Option String
  | string s => some s
  | _ => none

def toMessage? : Value → Option Message
  | message m => some m
  | _ => none

def isList (v : Value) : Bool := v matches list _

def newList (items : List Value) : Alloc Value := do
  return list ⟨← Ident.fresh, items⟩

end Value

def MapValue.create (kind : KeyKind) (entries : List (MapKey × Value)) :
    Alloc (Except RecordError MapValue) := do
  match MapOf.collect kind [] entries with
  | .ok sorted => return .ok ⟨← Ident.fresh, kind, sorted⟩
  | .error e => return .error e

/-- The key of a given kind that a value stands for. Integers change sign type where they fit. -/
def MapKey.ofValue? (kind : KeyKind) : Value → Option MapKey
  | .bool b => if kind = .bool then some (.bool b) else none
  | .string s => if kind = .string then some (.string s) else none
  | .int n =>
    match kind with
    | .int => some (.int n)
    | .uint => (unsigned? n.toInt).map .uint
    | _ => none
  | .uint n =>
    match kind with
    | .uint => some (.uint n)
    | .int => (signed? n.toNat).map .int
    | _ => none
  | _ => none

end RecordPath
