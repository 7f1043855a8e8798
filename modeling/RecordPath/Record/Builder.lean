import RecordPath.Record.Presence

namespace RecordPath

namespace Field

def mismatch (f : Field) (expected : String) (found : Value) : RecordError :=
  .kindMismatch f.name expected found.kindName

/-- A single value as the field stores it, if its kind allows it. What changes without loss is
changed: integers between the sign types, integers to doubles, and names to ordinals. -/
def acceptElement (f : Field) (v : Value) : Except RecordError Value :=
  let accepted : Option Value :=
    match f.kind, v with
    | .bool, .bool b => some (.bool b)
    | .string, .string s => some (.string s)
    | .bytes, .bytes bs => some (.bytes bs)
    | .int, .int n => some (.int n)
    | .int, .uint n => (signed? n.toNat).map .int
    | .uint, .uint n => some (.uint n)
    | .uint, .int n => (unsigned? n.toInt).map .uint
    | .float, .float x => some (.float x)
    | .float, .int n => some (.float (Float.ofInt n.toInt))
    | .enum _, .int n => some (.int n)
    | .enum e, .string s => (e.ordinalOf? s).map fun n => .int n.toInt64
    | .message name, .message m => if m.type.name = name then some (.message m) else none
    | _, _ => none
  match accepted with
  | some w => .ok w
  | none => .error (f.mismatch f.kind.text v)

/-- A value as the field stores it. A list whose elements had to change becomes a new one with the
identity `fresh`; the values of a map stay as they are. -/
def accept (f : Field) (fresh : Ident) (v : Value) : Except RecordError Value :=
  match f.cardinality with
  | .single => f.acceptElement v
  | .repeated =>
    match v with
    | .list l => do
      let items ← l.items.mapM f.acceptElement
      return if Value.sameItems items l.items then v else .list ⟨fresh, items⟩
    | _ => .error (f.mismatch "list" v)
  | .map kind =>
    match v with
    | .map m =>
      if m.keyKind = kind then do
        let _ ← m.entries.mapM fun e => f.acceptElement e.2
        return v
      else .error (f.mismatch (mapText kind) v)
    | _ => .error (f.mismatch (mapText kind) v)
where
  mapText (kind : KeyKind) : String := "map<" ++ kind.name ++ ", " ++ f.kind.text ++ ">"

/-- Whether the field stores a new list in place of the value. -/
def remakes (f : Field) (v : Value) : Bool :=
  match f.cardinality, v with
  | .repeated, .list l =>
    match l.items.mapM f.acceptElement with
    | .ok items => !Value.sameItems items l.items
    | .error _ => false
  | _, _ => false

end Field

structure Builder where
  type : MessageType
  slots : List (Option Value)
  fault : Option RecordError

namespace Builder

def start (type : MessageType) : Builder where
  type
  slots := List.replicate type.fields.length none
  fault := none

/-- Sets a field; `fresh` is the identity for a list that has to be made anew. -/
def put (b : Builder) (fresh : Ident) (name : String) (v : Value) : Builder :=
  match b.fault with
  | some _ => b
  | none =>
    match b.type.field? name with
    | none => { b with fault := some (.unknownField b.type.name name) }
    | some f =>
      match f.accept fresh v with
      | .ok w => { b with slots := b.slots.set f.index (some w) }
      | .error e => { b with fault := some e }

def remakes (b : Builder) (name : String) (v : Value) : Bool :=
  b.fault.isNone && (b.type.field? name).any (·.remakes v)

def set (b : Builder) (name : String) (v : Value) : Alloc Builder :=
  return b.put (← Ident.freshIf (b.remakes name v)) name v

def build (b : Builder) : Alloc (Except RecordError Message) := do
  match b.fault with
  | some e => return .error e
  | none => return .ok ⟨← Ident.fresh, b.type, b.slots⟩

theorem of_build_eq_ok {b : Builder} {m : Message} {n k : Nat}
    (h : b.build.run n = (.ok m, k)) : m = ⟨⟨n⟩, b.type, b.slots⟩ ∧ k = n + 1 := by
  obtain ⟨type, slots, fault⟩ := b
  cases fault with
  | some e => cases h
  | none =>
    cases h
    exact ⟨rfl, rfl⟩

end Builder

def MessageOf.empty (type : MessageType) : Alloc Message :=
  return ⟨← Ident.fresh, type, List.replicate type.fields.length none⟩

end RecordPath
