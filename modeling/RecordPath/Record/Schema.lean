import RecordPath.Record.Error

namespace RecordPath

inductive KeyKind where
  | bool
  | string
  | int
  | uint
  deriving DecidableEq, Repr

def KeyKind.name : KeyKind → String
  | bool => "bool"
  | string => "string"
  | int => "int"
  | uint => "uint"

structure EnumType where
  name : String
  values : List (String × Int32)
  deriving DecidableEq, Repr

namespace EnumType

def nameOf? (e : EnumType) (ordinal : Int64) : Option String :=
  (e.values.find? fun v => v.2.toInt64 = ordinal).map (·.1)

def ordinalOf? (e : EnumType) (name : String) : Option Int32 :=
  (e.values.find? fun v => v.1 = name).map (·.2)

/-- The ordinal that is declared first, or 0 where none is. -/
def defaultOrdinal (e : EnumType) : Int32 := (e.values.head?.map (·.2)).getD 0

end EnumType

inductive FieldKind where
  | bool
  | string
  | int
  | uint
  | float
  | bytes
  | enum (type : EnumType)
  /-- A message, whose type is given by name so that types may refer to themselves. -/
  | message (typeName : String)
  deriving DecidableEq, Repr

def FieldKind.text : FieldKind → String
  | bool => "bool"
  | string => "string"
  | int => "int"
  | uint => "uint"
  | float => "float"
  | bytes => "bytes"
  | enum e => "enum " ++ e.name
  | message name => "message " ++ name

inductive Cardinality where
  | single
  | repeated
  | map (key : KeyKind)
  deriving DecidableEq, Repr

structure Field where
  name : String
  /-- The place of the field among the fields of its message type. -/
  index : Nat
  kind : FieldKind
  cardinality : Cardinality
  deriving DecidableEq, Repr

namespace Field

def isRepeated (f : Field) : Bool := f.cardinality = .repeated

def isMap (f : Field) : Bool := f.cardinality matches .map _

def isMessage (f : Field) : Bool := f.kind matches .message _

def isEnum (f : Field) : Bool := f.kind matches .enum _

def isScalar (f : Field) : Bool := f.cardinality = .single && !f.isMessage

/-- The name of an ordinal, where the field holds an enumeration that declares one. -/
def enumName? (f : Field) (ordinal : Int64) : Option String :=
  match f.kind with
  | .enum e => e.nameOf? ordinal
  | _ => none

end Field

/-- A message type numbers its fields in order and gives no name twice. -/
structure MessageType where
  name : String
  fields : List Field
  index_eq : ∀ (i : Nat) (h : i < fields.length), fields[i].index = i
  nodup : (fields.map Field.name).Nodup
  deriving DecidableEq

namespace MessageType

def firstRepeat? (seen : List String) : List String → Option String
  | [] => none
  | s :: rest => if s ∈ seen then some s else firstRepeat? (s :: seen) rest

theorem nodup_of_firstRepeat? {seen names : List String} (h : firstRepeat? seen names = none) :
    names.Nodup ∧ ∀ s ∈ names, s ∉ seen := by
  induction names generalizing seen with
  | nil => simp
  | cons s rest ih =>
    simp only [firstRepeat?] at h
    split at h
    · cases h
    · rename_i hs
      obtain ⟨hn, hd⟩ := ih h
      refine ⟨List.nodup_cons.2 ⟨fun hm => hd s hm (by simp), hn⟩, ?_⟩
      intro t ht
      rcases List.mem_cons.1 ht with rfl | ht
      · exact hs
      · exact fun hm => hd t ht (by simp [hm])

def number (fields : List (String × Cardinality × FieldKind)) : List Field :=
  fields.mapIdx fun i (name, cardinality, kind) => { name, index := i, kind, cardinality }

def declare (name : String) (fields : List (String × Cardinality × FieldKind)) :
    Except RecordError MessageType :=
  match h : firstRepeat? [] (fields.map (·.1)) with
  | some field => .error (.duplicateField name field)
  | none =>
    .ok
      { name
        fields := number fields
        index_eq := by intro i hi; simp [number]
        nodup := by
          have hn : (number fields).map Field.name = fields.map (·.1) := by
            apply List.ext_getElem <;> simp [number]
          rw [hn]
          exact (nodup_of_firstRepeat? h).1 }

def field? (t : MessageType) (name : String) : Option Field := t.fields.find? fun f => f.name = name

/-- The fields that a step selects: the one of that name, or all of them for `*`. -/
def fieldsNamed (t : MessageType) (name : String) : List Field :=
  if name = "*" then t.fields else (t.field? name).toList

end MessageType

end RecordPath
