import RecordPath.Eval.Evaluation
import RecordPath.Eval.Typing
import RecordPath.Search.Note

namespace RecordPath

/-- A value that the step of number `step` is to be applied to, and the field it was read from. -/
structure Pending where
  step : Nat
  value : Value
  field : Option Field

def Pending.fieldName (p : Pending) : String := (p.field.map Field.name).getD "-"

structure Expansion where
  pushes : List Pending
  notes : List Note

namespace Expansion

def none : Expansion := ⟨[], []⟩

def push (p : Pending) : Expansion := ⟨[p], []⟩

def note (n : Note) : Expansion := ⟨[], [n]⟩

end Expansion

namespace Field

def renameOrdinal (f : Field) : Value → Value
  | .int n =>
    match f.enumName? n with
    | some name => .string name
    | none => .int n
  | v => v

/-- A value read from the field, with ordinals as names. The list or map that results is a new one
with the identity `fresh`. -/
def nameOrdinals (f : Field) (fresh : Ident) (v : Value) : Value :=
  if f.isEnum then
    match v with
    | .list l => .list ⟨fresh, l.items.map f.renameOrdinal⟩
    | .map m => .map ⟨fresh, m.keyKind, m.entries.map fun e => (e.1, f.renameOrdinal e.2)⟩
    | v => f.renameOrdinal v
  else v

def renames (f : Field) (v : Value) : Bool := f.isEnum && (v matches .list _ | .map _)

end Field

def Value.records : Value → List Message
  | message m => [m]
  | list l => l.items.filterMap toMessage?
  | _ => []

/-- Reads the fields, which all have a value save for messages that are not there. -/
def readFields (next : Nat) : List (Message × Field) → Alloc (List Pending)
  | [] => return []
  | (m, f) :: rest => do
    match ← m.get f with
    | some v =>
      let renamed ← Ident.freshIf (f.renames v)
      return ⟨next, f.nameOrdinals renamed v, some f⟩ :: (← readFields next rest)
    | none => readFields next rest

def selectFields (next : Nat) (name : String) (v : Value) : Alloc (List Pending) :=
  readFields next (v.records.flatMap fun m => (m.type.fieldsNamed name).map fun f => (m, f))

def indexIn (length : Nat) : Scalar → Except EvalError Nat
  | .int n =>
    if 0 ≤ n.toInt ∧ n.toInt < length then .ok n.toInt.toNat else .error .indexOutOfRange
  | v => .error (.typeMismatch (.index v.type))

def holds : Except EvalError Scalar → Bool
  | .ok (.bool b) => b
  | _ => false

namespace Context

def atElement (ctx : Context) (v : Value) (i : Nat) : Context :=
  { ctx with this := v, index := some i }

def outcomes (ctx : Context) (expr : Expr) (items : List Value) :
    List ((Value × Nat) × Except EvalError Scalar) :=
  items.zipIdx.map fun p => (p, expr.eval (ctx.atElement p.1 p.2))

end Context

namespace Pending

/-- Passes on the elements that a test holds of, as a list with the identity `fresh`, unless there
are none. -/
def filterList (p : Pending) (expr : Expr) (ctx : Context) (l : ListValue) (fresh : Ident) :
    Expansion :=
  let outcomes := ctx.outcomes expr l.items
  let kept := (outcomes.filter fun o => holds o.2).map fun o => o.1.1
  { pushes := if kept.isEmpty then [] else [⟨p.step + 1, .list ⟨fresh, kept⟩, p.field⟩]
    notes := outcomes.filterMap fun o =>
      match o.2 with
      | .error e => some (.dropped o.1.2 p.fieldName e)
      | .ok _ => none }

/-- A key step on a list: a boolean expression filters it, an integer picks an element. Which of
the two it is, is decided once for the whole list. -/
def keyList (p : Pending) (expr : Expr) (l : ListValue) (fresh : Ident) : Expansion :=
  let ctx : Context := { this := p.value, presence := expr.isPresenceTest }
  let skip (reason : SkipReason) : Expansion := .note (.skipped expr (.list p.fieldName) reason)
  match expr.typeIn ctx with
  | .ok .bool => p.filterList expr ctx l fresh
  | .ok .int =>
    match expr.eval ctx >>= indexIn l.items.length with
    | .ok i =>
      match l.items[i]? with
      | some v => .push ⟨p.step + 1, v, p.field⟩
      | none => .none
    | .error e => skip (.error e)
  | .ok t => skip (.keyType t)
  | .error e => skip (.error e)

def keyMap (p : Pending) (expr : Expr) (m : MapValue) : Expansion :=
  let key := do
    let v ← expr.eval { this := p.value }
    match MapKey.ofValue? m.keyKind (.ofScalar v) with
    | some k => .ok k
    | none => .error EvalError.invalidMapKey
  match key with
  | .ok k =>
    match m.get? k with
    | some v => .push ⟨p.step + 1, v, p.field⟩
    | none => .note (.missingKey p.fieldName k)
  | .error e => .note (.skipped expr (.map p.fieldName) (.error e))

def keyBytes (p : Pending) (expr : Expr) (bs : List UInt8) : Expansion :=
  let ctx : Context := { this := p.value }
  let index :=
    match expr.typeIn ctx with
    | .ok .int => expr.eval ctx >>= indexIn bs.length
    | .ok t => .error (.typeMismatch (.bytesIndex t))
    | .error e => .error e
  match index with
  | .ok i =>
    match bs[i]? with
    | some b => .push ⟨p.step + 1, .uint b.toUInt64, .none⟩
    | none => .none
  | .error e => .note (.skipped expr (.bytes p.fieldName) (.error e))

/-- A single record is kept or dropped, by the presence of its fields alone. -/
def keySingle (p : Pending) (expr : Expr) : Expansion :=
  let skip (reason : SkipReason) : Expansion :=
    .note (.skipped expr (.single p.value.kindName) reason)
  match expr.eval { this := p.value, presence := true } with
  | .ok (.bool true) => .push ⟨p.step + 1, p.value, p.field⟩
  | .ok (.bool false) => .none
  | .ok v => skip (.yielded v.type)
  | .error e => skip (.error e)

def applyKey (p : Pending) (expr : Expr) (fresh : Ident) : Expansion :=
  match p.value with
  | .list l => p.keyList expr l fresh
  | .map m => p.keyMap expr m
  | .bytes bs => p.keyBytes expr bs
  | _ => p.keySingle expr

def filters (p : Pending) (expr : Expr) : Bool :=
  match p.value with
  | .list l =>
    let ctx : Context := { this := p.value, presence := expr.isPresenceTest }
    match expr.typeIn ctx with
    | .ok .bool => (ctx.outcomes expr l.items).any fun o => holds o.2
    | _ => false
  | _ => false

/-- A record goes on to the next step, and all that holds records stays at this one. -/
def descend (p : Pending) : List Pending :=
  match p.value with
  | .message m =>
    ⟨p.step + 1, p.value, p.field⟩ ::
      (m.present.filter (·.2.isContainer)).map fun x => ⟨p.step, x.2, some x.1⟩
  | .list l => (l.items.filter Value.isContainer).map fun v => ⟨p.step, v, p.field⟩
  | .map m => ((m.entries.map (·.2)).filter Value.isContainer).map fun v => ⟨p.step, v, p.field⟩
  | _ => []

def expand (p : Pending) : Step → Alloc Expansion
  | .root | .self => return .push ⟨p.step + 1, p.value, p.field⟩
  | .field name => return ⟨← selectFields (p.step + 1) name p.value, []⟩
  | .key expr => return p.applyKey expr (← Ident.freshIf (p.filters expr))
  | .descend => return ⟨p.descend, []⟩

end Pending

end RecordPath
