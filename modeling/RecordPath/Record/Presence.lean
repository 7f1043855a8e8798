import RecordPath.Record.Equality

namespace RecordPath

def Field.default? (f : Field) : Option Value :=
  if f.cardinality = .single then
    match f.kind with
    | .bool => some (.bool false)
    | .string => some (.string "")
    | .int => some (.int 0)
    | .uint => some (.uint 0)
    | .float => some (.float 0)
    | .bytes => some (.bytes [])
    | .enum e => some (.int e.defaultOrdinal.toInt64)
    | .message _ => none
  else none

/-- Whether a stored value makes the field present: a scalar that differs from the default, a list
or map that is not empty, and any message. -/
def Field.isPresent (f : Field) : Value → Bool
  | .list l => !l.items.isEmpty
  | .map m => !m.entries.isEmpty
  | .message _ => true
  | v =>
    match f.default? with
    | some d => !(d == v)
    | none => true

namespace MessageOf

/-- What the message stores for its own field of the same place and name. -/
def stored? (m : Message) (f : Field) : Option Value :=
  match m.type.fields[f.index]? with
  | some own => if own.name = f.name then (m.slots[f.index]?).join else none
  | none => none

theorem slot_of_stored? {m : Message} {f : Field} {v : Value}
    (h : m.stored? f = some v) : m.slots[f.index]? = some (some v) := by
  unfold stored? at h
  split at h
  · split at h
    · exact Option.join_eq_some_iff.1 h
    · cases h
  · cases h

def has (m : Message) (f : Field) : Bool :=
  match m.stored? f with
  | none => false
  | some v => f.isPresent v

def hasAny (m : Message) : Bool := m.type.fields.any m.has

theorem hasAny_congr {m n : Message} (ht : n.type = m.type)
    (h : ∀ f ∈ m.type.fields, n.has f = m.has f) : n.hasAny = m.hasAny := by
  rw [hasAny, hasAny, ht, Bool.eq_iff_iff, List.any_eq_true, List.any_eq_true]
  exact exists_congr fun f => and_congr_right fun hf => by rw [h f hf]

/-- The value of a field. A list or map that is not stored reads as an empty one with the identity
`fresh`, and a scalar as its default; a message that is not stored has no value. -/
def getAs (m : Message) (f : Field) (fresh : Ident) : Option Value :=
  match m.stored? f with
  | some v => some v
  | none =>
    match f.cardinality with
    | .repeated => some (.list ⟨fresh, []⟩)
    | .map kind => some (.map ⟨fresh, kind, []⟩)
    | .single => f.default?

def isVacant (m : Message) (f : Field) : Bool :=
  (m.stored? f).isNone && !(f.cardinality matches .single)

def get (m : Message) (f : Field) : Alloc (Option Value) :=
  return m.getAs f (← Ident.freshIf (m.isVacant f))

def present (m : Message) : List (Field × Value) :=
  m.type.fields.filterMap fun f =>
    if m.has f then (m.stored? f).map fun v => (f, v) else none

end MessageOf

end RecordPath
