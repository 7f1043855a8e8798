import RecordPath.Json.Rendering
import RecordPath.Proofs.Decimal.Whole
import RecordPath.Proofs.Json.Declaration
import RecordPath.Proofs.Record.Defaults

namespace RecordPath

open Json (childrenNamed numbers)

def Field.display (f : Field) (v : Value) : Option Json :=
  if f.isPresent v then some (v.render f.enumName?) else none

/-- A value that stands for a JSON value in a field, by itself or as an element. -/
structure Field.Converts (f : Field) (kin : List Json) (j : Json) (v : Value) : Prop where
  accepted : ∀ w, f.acceptElement v = .ok w → w = v
  single : ∀ fresh w, f.accept fresh v = .ok w → f.cardinality = .single ∧ w = v
  render : v.render f.enumName? = j.normal kin
  present : f.cardinality = .single → f.isPresent v = !j.isBlank

theorem Field.Converts.display {f : Field} {kin : List Json} {j : Json} {v w : Value}
    {fresh : Ident} (h : f.Converts kin j v) (hw : f.accept fresh v = .ok w) :
    f.display w = j.kept kin := by
  obtain ⟨hc, rfl⟩ := h.single fresh w hw
  rw [Field.display, h.present hc, h.render, Json.kept]
  cases j.isBlank <;> rfl

theorem JsonNumber.among_of_tells {p : PlainShape} {ns : List JsonNumber} (h : p.Tells ns)
    (hp : p.isNumber = true) (n : JsonNumber) :
    n.among ns = if p = .float then .float n.toDouble else n := by
  rw [among, (h hp).1, (h hp).2]
  cases p <;> first | rfl | cases hp

section Plain

variable {f : Field} {kin : List Json} {p : PlainShape}

theorem converts_scalar {j : Json} {d v : Value} (haccept : f.acceptElement v = .ok v)
    (hv : v.ident? = none) (hrender : v.render f.enumName? = j.normal kin)
    (hdefault : f.cardinality = .single → f.default? = some d) (hblank : (d == v) = j.isBlank) :
    f.Converts kin j v where
  accepted w hw := by
    rw [haccept] at hw
    cases hw
    rfl
  single fresh w hw := by
    unfold Field.accept at hw
    split at hw
    · rw [haccept] at hw
      cases hw
      exact ⟨‹_›, rfl⟩
    · cases v with
      | list => cases hv
      | _ => cases hw
    · cases v with
      | map => cases hv
      | _ => cases hw
  render := hrender
  present hc := by rw [Field.isPresent_of_default hv (hdefault hc), hblank]

def PlainShape.zero : PlainShape → Value
  | bool => .bool false
  | string => .string ""
  | int => .int 0
  | uint => .uint 0
  | float => .float 0

theorem default?_of_plain (hk : f.kind = p.kind) (hc : f.cardinality = .single) :
    f.default? = some p.zero := by
  unfold Field.default?
  rw [if_pos hc]
  cases p <;> simp only [hk, PlainShape.kind, PlainShape.zero]

theorem enumName?_of_plain (hk : f.kind = p.kind) (n : Int64) : f.enumName? n = none := by
  unfold Field.enumName?
  cases p <;> simp only [hk, PlainShape.kind]

theorem acceptElement_of_plain {j : Json} {v : Value} (hk : f.kind = p.kind)
    (h : Json.plainValue? p.kind j = some v) : f.acceptElement v = .ok v := by
  unfold Json.plainValue? at h
  split at h
  case h_7 => cases h
  all_goals
    rename_i heq
    rw [heq] at hk
  -- integers are taken over where they fit
  case h_3 | h_4 =>
    obtain ⟨w, -, rfl⟩ := Option.map_eq_some_iff.1 h
    unfold Field.acceptElement
    rw [hk]
  all_goals
    cases h
    unfold Field.acceptElement
    rw [hk]

theorem zero_beq_int {n : Int} {w : Int64} (h : signed? n = some w) :
    (Value.int 0 == .int w) = (n == 0) := by
  change ((0 : Int64) == w) = _
  rw [← toInt_of_signed? h, Bool.eq_iff_iff, beq_iff_eq, beq_iff_eq, ← Int64.toInt_inj]
  exact eq_comm

theorem zero_beq_uint {n : Int} {w : UInt64} (h : unsigned? n = some w) :
    (Value.uint 0 == .uint w) = (n == 0) := by
  change ((0 : UInt64) == w) = _
  rw [← toNat_of_unsigned? h, Bool.eq_iff_iff, beq_iff_eq, beq_iff_eq, ← UInt64.toNat_inj,
    UInt64.toNat_zero]
  omega

/-- What a plain kind takes over is shown in its normal form. -/
theorem converts_plain {j : Json} {v : Value} (hk : f.kind = p.kind) (hp : p.Tells (numbers kin))
    (hr : j.Regular) (h : Json.plainValue? p.kind j = some v) : f.Converts kin j v := by
  have haccept := acceptElement_of_plain hk h
  have hdefault := default?_of_plain hk
  have hrange (n : JsonNumber) (hn : j = .number n) : n.InRange := by
    subst hn
    exact hr.wellFormed.inRange n (List.mem_singleton.2 rfl)
  unfold Json.plainValue? at h
  split at h <;> rename_i heq
  · cases h
    cases p <;> cases heq
    rename_i b
    exact converts_scalar haccept rfl rfl hdefault (by cases b <;> rfl)
  · cases h
    cases p <;> cases heq
    exact converts_scalar haccept rfl rfl hdefault rfl
  · obtain ⟨w, hw, rfl⟩ := Option.map_eq_some_iff.1 h
    cases p <;> cases heq
    refine converts_scalar haccept rfl ?_ hdefault (zero_beq_int hw)
    rw [Value.render, enumName?_of_plain hk, toInt_of_signed? hw, Json.normal,
      JsonNumber.among_of_tells hp rfl]
    rfl
  · obtain ⟨w, hw, rfl⟩ := Option.map_eq_some_iff.1 h
    cases p <;> cases heq
    refine converts_scalar haccept rfl ?_ hdefault (zero_beq_uint hw)
    rw [Value.render, toNat_of_unsigned? hw, Json.normal, JsonNumber.among_of_tells hp rfl]
    rfl
  · cases h
    cases p <;> cases heq
    rename_i n
    obtain ⟨hlo, hhi⟩ := hrange _ rfl
    refine converts_scalar haccept rfl ?_ hdefault (Decimal.zero_beq_ofInt hlo hhi)
    rw [Value.render, Value.floatJson, if_pos (Decimal.isFinite_ofInt hlo hhi), Json.normal,
      JsonNumber.among_of_tells hp rfl]
    rfl
  · cases h
    cases p <;> cases heq
    rename_i x
    have hfinite : Decimal.isFinite x = true := hrange _ rfl
    refine converts_scalar haccept rfl ?_ hdefault rfl
    rw [Value.render, Value.floatJson, if_pos hfinite, Json.normal,
      JsonNumber.among_of_tells hp rfl]
    rfl
  · cases h

end Plain

theorem Field.acceptElement_message {f : Field} {m : Message} {typeName : String} {w : Value}
    (hk : f.kind = .message typeName) (hw : f.acceptElement (.message m) = .ok w) :
    w = .message m := by
  unfold Field.acceptElement at hw
  rw [hk] at hw
  dsimp only at hw
  split at hw
  · rename_i u hu
    cases hw
    split at hu <;> cases hu
    rfl
  · cases hw

theorem converts_message {f : Field} {kin : List Json} {members : List (String × Json)}
    {m : Message} {typeName : String} (hk : f.kind = .message typeName)
    (hrender : (Value.message m).render f.enumName? = Json.normal kin (.object members)) :
    f.Converts kin (.object members) (.message m) where
  accepted w hw := Field.acceptElement_message hk hw
  single fresh w hw := by
    unfold Field.accept at hw
    split at hw
    · exact ⟨‹_›, Field.acceptElement_message hk hw⟩
    · cases hw
    · cases hw
  render := hrender
  present _ := rfl

theorem mapM_eq_self {α ε : Type} {f : α → Except ε α} {xs ys : List α}
    (hf : ∀ x ∈ xs, ∀ y, f x = .ok y → y = x) (h : xs.mapM f = .ok ys) : ys = xs := by
  induction xs generalizing ys with
  | nil =>
    cases h
    rfl
  | cons x rest ih =>
    obtain ⟨hx, hrest⟩ := List.forall_mem_cons.1 hf
    rw [List.mapM_cons] at h
    obtain ⟨y, hy, h⟩ := of_bind_eq_ok h
    obtain ⟨zs, hzs, h⟩ := of_bind_eq_ok h
    cases h
    rw [hx y hy, ih hrest hzs]

/-- A list whose elements are taken over as they are is shown with the normal forms of its items. -/
theorem display_list {f : Field} {kin js : List Json} {vs : List Value} {ident fresh : Ident}
    {w : Value} (haccept : ∀ v ∈ vs, ∀ w, f.acceptElement v = .ok w → w = v)
    (hrender : Value.renderItems vs f.enumName? = Json.normalItems kin js)
    (hempty : vs.isEmpty = js.all Json.isNull) (hw : f.accept fresh (.list ⟨ident, vs⟩) = .ok w) :
    f.display w = (Json.array js).kept kin := by
  have hlist : ∃ i, w = .list ⟨i, vs⟩ := by
    unfold Field.accept at hw
    split at hw
    · unfold Field.acceptElement at hw
      cases hk : f.kind <;> rw [hk] at hw <;> cases hw
    · obtain ⟨ws, hws, hw⟩ := of_bind_eq_ok hw
      cases mapM_eq_self haccept hws
      cases hw
      split
      · exact ⟨ident, rfl⟩
      · exact ⟨fresh, rfl⟩
    · cases hw
  obtain ⟨i, rfl⟩ := hlist
  rw [Field.display, Json.kept, Field.isPresent, Json.isBlank, ← hempty, Value.render, hrender,
    Json.normal]
  cases vs.isEmpty <;> rfl

end RecordPath
