import RecordPath.Eval.Typing
import RecordPath.Proofs.Eval.Properties
import RecordPath.Proofs.Record.Fits

namespace RecordPath

/-- The names of the properties in an expression. The arguments of calls are never evaluated. -/
def Expr.names : Expr → List String
  | literal _ | call .. => []
  | property name => [name]
  | unary _ e => e.names
  | binary _ l r => l.names ++ r.names
termination_by structural e => e

/-- Every single field of the record at hand that is among the names and holds an enumeration
holds, or defaults to, an ordinal that is declared. -/
def Context.DeclaresOrdinals (ctx : Context) (names : List String) : Prop :=
  ∀ m, ctx.this = .message m → ∀ f ∈ m.type.fields, f.name ∈ names → f.cardinality = .single →
    ∀ e, f.kind = .enum e → ∀ n, (m.stored? f).or f.default? = some (.int n) →
      (e.nameOf? n).isSome

theorem Context.DeclaresOrdinals.mono {ctx : Context} {names names' : List String}
    (h : ctx.DeclaresOrdinals names) (hsub : ∀ s ∈ names', s ∈ names) :
    ctx.DeclaresOrdinals names' :=
  fun m hm f hf hn => h m hm f hf (hsub _ hn)

/-- A value in the form of its kind has the type that is foretold, save for ordinals. -/
theorem FieldKind.Fits.scalarType {f : Field} {v : Value} {s : Scalar} (h : f.kind.Fits v)
    (hc : f.cardinality = .single) (he : f.isEnum = false) (hs : v.toScalar? = some s) :
    f.scalarType = .ok s.type := by
  unfold Field.scalarType
  rw [if_pos hc]
  unfold Field.isEnum at he
  cases hk : f.kind <;> rw [hk] at h he
  -- a record has no scalar, and an unsigned integer has one where it fits a signed one
  case enum => cases he
  case message =>
    obtain ⟨m, rfl, -⟩ := h
    cases hs
  case uint =>
    obtain ⟨n, rfl⟩ := h
    rw [Value.toScalar?] at hs
    obtain ⟨w, -, rfl⟩ := Option.map_eq_some_iff.1 hs
    rfl
  all_goals
    obtain ⟨a, rfl⟩ := h
    cases hs
    rfl

theorem MessageOf.scalarType_of_scalar {m : Message} {f : Field} {s : Scalar}
    (ha : SlotsAccepted m.type m.slots) (hf : f ∈ m.type.fields) (hc : f.cardinality = .single)
    (hd : ∀ e, f.kind = .enum e → ∀ n, (m.stored? f).or f.default? = some (.int n) →
      (e.nameOf? n).isSome) (h : m.scalar f = .ok s) : f.scalarType = .ok s.type := by
  unfold scalar at h
  split at h
  · cases h
  · rename_i v hv
    have hfits := ha.fits hf hc hv
    split at h
    · rename_i e n hk
      obtain ⟨name, hn⟩ := Option.isSome_iff_exists.1 (hd e hk n hv)
      rw [hn] at h
      cases h
      simp [Field.scalarType, hc, hk, Scalar.type]
    · rename_i hne
      split at h
      · rename_i s' hs
        cases h
        refine hfits.scalarType hc ?_ hs
        -- an ordinal would have gone the other way
        cases hk : f.kind <;> rw [hk] at hfits <;> simp [Field.isEnum, hk]
        obtain ⟨n, rfl⟩ := hfits
        exact hne _ _ hk rfl
      · cases h

namespace Context

variable {ctx : Context}

/-- What a property that has a value can be: the wildcard, whether a field is present, or the value
of a field that holds a single scalar. -/
theorem property_cases {name : String} {s : Scalar} (h : ctx.property name = .ok s) :
    ∃ m, ctx.this = .message m ∧
      ((name = "*" ∧ s.type = .bool) ∨
        ∃ f, name ≠ "*" ∧ m.type.field? name = some f ∧
          ((ctx.presence = true ∧ s.type = .bool) ∨
            (ctx.presence = false ∧ f.isScalar = true ∧ m.scalar f = .ok s))) := by
  have hr := ctx.reads name
  generalize ctx.property name = r at h hr
  cases hr with
  | wildcard hm hn =>
    cases h
    exact ⟨_, hm, .inl ⟨hn, rfl⟩⟩
  | presence hd hp =>
    cases h
    exact ⟨_, hd.eq, .inr ⟨_, hd.ne, hd.field, .inl ⟨hp, rfl⟩⟩⟩
  | value hd hp hs => exact ⟨_, hd.eq, .inr ⟨_, hd.ne, hd.field, .inr ⟨hp, hs, h⟩⟩⟩
  | _ => cases h

theorem propertyType_of_property {name : String} {s : Scalar}
    (ha : ∀ m, ctx.this = .message m → SlotsAccepted m.type m.slots)
    (hd : ctx.DeclaresOrdinals [name]) (h : ctx.property name = .ok s) :
    ctx.propertyType name = .ok s.type := by
  obtain ⟨m, hm, hcase⟩ := property_cases h
  have hrecord : ctx.record? = some m := by
    unfold record?
    rw [hm]
  unfold propertyType
  rw [hrecord]
  rcases hcase with ⟨hstar, ht⟩ | ⟨f, hstar, hf, ⟨hp, ht⟩ | ⟨hp, hs, hscalar⟩⟩
  · simp only [hstar, if_true, ht]
  · simp only [if_neg hstar, hf, hp, if_true, ht]
  · obtain ⟨hmem, hname⟩ := MessageType.mem_of_field? hf
    have hc : f.cardinality = .single := by
      simp only [Field.isScalar, Bool.and_eq_true, decide_eq_true_eq] at hs
      exact hs.1
    simp only [if_neg hstar, hf, hp, Bool.false_eq_true, if_false]
    have hdeclared := hd m hm f hmem (by simp [hname]) hc
    exact m.scalarType_of_scalar (ha m hm) hmem hc hdeclared hscalar

end Context

namespace Scalar

variable {a b s : Scalar}

theorem type_of_ofInt {n : Int} (h : ofInt n = .ok s) : s.type = .int := by
  unfold ofInt at h
  split at h <;> cases h
  rfl

theorem type_of_applyUnary {op : UnaryOp} (h : applyUnary op a = .ok s) :
    (op = .not ∧ a.type = .bool ∧ s.type = .bool) ∨
      (op ≠ .not ∧ a.type = .int ∧ s.type = .int) := by
  unfold applyUnary at h
  split at h
  · cases h
    exact .inl ⟨rfl, rfl, rfl⟩
  · cases h
    exact .inr ⟨by decide, rfl, rfl⟩
  · exact .inr ⟨by decide, rfl, type_of_ofInt h⟩
  · cases h

theorem type_of_computeInt {op : Arithmetic} {m n : Int64} (h : computeInt op m n = .ok s) :
    s.type = .int := by
  unfold computeInt at h
  split at h
  case h_4 =>
    split at h
    · cases h
    · exact type_of_ofInt h
  all_goals exact type_of_ofInt h

theorem type_of_computeFloat {d : Decimals} {op : Arithmetic} {x y : Float}
    (h : computeFloat d op x y = .ok s) : s.type = .float := by
  unfold computeFloat at h
  split at h
  case h_4 => split at h <;> cases h; rfl
  all_goals
    cases h
    rfl

/-- The result of an operator has the type that its operands are brought to, and it is a string
only where strings are joined. -/
theorem type_of_compute {d : Decimals} {op : Arithmetic} (h : compute d op a b = .ok s) :
    a.type.promote? b.type = some s.type ∧ s.type ≠ .bool ∧ (s.type = .string → op = .add) := by
  cases a <;> cases b
  case int.int =>
    have ht : s.type = .int := type_of_computeInt h
    rw [ht]
    exact ⟨rfl, by decide, nofun⟩
  case string.string x y =>
    simp only [compute] at h
    split at h <;> cases h
    rename_i hop
    exact ⟨rfl, nofun, fun _ => hop⟩
  case int.float | float.int | float.float =>
    have ht : s.type = .float := type_of_computeFloat h
    rw [ht]
    exact ⟨rfl, by decide, nofun⟩
  all_goals cases h

end Scalar

theorem Context.type_of_builtin {ctx : Context} {f : Builtin} {s : Scalar}
    (h : ctx.builtin f = .ok s) : s.type = .int := by
  unfold builtin at h
  cases f with
  | length =>
    dsimp only at h
    split at h
    case h_4 => cases h
    all_goals exact Scalar.type_of_ofInt h
  | position =>
    dsimp only at h
    split at h
    · exact Scalar.type_of_ofInt h
    · cases h

namespace Expr

variable {ctx : Context} {s : Scalar}

theorem type_of_eval_connect {op : Connective} {l r : Expr}
    (h : (binary (.connect op) l r).eval ctx = .ok s) : s.type = .bool := by
  obtain ⟨a, -, h⟩ := of_bind_eq_ok h
  obtain ⟨p, -, h⟩ := of_bind_eq_ok h
  split at h
  · cases h
    rfl
  · obtain ⟨b, -, h⟩ := of_bind_eq_ok h
    obtain ⟨q, -, h⟩ := of_bind_eq_ok h
    cases h
    rfl

theorem type_of_eval_compare {op : Comparison} {l r : Expr}
    (h : (binary (.compare op) l r).eval ctx = .ok s) : s.type = .bool := by
  obtain ⟨a, -, h⟩ := of_bind_eq_ok h
  obtain ⟨b, -, h⟩ := of_bind_eq_ok h
  obtain ⟨p, -, h⟩ := of_bind_eq_ok h
  cases h
  rfl

/-- Evaluation in a record whose fields hold what they accept yields the type that is foretold. -/
theorem typeIn_of_eval_of_accepted
    (ha : ∀ m, ctx.this = .message m → SlotsAccepted m.type m.slots) (e : Expr)
    (hd : ctx.DeclaresOrdinals e.names) (h : e.eval ctx = .ok s) : e.typeIn ctx = .ok s.type := by
  induction e generalizing s with
  | literal v =>
    cases h
    rfl
  | property name => exact Context.propertyType_of_property ha hd h
  | call f arguments =>
    rw [Context.type_of_builtin h]
    rfl
  | unary op e ih =>
    obtain ⟨v, hv, hs⟩ := of_bind_eq_ok h
    have ht := ih hd hv
    -- `not` is foretold from a truth value, the signs from an integer
    rcases Scalar.type_of_applyUnary hs with ⟨rfl, hvt, hst⟩ | ⟨hop, hvt, hst⟩
    · rw [typeIn, ht, hvt, hst]
      rfl
    · rw [typeIn, ht, hvt, hst]
      cases op with
      | not => exact absurd rfl hop
      | plus | minus => rfl
  | binary op l r ihl ihr =>
    cases op with
    -- these are foretold whatever the operands are, and one of them may go unevaluated
    | connect op =>
      rw [type_of_eval_connect h]
      rfl
    | compare op =>
      rw [type_of_eval_compare h]
      rfl
    | compute op =>
      obtain ⟨a, hl, h⟩ := of_bind_eq_ok h
      obtain ⟨b, hr, h⟩ := of_bind_eq_ok h
      have htl := ihl (hd.mono fun _ => List.mem_append_left _) hl
      have htr := ihr (hd.mono fun _ => List.mem_append_right _) hr
      obtain ⟨hp, hb, hadd⟩ := Scalar.type_of_compute h
      simp only [typeIn, htl, htr, bind, Except.bind, hp]
      cases hs : s.type with
      | bool => exact absurd hs hb
      | string => exact if_pos (hadd hs)
      | int | float => rfl

end Expr

/-- Where an expression has a value in a context that a program can come by, it has a type there,
and that is the type of the value. -/
theorem Expr.typeIn_of_eval {w : Workshop} {ctx : Context} (hw : w.Reached)
    (hthis : ctx.this ∈ w.values) (e : Expr) (hd : ctx.DeclaresOrdinals e.names) {s : Scalar}
    (h : e.eval ctx = .ok s) :
    ∃ t, e.typeIn ctx = .ok t ∧ (Value.ofScalar s).scalarType? = some t := by
  obtain ⟨known, hk⟩ := hw.holds
  refine ⟨s.type, e.typeIn_of_eval_of_accepted (fun m hm => ?_) hd h, by cases s <;> rfl⟩
  exact hk.coherent.accepted m (hm ▸ hk.values _ hthis)

namespace Tasks

def stateType : EnumType := ⟨"State", [("OPEN", 0), ("DONE", 1)]⟩

def taskType : MessageType where
  name := "Task"
  fields := [⟨"state", 0, .enum stateType, .single⟩, ⟨"size", 1, .uint, .single⟩]
  index_eq := by decide
  nodup := by decide

def task : Message := ⟨⟨0⟩, taskType, [some (.int 1), none]⟩

def workshop : Workshop where
  values := [.message task, .string "DONE"]
  builders := [⟨taskType, [some (.int 1), none], none⟩, ⟨taskType, [none, none], none⟩]
  supply := 1

theorem workshop_reached : workshop.Reached := by
  have h0 := Workshop.Reached.opened 0
  have h1 := h0.step (.scalar (.string "DONE") rfl)
  have h2 := h1.step (.start taskType)
  have h3 := h2.step (.set "state" (.head _) (.head _) rfl)
  exact h3.step (.build (.head _) rfl)

end Tasks

/-- A name that stands for an ordinal is joined to another text. -/
theorem Expr.typeIn_of_eval_tasks :
    let e : Expr := .binary (.compute .add) (.property "state") (.literal (.string "!"))
    let ctx : Context := { this := .message Tasks.task }
    Tasks.workshop.Reached ∧ ctx.this ∈ Tasks.workshop.values ∧ ctx.DeclaresOrdinals e.names ∧
      e.eval ctx = .ok (.string "DONE!") ∧
      ∃ t, e.typeIn ctx = .ok t ∧ (Value.ofScalar (.string "DONE!")).scalarType? = some t := by
  intro e ctx
  have hthis : ctx.this ∈ Tasks.workshop.values := .head _
  have hd : ctx.DeclaresOrdinals e.names := by
    intro m hm f hf hn hc t ht n hv
    cases hm
    rcases List.mem_cons.1 hf with rfl | hf
    · cases ht
      cases hv
      rfl
    · rw [List.mem_singleton.1 hf] at ht
      cases ht
  have h : e.eval ctx = .ok (.string "DONE!") := rfl
  exact ⟨Tasks.workshop_reached, hthis, hd, h,
    Expr.typeIn_of_eval Tasks.workshop_reached hthis e hd h⟩

end RecordPath
