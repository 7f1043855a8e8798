import RecordPath.Proofs.Eval.Properties

namespace RecordPath

def FitsWord (n : Int) : Prop := -0x8000000000000000 ≤ n ∧ n < 0x8000000000000000

instance (n : Int) : Decidable (FitsWord n) := inferInstanceAs (Decidable (_ ∧ _))

theorem fitsWord_toInt (w : Int64) : FitsWord w.toInt := ⟨w.le_toInt, w.toInt_lt⟩

theorem signed?_of_fitsWord {n : Int} (h : FitsWord n) : ∃ w, signed? n = some w ∧ w.toInt = n := by
  have hs : signed? n = some (Int64.ofInt n) := if_pos h
  exact ⟨_, hs, toInt_of_signed? hs⟩

theorem signed?_of_not_fitsWord {n : Int} (h : ¬ FitsWord n) : signed? n = none := if_neg h

def Value.number? : Value → Option Int
  | int n => some n.toInt
  | uint n => if FitsWord n.toNat then some n.toNat else none
  | _ => none

def MessageOf.number? (m : Message) (f : Field) : Option Int :=
  ((m.stored? f).or f.default?).bind Value.number?

theorem Value.number?_of_toScalar? {v : Value} (h : ∀ s, v.toScalar? = some s → s.type = .int) :
    (∃ w, v.toScalar? = some (.int w) ∧ v.number? = some w.toInt) ∨
      v.toScalar? = none ∧ v.number? = none := by
  cases v with
  | int n => exact .inl ⟨n, rfl, rfl⟩
  | uint n =>
    dsimp only [toScalar?, number?]
    by_cases hn : FitsWord n.toNat
    · obtain ⟨w, hs, hw⟩ := signed?_of_fitsWord hn
      rw [hs, if_pos hn]
      exact .inl ⟨w, rfl, congrArg some hw.symm⟩
    · rw [signed?_of_not_fitsWord hn, if_neg hn]
      exact .inr ⟨rfl, rfl⟩
  | message | list | map => exact .inr ⟨rfl, rfl⟩
  | _ => cases h _ rfl

theorem Value.fitsWord_of_number? {v : Value} {n : Int} (h : v.number? = some n) : FitsWord n := by
  cases v with
  | int w =>
    cases h
    exact fitsWord_toInt w
  | uint w =>
    dsimp only [number?] at h
    split at h
    · cases h
      assumption
    · cases h
  | _ => cases h

namespace MessageOf

variable {m : Message} {f : Field}

theorem scalar_enum {e : EnumType} {n : Int64} (hv : (m.stored? f).or f.default? = some (.int n))
    (hk : f.kind = .enum e) :
    m.scalar f = .ok (((e.nameOf? n).map Scalar.string).getD (.int n)) := by
  unfold scalar
  rw [hv, hk]
  dsimp only
  cases e.nameOf? n <;> rfl

theorem scalar_of_ne {v : Value} (hv : (m.stored? f).or f.default? = some v)
    (hne : ¬ ∃ e n, f.kind = .enum e ∧ v = .int n) :
    m.scalar f = (match v.toScalar? with
      | some s => .ok s
      | none => .error (.typeMismatch (.noScalarForm f.name v.kindName))) := by
  unfold scalar
  rw [hv]
  dsimp only
  split
  · rename_i e n hk
    exact absurd ⟨e, n, hk, rfl⟩ hne
  · rfl

theorem number?_of_scalar (h : ∀ s, m.scalar f = .ok s → s.type = .int) :
    (∃ w, m.scalar f = .ok (.int w) ∧ m.number? f = some w.toInt) ∨
      ∃ err, m.scalar f = .error err ∧ m.number? f = none := by
  unfold number?
  cases hv : (m.stored? f).or f.default? with
  | none =>
    unfold scalar
    rw [hv]
    exact .inr ⟨_, rfl, rfl⟩
  | some v =>
    by_cases he : ∃ e n, f.kind = .enum e ∧ v = .int n
    · obtain ⟨e, n, hk, rfl⟩ := he
      have hs := scalar_enum hv hk
      -- an ordinal reads as an integer where it has no name
      cases hname : e.nameOf? n with
      | some name =>
        rw [hname] at hs
        cases h _ hs
      | none =>
        rw [hname] at hs
        exact .inl ⟨n, hs, rfl⟩
    · rw [scalar_of_ne hv he] at h ⊢
      rcases v.number?_of_toScalar? (fun s hs => h s (by rw [hs])) with ⟨w, hs, hn⟩ | ⟨hs, hn⟩
      · exact .inl ⟨w, by rw [hs], hn⟩
      · exact .inr ⟨_, by rw [hs], hn⟩

theorem ne_of_scalar_eq_error {err : EvalError} (h : m.scalar f = .error err) :
    err ≠ .overflow ∧ err ≠ .divisionByZero := by
  unfold scalar at h
  split at h
  · cases h
    exact ⟨nofun, nofun⟩
  · split at h
    · split at h <;> cases h
    · split at h
      · cases h
      · cases h
        exact ⟨nofun, nofun⟩

end MessageOf

namespace Context

def number? (ctx : Context) (name : String) : Option Int :=
  match ctx.this with
  | .message m =>
    match m.type.field? name with
    | some f => if f.isScalar && (m.has f || ctx.useDefault) then m.number? f else none
    | none => none
  | _ => none

/-- The number of elements at hand, or the place among others. -/
def count? (ctx : Context) : Builtin → Option Nat
  | .length =>
    match ctx.this with
    | .list l => some l.items.length
    | .map m => some m.entries.length
    | .bytes bs => some bs.length
    | _ => none
  | .position => ctx.index

variable {ctx : Context} {name : String} {m : Message} {f : Field}

theorem number?_of_declares (hd : ctx.this.Declares name m f) :
    ctx.number? name =
      if f.isScalar && (m.has f || ctx.useDefault) then m.number? f else none := by
  simp only [number?, hd.eq, hd.field]

/-- A property that reads as an integer, wherever it reads at all, reads as the number that it
stands for. -/
theorem number?_of_property (h : ∀ s, ctx.property name = .ok s → s.type = .int) :
    (∃ w, ctx.property name = .ok (.int w) ∧ ctx.number? name = some w.toInt) ∨
      ∃ err, ctx.property name = .error err ∧ ctx.number? name = none := by
  have hr := ctx.reads name
  generalize ctx.property name = r at h hr
  cases hr with
  | notARecord hm =>
    refine .inr ⟨_, rfl, ?_⟩
    unfold number?
    split
    · rename_i m h
      exact absurd h (hm m)
    · rfl
  | wildcard | presence => cases h _ rfl
  | undeclared hm hn hf =>
    refine .inr ⟨_, rfl, ?_⟩
    simp only [number?, hm, hf]
  | notScalar hd hp hs =>
    refine .inr ⟨_, rfl, ?_⟩
    rw [number?_of_declares hd, hs]
    rfl
  | absent hd hp hs hh =>
    refine .inr ⟨_, rfl, ?_⟩
    rw [number?_of_declares hd, hs, hh]
    rfl
  | value hd hp hs hh =>
    rw [number?_of_declares hd, hs, hh]
    exact MessageOf.number?_of_scalar h

theorem fitsWord_of_number? {n : Int} (h : ctx.number? name = some n) : FitsWord n := by
  unfold number? at h
  split at h
  · split at h
    · split at h
      · obtain ⟨v, -, hv⟩ := Option.bind_eq_some_iff.1 h
        exact v.fitsWord_of_number? hv
      · cases h
    · cases h
  · cases h

theorem ne_of_property_eq_error {err : EvalError} (h : ctx.property name = .error err) :
    err ≠ .overflow ∧ err ≠ .divisionByZero := by
  have hr := ctx.reads name
  generalize ctx.property name = r at h hr
  cases hr with
  | wildcard | presence => cases h
  | value => exact MessageOf.ne_of_scalar_eq_error h
  | _ =>
    cases h
    exact ⟨nofun, nofun⟩

theorem builtin_eq (ctx : Context) (f : Builtin) :
    ctx.builtin f = (match ctx.count? f with
      | some n => Scalar.ofInt n
      | none => .error (.unavailableFunction f.name)) := by
  cases f with
  | length =>
    unfold builtin count?
    cases ctx.this <;> rfl
  | position =>
    unfold builtin count?
    cases ctx.index <;> rfl

end Context

end RecordPath
