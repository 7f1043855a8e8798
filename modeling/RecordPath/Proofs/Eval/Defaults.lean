import RecordPath.Proofs.Eval.Properties
import RecordPath.Proofs.Eval.TypeAgreement

namespace RecordPath

namespace Context

variable {α β : Type}

/-- The record at hand declares a single scalar field of the name but does not have it, and
properties are read for their values. -/
def Lacks (ctx : Context) (name : String) : Prop :=
  ctx.presence = false ∧
    ∃ m f, ctx.this.Declares name m f ∧ f.isScalar = true ∧ m.has f = false

/-- Reading defaults makes `s` of the outcome `r`: the two are the same, or `r` is the failure for
want of a field that the record at hand lacks. -/
def Defaulted (ctx : Context) (r s : Except EvalError α) : Prop :=
  s = r ∨ ∃ name, r = .error (.propertyNotSet name) ∧ ctx.Lacks name

variable {ctx : Context}

theorem Defaulted.refl (r : Except EvalError α) : ctx.Defaulted r r := .inl rfl

/-- What follows an outcome runs as before, or not at all. -/
theorem Defaulted.bind {r s : Except EvalError α} {f g : α → Except EvalError β}
    (h : ctx.Defaulted r s) (hf : ∀ a, ctx.Defaulted (f a) (g a)) :
    ctx.Defaulted (r >>= f) (s >>= g) := by
  rcases h with rfl | ⟨name, rfl, hl⟩
  · cases s with
    | error e => exact .refl _
    | ok a => exact hf a
  · exact .inr ⟨name, rfl, hl⟩

theorem defaulted_property (ctx : Context) (name : String) :
    ctx.Defaulted (property { ctx with useDefault := false } name)
      (property { ctx with useDefault := true } name) := by
  have hsame {r : Except EvalError Scalar} (h : Reads { ctx with useDefault := true } name r) :
      ctx.Defaulted r (property { ctx with useDefault := true } name) := .inl h.eq
  have hr := reads { ctx with useDefault := false } name
  generalize property { ctx with useDefault := false } name = r at hr
  cases hr with
  | notARecord hm => exact hsame (.notARecord hm)
  | wildcard hm hn => exact hsame (.wildcard hm hn)
  | undeclared hm hn hf => exact hsame (.undeclared hm hn hf)
  | presence hd hp => exact hsame (.presence hd hp)
  | notScalar hd hp hs => exact hsame (.notScalar hd hp hs)
  | absent hd hp hs hh =>
    exact .inr ⟨name, rfl, hp, _, _, hd, hs, (Bool.or_eq_false_iff.1 hh).1⟩
  | value hd hp hs => exact hsame (.value hd hp hs (Bool.or_true _))

end Context

namespace Expr

theorem defaulted_eval (e : Expr) (ctx : Context) :
    ctx.Defaulted (e.eval { ctx with useDefault := false })
      (e.eval { ctx with useDefault := true }) := by
  induction e with
  | literal | call => exact .refl _
  | property name => exact ctx.defaulted_property name
  | unary op e ih => exact ih.bind fun _ => .refl _
  | binary op l r ihl ihr =>
    cases op with
    | connect op =>
      refine ihl.bind fun a => (Context.Defaulted.refl _).bind fun p => ?_
      split
      · exact .refl _
      · exact ihr.bind fun _ => .refl _
    | compute op => exact ihl.bind fun a => ihr.bind fun _ => .refl _
    | compare op =>
      simp only [eval]
      split
      -- an equality reads defaults anyway
      · exact .refl _
      · exact ihl.bind fun a => ihr.bind fun _ => .refl _

/-- Let `r` be the outcome where absent scalars are not read. If it is anything but the want of a
property, or the want of one that the record at hand does not declare, then it is the outcome as
well where they read as their defaults. -/
theorem eval_useDefault (e : Expr) (ctx : Context) :
    let r := e.eval { ctx with useDefault := false }
    ((∀ name, r ≠ .error (.propertyNotSet name)) → e.eval { ctx with useDefault := true } = r) ∧
      ∀ name, r = .error (.propertyNotSet name) →
        (∀ m, ctx.this = .message m → m.type.field? name = none) →
          e.eval { ctx with useDefault := true } = r := by
  intro r
  rcases e.defaulted_eval ctx with h | ⟨name, hr, hl⟩
  · exact ⟨fun _ => h, fun _ _ _ => h⟩
  · refine ⟨fun hne => absurd hr (hne name), fun name' hr' hd => ?_⟩
    obtain rfl : name = name' := by
      have := hr.symm.trans hr'
      simpa using this
    obtain ⟨-, m, f, hdecl, -⟩ := hl
    cases (hd m hdecl.eq).symm.trans hdecl.field

/-- The task has no size, which an equality reads as 0, and its type knows no colour. -/
theorem eval_useDefault_task :
    let ctx : Context := { this := .message Tasks.task }
    let sizeless : Expr := .binary (.compare .equal) (.property "size") (.literal (.int 0))
    let coloured : Expr := .binary (.connect .and) sizeless (.property "colour")
    sizeless.eval { ctx with useDefault := true } = .ok (.bool true) ∧
      coloured.eval { ctx with useDefault := true } = .error (.propertyNotSet "colour") := by
  intro ctx sizeless coloured
  have hsize : sizeless.eval { ctx with useDefault := false } = .ok (.bool true) := rfl
  have hcolour : coloured.eval { ctx with useDefault := false } =
      .error (.propertyNotSet "colour") := rfl
  constructor
  · exact ((eval_useDefault sizeless ctx).1 fun name h => nomatch hsize.symm.trans h).trans hsize
  · refine ((eval_useDefault coloured ctx).2 "colour" hcolour fun m hm => ?_).trans hcolour
    cases hm
    rfl

/-- Of a size that is read for its value the choice does tell. -/
example :
    let ctx : Context := { this := .message Tasks.task }
    let grown : Expr := .binary (.compute .add) (.property "size") (.literal (.int 1))
    grown.eval { ctx with useDefault := false } = .error (.propertyNotSet "size") ∧
      grown.eval { ctx with useDefault := true } = .ok (.int 1) :=
  ⟨rfl, rfl⟩

end Expr

end RecordPath
