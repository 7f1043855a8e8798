import RecordPath.Eval.Evaluation
import RecordPath.Eval.Typing

namespace RecordPath

variable {v w : Value}

/-- In any context the values have the same properties, and functions yield the same for them. -/
structure Value.LooksLike (v w : Value) : Prop where
  property : ∀ (ctx : Context) (name : String),
    ({ ctx with this := v } : Context).property name = { ctx with this := w }.property name
  builtin : ∀ (ctx : Context) (f : Builtin),
    ({ ctx with this := v } : Context).builtin f = { ctx with this := w }.builtin f
  propertyType : ∀ (ctx : Context) (name : String),
    ({ ctx with this := v } : Context).propertyType name = { ctx with this := w }.propertyType name

/-- The same of the outcomes alone, and only where properties are read in one of the two ways: for
their values, or for whether they are there. -/
structure Value.ReadsLike (presence : Bool) (v w : Value) : Prop where
  property : ∀ (ctx : Context) (name : String), ctx.presence = presence →
    ({ ctx with this := v } : Context).property name = { ctx with this := w }.property name
  builtin : ∀ (ctx : Context) (f : Builtin),
    ({ ctx with this := v } : Context).builtin f = { ctx with this := w }.builtin f

namespace Expr

theorem eval_of_readsLike {presence : Bool} (h : v.ReadsLike presence w) (e : Expr) (ctx : Context)
    (hp : ctx.presence = presence) :
    e.eval { ctx with this := v } = e.eval { ctx with this := w } := by
  -- an equality evaluates its sides in another context, so the context varies
  induction e generalizing ctx with
  | literal => rfl
  | property name => exact h.property ctx name hp
  | call f _ => exact h.builtin ctx f
  | unary op e ih => simp only [eval, ih ctx hp]
  | binary op l r ihl ihr =>
    cases op with
    | connect op => simp only [eval, ihl ctx hp, ihr ctx hp]
    | compute op => simp only [eval, ihl ctx hp, ihr ctx hp]
    | compare op =>
      simp only [eval]
      split
      · simp only [ihl { ctx with useDefault := true } hp, ihr { ctx with useDefault := true } hp]
      · simp only [ihl ctx hp, ihr ctx hp]

theorem eval_of_looksLike (h : v.LooksLike w) (e : Expr) (ctx : Context) :
    e.eval { ctx with this := v } = e.eval { ctx with this := w } :=
  e.eval_of_readsLike ⟨fun ctx name _ => h.property ctx name, h.builtin⟩ ctx rfl

theorem typeIn_of_looksLike (h : v.LooksLike w) (e : Expr) (ctx : Context) :
    e.typeIn { ctx with this := v } = e.typeIn { ctx with this := w } := by
  induction e with
  | literal => rfl
  | property name => exact h.propertyType ctx name
  | call f _ => rfl
  | unary op e ih => simp only [typeIn, ih]
  | binary op l r ihl ihr => cases op <;> simp only [typeIn, ihl, ihr]

end Expr

end RecordPath
