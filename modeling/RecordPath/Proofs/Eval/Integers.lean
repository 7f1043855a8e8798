import RecordPath.Proofs.Eval.Numbers
import RecordPath.Proofs.Eval.TypeAgreement

namespace RecordPath

/-- The result over all integers; division drops the fraction, and by zero there is none. -/
def Arithmetic.result? (op : Arithmetic) (m n : Int) : Option Int :=
  match op with
  | add => some (m + n)
  | subtract => some (m - n)
  | multiply => some (m * n)
  | divide => if n = 0 then none else some (m.tdiv n)

theorem Scalar.computeInt_eq (op : Arithmetic) (m n : Int64) :
    computeInt op m n = (match op.result? m.toInt n.toInt with
      | some k => ofInt k
      | none => .error .divisionByZero) := by
  cases op with
  | divide =>
    have hz : n.toInt = 0 ↔ n = 0 := by
      rw [← Int64.toInt_inj]
      rfl
    unfold computeInt Arithmetic.result?
    dsimp only
    by_cases hn : n = 0
    · rw [if_pos hn, if_pos (hz.2 hn)]
    · rw [if_neg hn, if_neg fun h => hn (hz.1 h)]
  | _ => rfl

theorem Arithmetic.result?_eq_none {op : Arithmetic} {m n : Int} (h : op.result? m n = none) :
    op = .divide ∧ n = 0 := by
  cases op with
  | divide =>
    refine ⟨rfl, ?_⟩
    by_cases hn : n = 0
    · exact hn
    · rw [result?, if_neg hn] at h
      cases h
  | _ => cases h

namespace Expr

/-- Built from integers, properties that read as integers wherever they read at all, functions,
signs and arithmetic. -/
inductive Integral (ctx : Context) : Expr → Prop
  | literal (n : Int64) : Integral ctx (literal (.int n))
  | property {name : String} (h : ∀ s, ctx.property name = .ok s → s.type = .int) :
      Integral ctx (property name)
  | call (f : Builtin) (arguments : List Expr) : Integral ctx (call f arguments)
  | plus {e : Expr} (h : Integral ctx e) : Integral ctx (unary .plus e)
  | minus {e : Expr} (h : Integral ctx e) : Integral ctx (unary .minus e)
  | compute (op : Arithmetic) {l r : Expr} (hl : Integral ctx l) (hr : Integral ctx r) :
      Integral ctx (binary (.compute op) l r)

def number? (ctx : Context) : Expr → Option Int
  | literal (.int n) => some n.toInt
  | property name => ctx.number? name
  | call f _ => (ctx.count? f).map Int.ofNat
  | unary .plus e => e.number? ctx
  | unary .minus e => (e.number? ctx).map fun n => -n
  | binary (.compute op) l r => do op.result? (← l.number? ctx) (← r.number? ctx)
  | _ => none
termination_by structural e => e

/-- The sub-expressions in the order in which evaluation is done with them. -/
def evaluated : Expr → List Expr
  | unary op e => e.evaluated ++ [unary op e]
  | binary op l r => l.evaluated ++ r.evaluated ++ [binary op l r]
  | e => [e]
termination_by structural e => e

def fails (ctx : Context) (e : Expr) : Bool :=
  match e.number? ctx with
  | some n => !decide (FitsWord n)
  | none => true

def firstFailure? (ctx : Context) (e : Expr) : Option Expr := e.evaluated.find? (fails ctx)

/-- The ways in which an expression fails whose operands do not. -/
inductive FailsWith (ctx : Context) : Expr → EvalError → Prop
  | overflow {e : Expr} {n : Int} (h : e.number? ctx = some n) (hn : ¬ FitsWord n) :
      FailsWith ctx e .overflow
  | divisionByZero {l r : Expr} (hr : r.number? ctx = some 0) :
      FailsWith ctx (binary (.compute .divide) l r) .divisionByZero
  | property {name : String} {err : EvalError} (hn : ctx.number? name = none)
      (h : ctx.property name = .error err) : FailsWith ctx (property name) err
  | call {f : Builtin} {arguments : List Expr} (h : ctx.count? f = none) :
      FailsWith ctx (call f arguments) (.unavailableFunction f.name)

def Settles (ctx : Context) (e : Expr) : Prop :=
  (∃ w, e.eval ctx = .ok (.int w) ∧ e.number? ctx = some w.toInt) ∨
    ∃ err, e.eval ctx = .error err ∧ e.FailsWith ctx err

/-- The expression yields its exact value, or fails as the first sub-expression to fail does. -/
def Exact (ctx : Context) (e : Expr) : Prop :=
  (e.firstFailure? ctx = none ∧ ∃ w, e.eval ctx = .ok (.int w) ∧ e.number? ctx = some w.toInt) ∨
    ∃ d err, e.firstFailure? ctx = some d ∧ d.FailsWith ctx err ∧ e.eval ctx = .error err

variable {ctx : Context} {e l r : Expr} {err : EvalError}

theorem firstFailure?_unary (op : UnaryOp) (e : Expr) : (unary op e).firstFailure? ctx =
    (e.firstFailure? ctx).or ([unary op e].find? (fails ctx)) :=
  List.find?_append

theorem firstFailure?_binary (op : BinaryOp) (l r : Expr) : (binary op l r).firstFailure? ctx =
    ((l.firstFailure? ctx).or (r.firstFailure? ctx)).or ([binary op l r].find? (fails ctx)) := by
  unfold firstFailure?
  rw [evaluated, List.find?_append, List.find?_append]

theorem FailsWith.of_number? {n : Int} (h : e.FailsWith ctx err) (hx : e.number? ctx = some n) :
    err = .overflow ∧ ¬ FitsWord n := by
  cases h with
  | overflow hx' hn =>
    cases hx.symm.trans hx'
    exact ⟨rfl, hn⟩
  | divisionByZero hr =>
    rename_i l r
    rw [number?, hr] at hx
    cases hl : l.number? ctx <;> rw [hl] at hx <;> cases hx
  | property hn =>
    rw [number?, hn] at hx
    cases hx
  | call hc =>
    rw [number?, hc] at hx
    cases hx

theorem FailsWith.fails (h : e.FailsWith ctx err) : e.fails ctx = true := by
  unfold Expr.fails
  split
  · rename_i n hx
    simpa using (h.of_number? hx).2
  · rfl

theorem FailsWith.unique {err' : EvalError} (h : e.FailsWith ctx err) (h' : e.FailsWith ctx err') :
    err = err' := by
  cases hx : e.number? ctx with
  | some n => rw [(h.of_number? hx).1, (h'.of_number? hx).1]
  | none =>
    cases h with
    | overflow hsome => cases hx.symm.trans hsome
    | divisionByZero hr =>
      cases h' with
      | overflow hsome => cases hx.symm.trans hsome
      | divisionByZero => rfl
    | property hn h =>
      cases h' with
      | overflow hsome => cases hx.symm.trans hsome
      | property hn h' =>
        cases h.symm.trans h'
        rfl
    | call hc =>
      cases h' with
      | overflow hsome => cases hx.symm.trans hsome
      | call => rfl

theorem Settles.exact (h : e.Settles ctx)
    (hf : e.firstFailure? ctx = [e].find? (Expr.fails ctx)) : e.Exact ctx := by
  unfold Exact
  rw [hf]
  rcases h with ⟨w, he, hx⟩ | ⟨err, he, hd⟩
  · refine .inl ⟨?_, w, he, hx⟩
    simp [Expr.fails, hx, fitsWord_toInt]
  · refine .inr ⟨e, err, ?_, hd, he⟩
    simp [hd.fails]

theorem settles_of_ofInt {n : Int} (he : e.eval ctx = Scalar.ofInt n)
    (hx : e.number? ctx = some n) : e.Settles ctx := by
  unfold Settles
  rw [he, hx, Scalar.ofInt]
  by_cases hn : FitsWord n
  · obtain ⟨w, hs, hw⟩ := signed?_of_fitsWord hn
    rw [hs]
    exact .inl ⟨w, rfl, congrArg some hw.symm⟩
  · rw [signed?_of_not_fitsWord hn]
    exact .inr ⟨_, rfl, .overflow hx hn⟩

theorem settles_call (ctx : Context) (f : Builtin) (arguments : List Expr) :
    (call f arguments).Settles ctx := by
  have he : (call f arguments).eval ctx = _ := ctx.builtin_eq f
  cases hc : ctx.count? f with
  | none =>
    rw [hc] at he
    exact .inr ⟨_, he, .call hc⟩
  | some n =>
    rw [hc] at he
    refine settles_of_ofInt he ?_
    rw [number?, hc]
    rfl

theorem settles_compute (op : Arithmetic) {v w : Int64} (hl : l.eval ctx = .ok (.int v))
    (hr : r.eval ctx = .ok (.int w)) (hlx : l.number? ctx = some v.toInt)
    (hrx : r.number? ctx = some w.toInt) : (binary (.compute op) l r).Settles ctx := by
  have he : (binary (.compute op) l r).eval ctx = Scalar.computeInt op v w := by
    rw [eval, hl, hr]
    rfl
  have hx : (binary (.compute op) l r).number? ctx = op.result? v.toInt w.toInt := by
    rw [number?, hlx, hrx]
    rfl
  rw [Scalar.computeInt_eq] at he
  cases hk : op.result? v.toInt w.toInt with
  | some k =>
    rw [hk] at he hx
    exact settles_of_ofInt he hx
  | none =>
    rw [hk] at he
    obtain ⟨rfl, hw⟩ := Arithmetic.result?_eq_none hk
    rw [hw] at hrx
    exact .inr ⟨_, he, .divisionByZero hrx⟩

theorem Exact.unary (h : e.Exact ctx) (op : UnaryOp)
    (hs : ∀ w, e.eval ctx = .ok (.int w) → e.number? ctx = some w.toInt →
      (unary op e).Settles ctx) : (unary op e).Exact ctx := by
  have hf : (Expr.unary op e).firstFailure? ctx = _ := firstFailure?_unary op e
  rcases h with ⟨hn, w, he, hx⟩ | ⟨d, err, hd, hfail, he⟩
  · rw [hn, Option.none_or] at hf
    exact (hs w he hx).exact hf
  · rw [hd, Option.some_or] at hf
    refine .inr ⟨d, err, hf, hfail, ?_⟩
    rw [eval, he]
    rfl

theorem Exact.compute (hl : l.Exact ctx) (hr : r.Exact ctx) (op : Arithmetic) :
    (binary (.compute op) l r).Exact ctx := by
  have hf : (binary (.compute op) l r).firstFailure? ctx = _ :=
    firstFailure?_binary (.compute op) l r
  rcases hl with ⟨hln, v, hl, hlx⟩ | ⟨d, err, hd, hfail, hl⟩
  · rcases hr with ⟨hrn, w, hr, hrx⟩ | ⟨d, err, hd, hfail, hr⟩
    · rw [hln, hrn, Option.none_or, Option.none_or] at hf
      exact (settles_compute op hl hr hlx hrx).exact hf
    · rw [hln, hd, Option.none_or, Option.some_or] at hf
      refine .inr ⟨d, err, hf, hfail, ?_⟩
      rw [eval, hl, hr]
      rfl
  · rw [hd, Option.some_or, Option.some_or] at hf
    refine .inr ⟨d, err, hf, hfail, ?_⟩
    rw [eval, hl]
    rfl

theorem Integral.exact (h : e.Integral ctx) : e.Exact ctx := by
  induction h with
  | literal n => exact Settles.exact (.inl ⟨n, rfl, rfl⟩) rfl
  | property h =>
    refine Settles.exact ?_ rfl
    rcases Context.number?_of_property h with ⟨w, he, hn⟩ | ⟨err, he, hn⟩
    · exact .inl ⟨w, he, hn⟩
    · exact .inr ⟨err, he, .property hn he⟩
  | call f arguments => exact (settles_call ctx f arguments).exact rfl
  | plus h ih =>
    refine ih.unary .plus fun w he hx => .inl ⟨w, ?_, hx⟩
    rw [eval, he]
    rfl
  | minus h ih =>
    refine ih.unary .minus fun w he hx => settles_of_ofInt (n := -w.toInt) ?_ ?_
    · rw [eval, he]
      rfl
    · rw [number?, hx]
      rfl
  | compute op hl hr ihl ihr => exact ihl.compute ihr op

theorem Exact.eval_eq_ok_iff (h : e.Exact ctx) {s : Scalar} : e.eval ctx = .ok s ↔
    e.firstFailure? ctx = none ∧ ∃ w : Int64, s = .int w ∧ e.number? ctx = some w.toInt := by
  rcases h with ⟨hn, w, he, hx⟩ | ⟨d, err, hd, hfail, he⟩
  · rw [hn, he, hx]
    constructor
    · rintro ⟨⟩
      exact ⟨rfl, w, rfl, rfl⟩
    · rintro ⟨-, v, rfl, hv⟩
      rw [Int64.toInt_inj.1 (Option.some.inj hv)]
  · rw [hd, he]
    constructor
    · nofun
    · rintro ⟨h, -⟩
      cases h

theorem Exact.eval_eq_error_iff (h : e.Exact ctx) : e.eval ctx = .error err ↔
    ∃ d, e.firstFailure? ctx = some d ∧ d.FailsWith ctx err := by
  rcases h with ⟨hn, w, he, hx⟩ | ⟨d, err', hd, hfail, he⟩
  · rw [hn, he]
    constructor
    · nofun
    · rintro ⟨d, h, -⟩
      cases h
  · rw [hd, he]
    constructor
    · rintro ⟨⟩
      exact ⟨d, rfl, hfail⟩
    · rintro ⟨d', h, hfail'⟩
      cases h
      rw [hfail.unique hfail']

theorem failsWith_overflow_iff :
    e.FailsWith ctx .overflow ↔ ∃ n, e.number? ctx = some n ∧ ¬ FitsWord n := by
  constructor
  · intro h
    cases h with
    | overflow hx hn => exact ⟨_, hx, hn⟩
    | property hn h => exact absurd rfl (Context.ne_of_property_eq_error h).1
  · rintro ⟨n, hx, hn⟩
    exact .overflow hx hn

theorem failsWith_divisionByZero_iff : e.FailsWith ctx .divisionByZero ↔
    ∃ l r, e = binary (.compute .divide) l r ∧ r.number? ctx = some 0 := by
  constructor
  · intro h
    cases h with
    | divisionByZero hr => exact ⟨_, _, rfl, hr⟩
    | property hn h => exact absurd rfl (Context.ne_of_property_eq_error h).2
  · rintro ⟨l, r, rfl, hr⟩
    exact .divisionByZero hr

theorem exists_of_failsWith (h : e.FailsWith ctx err) (ho : err ≠ .overflow)
    (hz : err ≠ .divisionByZero) : (∃ name, e = property name ∧ ctx.property name = .error err) ∨
      ∃ f arguments, e = call f arguments ∧ ctx.count? f = none ∧
        err = .unavailableFunction f.name := by
  cases h with
  | overflow => exact absurd rfl ho
  | divisionByZero => exact absurd rfl hz
  | property hn h => exact .inl ⟨_, rfl, h⟩
  | call hc => exact .inr ⟨_, _, rfl, hc, rfl⟩

theorem failsWith_property {name : String} (hf : e.firstFailure? ctx = some (property name))
    (h : ctx.property name = .error err) : (property name).FailsWith ctx err := by
  have hfails : (property name).fails ctx = true := List.find?_some hf
  cases hn : ctx.number? name with
  | none => exact .property hn h
  | some n =>
    have hx : (property name).number? ctx = some n := hn
    simp [Expr.fails, hx, Context.fitsWord_of_number? hn] at hfails

/-- An integer expression has a value if no sub-expression fails, which is its exact one. Otherwise
the first to fail decides: it overflows if its exact value does not fit a word, it divides by zero,
or it is a property that cannot be read or a function that is not available. -/
theorem eval_integral (h : e.Integral ctx) :
    (∀ s, e.eval ctx = .ok s ↔
      e.firstFailure? ctx = none ∧ ∃ w : Int64, s = .int w ∧ e.number? ctx = some w.toInt) ∧
    (e.eval ctx = .error .overflow ↔
      ∃ d n, e.firstFailure? ctx = some d ∧ d.number? ctx = some n ∧ ¬ FitsWord n) ∧
    (e.eval ctx = .error .divisionByZero ↔
      ∃ l r, e.firstFailure? ctx = some (binary (.compute .divide) l r) ∧
        r.number? ctx = some 0) ∧
    ∀ err, err ≠ .overflow → err ≠ .divisionByZero → (e.eval ctx = .error err ↔
      (∃ name, e.firstFailure? ctx = some (property name) ∧ ctx.property name = .error err) ∨
        ∃ f arguments, e.firstFailure? ctx = some (call f arguments) ∧ ctx.count? f = none ∧
          err = .unavailableFunction f.name) := by
  have hx := h.exact
  refine ⟨fun s => hx.eval_eq_ok_iff, ?_, ?_, fun err ho hz => ?_⟩
  · rw [hx.eval_eq_error_iff]
    constructor
    · rintro ⟨d, hf, hd⟩
      obtain ⟨n, hn⟩ := failsWith_overflow_iff.1 hd
      exact ⟨d, n, hf, hn⟩
    · rintro ⟨d, n, hf, hn⟩
      exact ⟨d, hf, failsWith_overflow_iff.2 ⟨n, hn⟩⟩
  · rw [hx.eval_eq_error_iff]
    constructor
    · rintro ⟨d, hf, hd⟩
      obtain ⟨l, r, rfl, hr⟩ := failsWith_divisionByZero_iff.1 hd
      exact ⟨l, r, hf, hr⟩
    · rintro ⟨l, r, hf, hr⟩
      exact ⟨_, hf, .divisionByZero hr⟩
  · rw [hx.eval_eq_error_iff]
    constructor
    · rintro ⟨d, hf, hd⟩
      rcases exists_of_failsWith hd ho hz with ⟨name, rfl, hp⟩ | ⟨f, arguments, rfl, hc⟩
      · exact .inl ⟨name, hf, hp⟩
      · exact .inr ⟨f, arguments, hf, hc⟩
    · rintro (⟨name, hf, hp⟩ | ⟨f, arguments, hf, hc, rfl⟩)
      · exact ⟨_, hf, failsWith_property hf hp⟩
      · exact ⟨_, hf, .call hc⟩

/-- Of a sum that divides by the absent size of a task on one side and overflows on the other, the
left side decides. The least word divided by -1 is too great for a word. -/
theorem eval_integral_task :
    let ctx : Context := { this := .message Tasks.task, useDefault := true }
    let least : Expr := .binary (.compute .subtract) (.literal (.int (-0x7fffffffffffffff)))
      (.literal (.int 1))
    let great : Expr := .binary (.compute .divide) least (.unary .minus (.literal (.int 1)))
    let zero : Expr := .binary (.compute .divide) (.literal (.int 1)) (.property "size")
    (binary (.compute .add) zero great).Integral ctx ∧
      (binary (.compute .add) zero great).eval ctx = .error .divisionByZero ∧
      (binary (.compute .add) great zero).Integral ctx ∧
      (binary (.compute .add) great zero).eval ctx = .error .overflow := by
  intro ctx least great zero
  have hsize : (property "size").Integral ctx := .property fun s h => by
    cases h
    rfl
  have hzero : zero.Integral ctx := .compute .divide (.literal 1) hsize
  have hgreat : great.Integral ctx :=
    .compute .divide (.compute .subtract (.literal _) (.literal 1)) (.minus (.literal 1))
  have hzg := hzero.compute .add hgreat
  have hgz := hgreat.compute .add hzero
  refine ⟨hzg, ?_, hgz, ?_⟩
  · exact (eval_integral hzg).2.2.1.2 ⟨.literal (.int 1), .property "size", by decide, by decide⟩
  · exact (eval_integral hgz).2.1.2 ⟨great, 0x8000000000000000, by decide, by decide, by decide⟩

end Expr

end RecordPath
