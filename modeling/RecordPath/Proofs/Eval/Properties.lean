import RecordPath.Eval.Evaluation

namespace RecordPath

structure Value.Declares (v : Value) (name : String) (m : Message) (f : Field) : Prop where
  eq : v = .message m
  ne : name ≠ "*"
  field : m.type.field? name = some f

namespace Context

variable {ctx : Context} {name : String} {r : Except EvalError Scalar}

/-- What reading a property comes to. Only the last two cases look at the choice of defaults, and
only the last one at a value. -/
inductive Reads (ctx : Context) (name : String) : Except EvalError Scalar → Prop
  | notARecord (hm : ∀ m, ctx.this ≠ .message m) : Reads ctx name (.error .notARecord)
  | wildcard {m : Message} (hm : ctx.this = .message m) (hn : name = "*") :
      Reads ctx name (.ok (.bool m.hasAny))
  | undeclared {m : Message} (hm : ctx.this = .message m) (hn : name ≠ "*")
      (hf : m.type.field? name = none) : Reads ctx name (.error (.propertyNotSet name))
  | presence {m : Message} {f : Field} (hd : ctx.this.Declares name m f)
      (hp : ctx.presence = true) : Reads ctx name (.ok (.bool (m.has f)))
  | notScalar {m : Message} {f : Field} (hd : ctx.this.Declares name m f)
      (hp : ctx.presence = false) (hs : f.isScalar = false) :
      Reads ctx name (.error (.typeMismatch (.notScalar f.name)))
  | absent {m : Message} {f : Field} (hd : ctx.this.Declares name m f) (hp : ctx.presence = false)
      (hs : f.isScalar = true) (hh : (m.has f || ctx.useDefault) = false) :
      Reads ctx name (.error (.propertyNotSet name))
  | value {m : Message} {f : Field} (hd : ctx.this.Declares name m f) (hp : ctx.presence = false)
      (hs : f.isScalar = true) (hh : (m.has f || ctx.useDefault) = true) :
      Reads ctx name (m.scalar f)

theorem Reads.eq (h : ctx.Reads name r) : ctx.property name = r := by
  unfold property
  cases h with
  | notARecord hm =>
    split
    · rename_i m h
      exact absurd h (hm m)
    · rfl
  | wildcard hm hn => simp only [hm, hn, if_true]
  | undeclared hm hn hf => simp only [hm, if_neg hn, hf]
  | presence hd hp => simp only [hd.eq, if_neg hd.ne, hd.field, hp, if_true]
  | notScalar hd hp hs =>
    simp only [hd.eq, if_neg hd.ne, hd.field, hp, hs]
    rfl
  | absent hd hp hs hh =>
    simp only [hd.eq, if_neg hd.ne, hd.field, hp, hs, ← Bool.not_or, hh]
    rfl
  | value hd hp hs hh =>
    simp only [hd.eq, if_neg hd.ne, hd.field, hp, hs, ← Bool.not_or, hh]
    rfl

theorem reads (ctx : Context) (name : String) : ctx.Reads name (ctx.property name) := by
  suffices ∃ r, ctx.Reads name r by
    obtain ⟨r, h⟩ := this
    rwa [h.eq]
  by_cases hm : ∃ m, ctx.this = .message m
  · obtain ⟨m, hm⟩ := hm
    by_cases hn : name = "*"
    · exact ⟨_, .wildcard hm hn⟩
    · cases hf : m.type.field? name with
      | none => exact ⟨_, .undeclared hm hn hf⟩
      | some f =>
        have hd : ctx.this.Declares name m f := ⟨hm, hn, hf⟩
        cases hp : ctx.presence with
        | true => exact ⟨_, .presence hd hp⟩
        | false =>
          cases hs : f.isScalar with
          | false => exact ⟨_, .notScalar hd hp hs⟩
          | true =>
            cases hh : m.has f || ctx.useDefault with
            | false => exact ⟨_, .absent hd hp hs hh⟩
            | true => exact ⟨_, .value hd hp hs hh⟩
  · exact ⟨_, .notARecord fun m h => hm ⟨m, h⟩⟩

end Context

end RecordPath
