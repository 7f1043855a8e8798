import RecordPath.Proofs.Query.Yielding

namespace RecordPath.Grammar

variable {stop : Nat} {tokens us : List Located} {e : Expr}

inductive Operand (stop : Nat) (t : Located) (rest : List Located) (us : List Located) :
    Expr → Prop
  | literal {v : Scalar} (ht : t.token = v.token) (hrest : rest = us) :
      Operand stop t rest us (.literal v)
  | named {name : String} {e : Expr} (ht : t.token = .name name)
      (h : (named stop name t.position rest).Yields e us) : Operand stop t rest us e
  | property {e : Expr} (ht : t.token = .symbol .atSign) (h : (property stop rest).Yields e us) :
      Operand stop t rest us e
  | parenthesized {e : Expr} {close : Located} (ht : t.token = .symbol .leftParen)
      (h : (expression stop .lowest rest).Yields e (close :: us))
      (hc : close.token = .symbol .rightParen) : Operand stop t rest us e
  | unary {op : UnaryOp} {e : Expr} (ht : t.token = .symbol op.symbol)
      (h : (operand stop rest).Yields e us) : Operand stop t rest us (.unary op e)

theorem expression_operand (stop : Nat) (tokens : List Located) :
    expression stop .operand tokens = operand stop tokens := by
  rw [expression_eq]
  simp only [climb_of_stops _ (stops_operand _), Reading.bind_done]

theorem of_yields_operand (h : (operand stop tokens).Yields e us) :
    ∃ t rest, tokens = t :: rest ∧ Operand stop t rest us e := by
  cases tokens with
  | nil =>
    rw [operand] at h
    cases h.1
  | cons t rest =>
    refine ⟨t, rest, rfl, ?_⟩
    have hliteral (v : Scalar) (ht : t.token = v.token)
        (h : ((Reading.done (Expr.literal v) rest).after t).Yields e us) :
        Operand stop t rest us e := by
      obtain ⟨rfl, hrest⟩ := h.of_after.of_done
      exact .literal ht hrest
    have hunary (op : UnaryOp) (ht : t.token = .symbol op.symbol)
        (h : (if endsOperand rest then
            (Reading.fail ⟨.missingOperand op.symbol, t.position⟩ rest).after t
          else ((expression stop .operand rest).map (.unary op)).after t).Yields e us) :
        Operand stop t rest us e := by
      split at h
      · cases h.1
      · rw [expression_operand] at h
        obtain ⟨inner, hinner, rfl⟩ := h.of_after.of_map
        exact .unary ht hinner
    rw [operand] at h
    cases ht : t.token with
    | int n =>
      simp only [ht] at h
      exact hliteral (.int n) ht h
    | float x =>
      simp only [ht] at h
      exact hliteral (.float x) ht h
    | string s =>
      simp only [ht] at h
      exact hliteral (.string s) ht h
    | bool b =>
      simp only [ht] at h
      exact hliteral (.bool b) ht h
    | name name =>
      simp only [ht] at h
      exact .named ht h
    | endOfInput =>
      simp only [ht] at h
      cases h.1
    | symbol s =>
      cases s <;> simp only [ht, UnaryOp.ofSymbol?] at h
      case atSign => exact .property ht h
      case leftParen =>
        obtain ⟨inner, ws, hs, hinner, hclose⟩ := h.of_after.of_bind
        obtain ⟨_, hclosing, rfl⟩ := hclose.of_map
        obtain ⟨close, rfl, hc⟩ := of_yields_closing hclosing
        exact .parenthesized ht hinner hc
      case plus => exact hunary .plus ht h
      case minus => exact hunary .minus ht h
      case bang => exact hunary .not ht h
      all_goals cases h.1

/-- A property is one token, whatever follows it. -/
theorem of_yields_property (h : (property stop tokens).Yields e us) :
    ∃ t, tokens = t :: us ∧
      ∀ (stop' : Nat) (vs : List Located), (property stop' (t :: vs)).Yields e vs := by
  unfold property at h
  split at h
  · cases h.1
  · rename_i t rest
    split at h
    · rename_i name ht
      obtain ⟨rfl, rfl⟩ := h.of_after.of_done
      refine ⟨t, rfl, fun stop' vs => ?_⟩
      simp only [property, ht]
      exact (Reading.yields_done _ vs).after t
    · rename_i ht
      obtain ⟨rfl, rfl⟩ := h.of_after.of_done
      refine ⟨t, rfl, fun stop' vs => ?_⟩
      simp only [property, ht]
      exact (Reading.yields_done _ vs).after t
    · cases h.1

theorem Operand.yields {t : Located} (h : Operand stop t tokens us e) :
    (operand stop (t :: tokens)).Yields e us := by
  cases h with
  | literal ht hrest =>
    subst hrest
    exact yields_operand_literal ht
  | named ht h =>
    rw [operand]
    simp only [ht]
    exact h.after t
  | property ht h =>
    rw [operand]
    simp only [ht]
    exact h.after t
  | parenthesized ht h hc => exact yields_operand_parenthesized ht h hc
  | unary ht h => exact yields_operand_unary ht h

theorem Operand.suffix {t : Located} (h : Operand stop t tokens us e) : us <:+ tokens := by
  cases h with
  | literal ht hrest => exact hrest ▸ List.suffix_refl _
  | named ht h | property ht h | unary ht h => exact h.suffix
  | parenthesized ht h hc => exact (List.suffix_cons _ us).trans h.suffix

/-- What a name begins: a property, if no parenthesis follows, or a call. -/
inductive Named (stop : Nat) (name : String) (tokens us : List Located) : Expr → Prop
  | property (hrest : tokens = us)
      (hopen : ∀ t rest, tokens = t :: rest → t.token ≠ .symbol .leftParen) :
      Named stop name tokens us (.property name)
  | call {f : Builtin} {args : List Expr} {left close : Located} {rest : List Located}
      (htokens : tokens = left :: rest) (hleft : left.token = .symbol .leftParen)
      (hf : Builtin.ofName? name = some f) (h : (arguments stop rest).Yields args (close :: us))
      (hc : close.token = .symbol .rightParen) (harity : args.length = f.arity) :
      Named stop name tokens us (.call f args)

theorem of_yields_named {name : String} {position : Nat}
    (h : (named stop name position tokens).Yields e us) : Named stop name tokens us e := by
  cases tokens with
  | nil =>
    rw [named] at h
    obtain ⟨rfl, hrest⟩ := h.of_done
    refine .property hrest fun _ _ hs => ?_
    cases hs
  | cons t rest =>
    rw [named] at h
    split at h
    · rename_i hleft
      split at h
      · cases h.1
      · rename_i f hf
        obtain ⟨args, ws, hs, hargs, hclose⟩ := h.of_after.of_bind
        obtain ⟨_, ws', hs', hclosing, hdone⟩ := hclose.of_bind
        obtain ⟨close, rfl, hc⟩ := of_yields_closing hclosing
        split at hdone
        · rename_i harity
          obtain ⟨rfl, rfl⟩ := hdone.of_done
          exact .call rfl hleft hf hargs hc harity
        · cases hdone.1
    · rename_i hleft
      obtain ⟨rfl, hrest⟩ := h.of_done
      refine .property hrest fun _ _ hs => ?_
      cases hs
      exact hleft

theorem Named.yields {name : String} (h : Named stop name tokens us e) (position : Nat) :
    (named stop name position tokens).Yields e us := by
  cases h with
  | property hrest hopen =>
    subst hrest
    cases tokens with
    | nil =>
      rw [named]
      exact Reading.yields_done _ []
    | cons t rest =>
      rw [named, if_neg (hopen t rest rfl)]
      exact Reading.yields_done _ _
  | call htokens hleft hf h hc harity =>
    subst htokens
    rw [named, if_pos hleft, hf]
    apply Reading.Yields.after
    apply h.bind
    intro _
    apply (yields_closing .missingParen hc).bind
    intro _
    rw [if_pos harity]
    exact Reading.yields_done _ us

inductive Separated (stop : Nat) (tokens us : List Located) : List Expr → Prop
  | last {e : Expr} (h : (expression stop .lowest tokens).Yields e us)
      (hus : ∀ t ws, us = t :: ws → t.token ≠ .symbol .comma) : Separated stop tokens us [e]
  | cons {e : Expr} {comma : Located} {ws : List Located} {es : List Expr}
      (h : (expression stop .lowest tokens).Yields e (comma :: ws))
      (hcomma : comma.token = .symbol .comma) (hes : (separated stop ws).Yields es us) :
      Separated stop tokens us (e :: es)

theorem of_yields_separated {es : List Expr} (h : (separated stop tokens).Yields es us) :
    Separated stop tokens us es := by
  rw [separated] at h
  obtain ⟨e, ws, hs, he, h⟩ := h.of_bind
  cases ws with
  | nil =>
    obtain ⟨rfl, rfl⟩ := h.of_done
    exact .last he nofun
  | cons t ws =>
    dsimp only at h
    split at h
    · obtain ⟨es, hes, rfl⟩ := h.of_after.of_map
      exact .cons he ‹_› hes
    · rename_i hcomma
      obtain ⟨rfl, rfl⟩ := h.of_done
      refine .last he ?_
      rintro s vs ⟨⟩
      exact hcomma

theorem Separated.yields {es : List Expr} (h : Separated stop tokens us es) :
    (separated stop tokens).Yields es us := by
  rw [separated]
  cases h with
  | last h hus =>
    apply h.bind
    intro _
    cases us with
    | nil => exact Reading.yields_done _ []
    | cons t ws =>
      simp only [hus t ws rfl, if_false]
      exact Reading.yields_done _ _
  | cons h hcomma hes =>
    apply h.bind
    intro _
    simp only [hcomma, if_true]
    exact (hes.map (_ :: ·)).after _

/-- One turn of the climbing loop: it stops, or it takes an operator and a right side. -/
inductive Climb (stop : Nat) (floor : Tier) (left : Expr) (tokens us : List Located) : Expr → Prop
  | stops (h : Stops floor tokens) (hrest : tokens = us) : Climb stop floor left tokens us left
  | turn {t : Located} {rest ws : List Located} {op : BinaryOp} {right e : Expr}
      (htokens : tokens = t :: rest) (hop : BinaryOp.ofToken? t.token = some op)
      (hle : ¬ op.tier ≤ floor) (hright : (expression stop op.tier rest).Yields right ws)
      (h : (climb stop floor (.binary op left right) ws).Yields e us) :
      Climb stop floor left tokens us e

theorem of_yields_climb {floor : Tier} {left : Expr}
    (h : (climb stop floor left tokens).Yields e us) : Climb stop floor left tokens us e := by
  by_cases hs : Stops floor tokens
  · rw [climb_of_stops left hs] at h
    obtain ⟨rfl, hrest⟩ := h.of_done
    exact .stops hs hrest
  · simp only [Stops, Classical.not_forall] at hs
    obtain ⟨t, rest, op, rfl, hop, hle⟩ := hs
    cases hends : endsOperand rest with
    | true =>
      rw [climb_of_ends hop hle hends] at h
      cases h.1
    | false =>
      rw [climb_of_lt hop hle hends] at h
      obtain ⟨right, ws, hs, hright, hclimb⟩ := h.of_after.of_bind
      exact .turn rfl hop hle hright hclimb

/-- Where an expression was read, an operand could begin. -/
theorem endsOperand_of_yields_expression {floor : Tier}
    (h : (expression stop floor tokens).Yields e us) : endsOperand tokens = false := by
  rw [expression_eq] at h
  obtain ⟨left, ws, -, hleft, -⟩ := h.of_bind
  exact endsOperand_of_yields hleft

theorem length_lt_of_yields_expression {floor : Tier}
    (h : (expression stop floor tokens).Yields e us) : us.length < tokens.length := by
  rw [expression_eq] at h
  obtain ⟨left, vs, -, hleft, hclimb⟩ := h.of_bind
  obtain ⟨t, rest, rfl, hoperand⟩ := of_yields_operand hleft
  exact Nat.lt_succ_of_le (hclimb.suffix.trans hoperand.suffix).length_le

theorem Climb.yields {floor : Tier} {left : Expr} (h : Climb stop floor left tokens us e) :
    (climb stop floor left tokens).Yields e us := by
  cases h with
  | stops hs hrest =>
    subst hrest
    rw [climb_of_stops _ hs]
    exact Reading.yields_done _ _
  | @turn t rest ws op right _ htokens hop hle hright hclimb =>
    subst htokens
    rw [climb_of_lt hop hle (endsOperand_of_yields_expression hright)]
    apply Reading.Yields.after
    exact hright.bind fun _ => hclimb

end RecordPath.Grammar
