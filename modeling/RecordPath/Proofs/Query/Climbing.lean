import RecordPath.Query.Grammar

namespace RecordPath.Grammar

section Turn

variable {stop : Nat} {floor : Tier} {left : Expr} {t : Located} {us : List Located}
variable {op : BinaryOp}

theorem climb_nil : climb stop floor left [] = .done left [] := by rw [climb]

theorem climb_of_none (h : BinaryOp.ofToken? t.token = none) :
    climb stop floor left (t :: us) = .done left (t :: us) := by
  rw [climb]
  simp only [h]

theorem climb_of_le (h : BinaryOp.ofToken? t.token = some op) (hle : op.tier ≤ floor) :
    climb stop floor left (t :: us) = .done left (t :: us) := by
  rw [climb]
  simp only [h, hle, if_true]

theorem climb_of_ends (h : BinaryOp.ofToken? t.token = some op) (hle : ¬ op.tier ≤ floor)
    (he : endsOperand us = true) :
    climb stop floor left (t :: us) =
      (Reading.fail ⟨.missingOperand op.symbol, t.position⟩ us).after t := by
  rw [climb]
  simp only [h, hle, he, if_true, if_false]

theorem climb_of_lt (h : BinaryOp.ofToken? t.token = some op) (hle : ¬ op.tier ≤ floor)
    (he : endsOperand us = false) :
    climb stop floor left (t :: us) =
      ((expression stop op.tier us).bind fun right rest _ =>
        climb stop floor (.binary op left right) rest).after t := by
  rw [climb]
  simp only [h, hle, he, if_false, Bool.false_eq_true]

end Turn

theorem expression_eq (stop : Nat) (floor : Tier) (tokens : List Located) :
    expression stop floor tokens =
      (operand stop tokens).bind fun left rest _ => climb stop floor left rest := by
  rw [expression]

/-- No operator that binds tighter than `floor` stands in front. -/
def Stops (floor : Tier) (tokens : List Located) : Prop :=
  ∀ t us op, tokens = t :: us → BinaryOp.ofToken? t.token = some op → op.tier ≤ floor

theorem stops_of_none {floor : Tier} {t : Located} {us : List Located}
    (h : BinaryOp.ofToken? t.token = none) : Stops floor (t :: us) := by
  intro t' us' op ht hop
  cases ht
  rw [h] at hop
  cases hop

theorem stops_operand (tokens : List Located) : Stops .operand tokens :=
  fun _ _ op _ _ => op.tier.le_operand

theorem Stops.mono {floor floor' : Tier} {tokens : List Located} (h : Stops floor tokens)
    (hle : floor ≤ floor') : Stops floor' tokens :=
  fun t us op ht hop => Tier.le_trans (h t us op ht hop) hle

theorem climb_of_stops {stop : Nat} {floor : Tier} {tokens : List Located} (left : Expr)
    (h : Stops floor tokens) : climb stop floor left tokens = .done left tokens := by
  cases tokens with
  | nil => exact climb_nil
  | cons t us =>
    cases hop : BinaryOp.ofToken? t.token with
    | none => exact climb_of_none hop
    | some op => exact climb_of_le hop (h t us op rfl hop)

/-- A loop that comes to an end has taken every operator that it may take. -/
theorem stops_climb {stop : Nat} {floor : Tier} {left e : Expr} {tokens : List Located}
    (h : (climb stop floor left tokens).result = .ok e) :
    Stops floor (climb stop floor left tokens).rest := by
  by_cases hs : Stops floor tokens
  · rw [climb_of_stops left hs]
    exact hs
  · simp only [Stops, Classical.not_forall] at hs
    obtain ⟨t, us, op, hts, hop, hle⟩ := hs
    rw [hts] at h ⊢
    cases he : endsOperand us with
    | true =>
      rw [climb_of_ends hop hle he] at h
      cases h
    | false =>
      rw [climb_of_lt hop hle he] at h ⊢
      rw [Reading.result_after] at h
      rw [Reading.rest_after]
      obtain ⟨right, -, hres, hrest⟩ := Reading.of_bind_eq_ok h
      -- the loop goes on from where the right side left off, which is further on
      have : (expression stop op.tier us).rest.length < tokens.length := by
        rw [hts]
        exact Nat.lt_succ_of_le (expression stop op.tier us).suffix.length_le
      rw [hrest]
      exact stops_climb hres
termination_by tokens.length

theorem stops_expression {stop : Nat} {floor : Tier} {e : Expr} {tokens : List Located}
    (h : (expression stop floor tokens).result = .ok e) :
    Stops floor (expression stop floor tokens).rest := by
  rw [expression_eq] at h ⊢
  obtain ⟨left, -, hres, hrest⟩ := Reading.of_bind_eq_ok h
  rw [hrest]
  exact stops_climb hres

end RecordPath.Grammar
