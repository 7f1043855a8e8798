import Mathlib.Control.Monad.Basic
import RecordPath.Proofs.Query.Climbing
import RecordPath.Query.Cursor

namespace RecordPath

def Tier.next : Tier → Tier
  | lowest => equality
  | equality => comparison
  | comparison => sum
  | sum => product
  | product | operand => operand

namespace Tier

theorem rank_lt_next {t : Tier} (h : t ≠ operand) : t.rank < t.next.rank := by
  revert h; cases t <;> decide

theorem le_next {s t : Tier} (h : s ≤ t) : s ≤ t.next := by
  revert h; cases s <;> cases t <;> decide

theorem ne_next_of_le {s t : Tier} (ht : t.next ≠ operand) (h : s ≤ t) : s ≠ t.next := by
  revert ht h; cases s <;> cases t <;> decide

theorem eq_next {s t : Tier} (h : ¬ s ≤ t) (hn : s ≤ t.next) : s = t.next := by
  revert h hn; cases s <;> cases t <;> decide

/-- No operator binds as tightly as an operand. -/
theorem le_of_next_eq_operand {t : Tier} (h : t.next = operand) (op : BinaryOp) : op.tier ≤ t := by
  revert h; rcases op with o | o | o <;> cases o <;> cases t <;> decide

end Tier

namespace Layered

open Grammar

/-- The operators that stand between the operands of a level, and the trees they make. -/
def operators : Tier → List (Symbol × BinaryOp)
  | .equality => [(.equal, .compare .equal), (.notEqual, .compare .notEqual)]
  | .comparison =>
    [(.less, .compare .less), (.lessEqual, .compare .lessEqual),
      (.greater, .compare .greater), (.greaterEqual, .compare .greaterEqual)]
  | .sum =>
    [(.plus, .compute .add), (.minus, .compute .subtract),
      (.doubleAmpersand, .connect .and), (.doubleBar, .connect .or)]
  | .product => [(.star, .compute .multiply), (.slash, .compute .divide)]
  | .lowest | .operand => []

def operator? (tier : Tier) : Token → Option BinaryOp
  | .symbol s => (operators tier).lookup s
  | _ => none

/-- The levels share out the operators by the strength with which each binds. -/
theorem operator?_eq_filter (tier : Tier) (token : Token) :
    operator? tier token = (BinaryOp.ofToken? token).filter (·.tier = tier) := by
  cases token with
  | symbol s => cases tier <;> cases s <;> rfl
  | _ => rfl

mutual

/-- A chain of operators of one tier, whose operands are read at the next level. The innermost
level is that of bare operands. -/
def level (stop : Nat) (tier : Tier) (tokens : List Located) : Reading Expr tokens :=
  have := tier.rank_le
  if ht : tier = .operand then operand stop tokens
  else
    have := Tier.rank_lt_next ht
    (level stop tier.next tokens).bind fun left rest h =>
      have := h.length_le
      chain stop tier left rest
termination_by 16 * tokens.length + (7 - tier.rank)

def chain (stop : Nat) (tier : Tier) (left : Expr) (tokens : List Located) :
    Reading Expr tokens :=
  match tokens with
  | [] => .done left []
  | t :: us =>
    match operator? tier t.token with
    | none => .done left (t :: us)
    | some op =>
      if endsOperand us then
        (Reading.fail ⟨.missingOperand op.symbol, t.position⟩ us).after t
      else
        ((level stop tier.next us).bind fun right rest h =>
          have := h.length_le
          chain stop tier (.binary op left right) rest).after t
termination_by 16 * tokens.length

/-- An operand, in which whole expressions begin at the outermost level again. -/
def operand (stop : Nat) (tokens : List Located) : Reading Expr tokens :=
  match tokens with
  | [] => .fail (unexpectedFront stop []) []
  | t :: us =>
    match t.token with
    | .int n => (Reading.done (.literal (.int n)) us).after t
    | .float x => (Reading.done (.literal (.float x)) us).after t
    | .string s => (Reading.done (.literal (.string s)) us).after t
    | .bool b => (Reading.done (.literal (.bool b)) us).after t
    | .name name => (named stop name t.position us).after t
    | .symbol .atSign => (property stop us).after t
    | .symbol .leftParen =>
      ((level stop .equality us).bind fun e rest _ =>
        (closing stop .rightParen .missingParen rest).map fun _ => e).after t
    | .symbol s =>
      match UnaryOp.ofSymbol? s with
      | none => .fail (unexpectedFront stop (t :: us)) (t :: us)
      | some op =>
        if endsOperand us then (Reading.fail ⟨.missingOperand s, t.position⟩ us).after t
        else ((operand stop us).map (.unary op)).after t
    | .endOfInput => .fail (unexpectedFront stop (t :: us)) (t :: us)
termination_by 16 * tokens.length

def named (stop : Nat) (name : String) (position : Nat) (tokens : List Located) :
    Reading Expr tokens :=
  match tokens with
  | [] => .done (.property name) []
  | t :: us =>
    if t.token = .symbol .leftParen then
      match Builtin.ofName? name with
      | none => .fail ⟨.unknownFunction name, position⟩ (t :: us)
      | some f =>
        ((arguments stop us).bind fun args rest _ =>
          (closing stop .rightParen .missingParen rest).bind fun _ rest _ =>
            if args.length = f.arity then .done (.call f args) rest
            else .fail ⟨.arityMismatch name f.arity args.length, position⟩ rest).after t
    else .done (.property name) (t :: us)
termination_by 16 * tokens.length

def arguments (stop : Nat) (tokens : List Located) : Reading (List Expr) tokens :=
  match tokens with
  | [] => separated stop []
  | t :: us =>
    if t.token = .symbol .rightParen then .done [] (t :: us)
    else separated stop (t :: us)
termination_by 16 * tokens.length + 9

def separated (stop : Nat) (tokens : List Located) : Reading (List Expr) tokens :=
  (level stop .equality tokens).bind fun e rest h =>
    match rest with
    | [] => .done [e] []
    | t :: us =>
      if t.token = .symbol .comma then
        have := h.length_le
        ((separated stop us).map (e :: ·)).after t
      else .done [e] (t :: us)
termination_by 16 * tokens.length + 8

end

section Turn

variable {stop : Nat} {tier : Tier} {left : Expr} {t : Located} {us : List Located}
variable {op : BinaryOp}

theorem chain_nil : chain stop tier left [] = .done left [] := by rw [chain]

theorem chain_of_none (h : BinaryOp.ofToken? t.token = none) :
    chain stop tier left (t :: us) = .done left (t :: us) := by
  rw [chain]
  simp only [operator?_eq_filter, h, Option.filter_none]

theorem chain_of_ne (h : BinaryOp.ofToken? t.token = some op) (ht : op.tier ≠ tier) :
    chain stop tier left (t :: us) = .done left (t :: us) := by
  have hop : operator? tier t.token = none := by simp [operator?_eq_filter, h, ht]
  rw [chain]
  simp only [hop]

theorem operator?_eq_some (h : BinaryOp.ofToken? t.token = some op) (ht : op.tier = tier) :
    operator? tier t.token = some op := by
  simp [operator?_eq_filter, h, ht]

theorem chain_of_ends (h : BinaryOp.ofToken? t.token = some op) (ht : op.tier = tier)
    (he : endsOperand us = true) :
    chain stop tier left (t :: us) =
      (Reading.fail ⟨.missingOperand op.symbol, t.position⟩ us).after t := by
  rw [chain]
  simp only [operator?_eq_some h ht, he, if_true]

theorem chain_of_eq (h : BinaryOp.ofToken? t.token = some op) (ht : op.tier = tier)
    (he : endsOperand us = false) :
    chain stop tier left (t :: us) =
      ((level stop tier.next us).bind fun right rest _ =>
        chain stop tier (.binary op left right) rest).after t := by
  rw [chain]
  simp only [operator?_eq_some h ht, he, if_false, Bool.false_eq_true]

end Turn

theorem level_operand (stop : Nat) (tokens : List Located) :
    level stop .operand tokens = operand stop tokens := by
  rw [level]
  simp

theorem level_of_ne {stop : Nat} {tier : Tier} (h : tier ≠ .operand) (tokens : List Located) :
    level stop tier tokens =
      (level stop tier.next tokens).bind fun left rest _ => chain stop tier left rest := by
  rw [level]
  simp [h]

/-- Below some length, reading with a floor and reading the level above it come to the same. -/
def AgreeBelow (stop length : Nat) : Prop :=
  ∀ us : List Located, us.length < length → ∀ floor,
    expression stop floor us = level stop floor.next us

variable {stop length : Nat}

/-- The climbing loop takes first what binds tighter than the next tier, then that tier. -/
theorem climb_eq_bind_chain (ih : AgreeBelow stop length) {floor : Tier}
    (hf : floor.next ≠ .operand) (left : Expr) (tokens : List Located)
    (hn : tokens.length ≤ length) :
    climb stop floor left tokens =
      (climb stop floor.next left tokens).bind fun e rest _ =>
        chain stop floor.next e rest := by
  match tokens with
  | [] => rw [climb_nil, climb_nil, Reading.done_bind, chain_nil]
  | t :: us =>
    have hus : us.length < length := hn
    cases hop : BinaryOp.ofToken? t.token with
    | none =>
      rw [climb_of_none hop, climb_of_none hop, Reading.done_bind, chain_of_none hop]
    | some op =>
      by_cases hle : op.tier ≤ floor
      -- an operator that is too loose for both ends the loop and the chain alike
      · rw [climb_of_le hop hle, climb_of_le hop (Tier.le_next hle), Reading.done_bind,
          chain_of_ne hop (Tier.ne_next_of_le hf hle)]
      by_cases hnext : op.tier ≤ floor.next
      · have htier := Tier.eq_next hle hnext
        rw [climb_of_le hop hnext, Reading.done_bind]
        cases he : endsOperand us with
        | true => rw [climb_of_ends hop hle he, chain_of_ends hop htier he]
        | false =>
          rw [climb_of_lt hop hle he, chain_of_eq hop htier he, htier, ← ih us hus]
          congr 1
          apply Reading.bind_congr
          intro right rest hs hr hrest
          have := hs.length_le
          -- the right side has left nothing for a tighter tier
          rw [climb_eq_bind_chain ih hf _ _ (by omega),
            climb_of_stops _ (hrest ▸ stops_expression hr), Reading.done_bind]
      · -- one that binds tighter than both is taken by both loops
        cases he : endsOperand us with
        | true =>
          rw [climb_of_ends hop hle he, climb_of_ends hop hnext he, Reading.after_bind,
            Reading.fail_bind]
        | false =>
          rw [climb_of_lt hop hle he, climb_of_lt hop hnext he, Reading.after_bind,
            Reading.bind_assoc]
          congr 1
          apply Reading.bind_congr
          intro right rest hs hr hrest
          have := hs.length_le
          exact climb_eq_bind_chain ih hf _ _ (by omega)
termination_by tokens.length

theorem separated_eq (ih : AgreeBelow stop length) (tokens : List Located)
    (h : tokens.length < length) : Grammar.separated stop tokens = separated stop tokens := by
  rw [Grammar.separated, separated, ih tokens h]
  apply Reading.bind_congr
  intro e rest hs he hrest
  cases rest with
  | nil => rfl
  | cons t us =>
    have hlen : us.length < tokens.length := hs.length_le
    simp only
    rw [separated_eq ih us (by omega)]
termination_by tokens.length

theorem arguments_eq (ih : AgreeBelow stop length) (tokens : List Located)
    (h : tokens.length < length) : Grammar.arguments stop tokens = arguments stop tokens := by
  cases tokens with
  | nil =>
    rw [Grammar.arguments, arguments]
    exact separated_eq ih [] h
  | cons t us => rw [Grammar.arguments, arguments, separated_eq ih _ h]

theorem named_eq (ih : AgreeBelow stop length) (name : String) (position : Nat)
    (tokens : List Located) (h : tokens.length ≤ length) :
    Grammar.named stop name position tokens = named stop name position tokens := by
  cases tokens with
  | nil => rw [Grammar.named, named]
  | cons t us =>
    rewrite [Grammar.named, named, arguments_eq ih us h]
    rfl

theorem operand_eq (ih : AgreeBelow stop length) (tokens : List Located)
    (h : tokens.length ≤ length) : Grammar.operand stop tokens = operand stop tokens := by
  cases tokens with
  | nil => rw [Grammar.operand, operand]
  | cons t us =>
    have hus : us.length < length := h
    have hnamed := fun name position => named_eq ih name position us (Nat.le_of_lt hus)
    have hunary : expression stop .operand us = operand stop us :=
      (ih us hus .operand).trans (level_operand stop us)
    rewrite [Grammar.operand, operand]
    cases t.token with
    | name name => exact congrArg (Reading.after t) (hnamed name t.position)
    | symbol s =>
      rewrite [ih us hus .lowest, hunary]
      cases s <;> rfl
    | _ => rfl

/-- Reading with a floor comes to reading the level above it, if all shorter readings do. The
levels are taken from the innermost one outwards. -/
theorem expression_eq_level_of_below (ih : AgreeBelow stop length) (floor : Tier)
    (tokens : List Located) (h : tokens.length ≤ length) :
    expression stop floor tokens = level stop floor.next tokens := by
  by_cases hf : floor.next = .operand
  · rw [expression_eq, hf, level_operand, ← operand_eq ih tokens h]
    -- with nothing but operands above it, the loop takes no operator
    have hdone : ∀ left rest, climb stop floor left rest = .done left rest := by
      intro left rest
      apply climb_of_stops
      intro t us op ht hop
      exact Tier.le_of_next_eq_operand hf op
    simp only [hdone, Reading.bind_done]
  · have hinner := expression_eq_level_of_below ih floor.next tokens h
    rw [level_of_ne hf, ← hinner, expression_eq, expression_eq, Reading.bind_assoc]
    apply Reading.bind_congr
    intro left rest hs hr hrest
    exact climb_eq_bind_chain ih hf left rest (Nat.le_trans hs.length_le h)
termination_by 5 - floor.rank
decreasing_by
  have := Tier.rank_lt_next (t := floor) (by rintro rfl; exact hf rfl)
  have := floor.next.rank_le
  omega

theorem agreeBelow (stop length : Nat) : AgreeBelow stop length := by
  induction length with
  | zero =>
    intro us h
    omega
  | succ n ih =>
    intro us h floor
    exact expression_eq_level_of_below ih floor us (by omega)

end Layered

def Cursor.level (c : Cursor) (tier : Tier) : Except CompileError Expr × Cursor :=
  let r := Layered.level c.stop tier c.rest
  (r.result, ⟨r.rest, c.stop⟩)

/-- Climbing with a floor comes to the same as the level above the floor: the same expression, or
the same fault, at the same place. -/
theorem Cursor.expression_eq_level (c : Cursor) (floor : Tier) :
    c.expression floor = c.level floor.next := by
  have h := Layered.agreeBelow c.stop (c.rest.length + 1) c.rest (Nat.lt_succ_self _) floor
  rw [expression, level, h]

/-- Operators of all levels in one expression. With a floor at sums, only the product is read. -/
theorem Cursor.expression_eq_level_mixed :
    let first : List Located :=
      [⟨.int 1, 0⟩, ⟨.symbol .star, 2⟩, ⟨.symbol .minus, 4⟩, ⟨.int 2, 5⟩]
    let others : List Located :=
      [⟨.symbol .plus, 7⟩, ⟨.int 3, 9⟩, ⟨.symbol .slash, 11⟩, ⟨.int 4, 13⟩,
        ⟨.symbol .minus, 15⟩, ⟨.int 5, 17⟩, ⟨.symbol .less, 19⟩, ⟨.int 6, 21⟩,
        ⟨.symbol .equal, 23⟩, ⟨.bool true, 25⟩]
    let c : Cursor := ⟨first ++ others, 29⟩
    let product := Expr.binary (.compute .multiply) (.literal (.int 1))
      (.unary .minus (.literal (.int 2)))
    let quotient := Expr.binary (.compute .divide) (.literal (.int 3)) (.literal (.int 4))
    let sum := Expr.binary (.compute .subtract)
      (.binary (.compute .add) product quotient) (.literal (.int 5))
    let whole := Expr.binary (.compare .equal)
      (.binary (.compare .less) sum (.literal (.int 6))) (.literal (.bool true))
    Cursor.ofText "1 * -2 + 3 / 4 - 5 < 6 = true" = .ok c ∧
      c.level .equality = (.ok whole, ⟨[], 29⟩) ∧
      c.expression .lowest = (.ok whole, ⟨[], 29⟩) ∧
      c.level .product = (.ok product, ⟨others, 29⟩) ∧
      c.expression .sum = (.ok product, ⟨others, 29⟩) := by
  intro first others c product quotient sum whole
  have hwhole : c.level .equality = (.ok whole, ⟨[], 29⟩) := by decide +kernel
  have hproduct : c.level .product = (.ok product, ⟨others, 29⟩) := by decide +kernel
  refine ⟨by decide +kernel, hwhole, ?_, hproduct, ?_⟩
  · exact (Cursor.expression_eq_level c .lowest).trans hwhole
  · exact (Cursor.expression_eq_level c .sum).trans hproduct

end RecordPath
