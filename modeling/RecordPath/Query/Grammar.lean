import RecordPath.Query.Basic
import RecordPath.Query.Reading

namespace RecordPath.Grammar

def closing (stop : Nat) (mark : Symbol) (fault : CompileFault) (tokens : List Located) :
    Reading Unit tokens :=
  match tokens with
  | [] => .fail ⟨fault, stop⟩ []
  | t :: us =>
    if t.token = .symbol mark then (Reading.done () us).after t
    else .fail ⟨fault, t.position⟩ (t :: us)

def property (stop : Nat) (tokens : List Located) : Reading Expr tokens :=
  match tokens with
  | [] => .fail (unexpectedFront stop []) []
  | t :: us =>
    match t.token with
    | .name name => (Reading.done (.property name) us).after t
    | .symbol .star => (Reading.done (.property "*") us).after t
    | _ => .fail (unexpectedFront stop (t :: us)) (t :: us)

mutual

/-- An operand, and the operators after it that bind tighter than `floor`. -/
def expression (stop : Nat) (floor : Tier) (tokens : List Located) : Reading Expr tokens :=
  (operand stop tokens).bind fun left rest h =>
    have := h.length_le
    climb stop floor left rest
termination_by 4 * tokens.length + 1

/-- Folds the operators that bind tighter than `floor` into the expression read so far. An
operator's right side holds only what binds tighter than itself, so equals group to the left. -/
def climb (stop : Nat) (floor : Tier) (left : Expr) (tokens : List Located) :
    Reading Expr tokens :=
  match tokens with
  | [] => .done left []
  | t :: us =>
    match BinaryOp.ofToken? t.token with
    | none => .done left (t :: us)
    | some op =>
      if op.tier ≤ floor then .done left (t :: us)
      else if endsOperand us then
        (Reading.fail ⟨.missingOperand op.symbol, t.position⟩ us).after t
      else
        ((expression stop op.tier us).bind fun right rest h =>
          have := h.length_le
          climb stop floor (.binary op left right) rest).after t
termination_by 4 * tokens.length

def operand (stop : Nat) (tokens : List Located) : Reading Expr tokens :=
  match tokens with
  | [] => .fail (unexpectedFront stop []) []
  | t :: us =>
    match t.token with
    | .int n => (Reading.done (.literal (.int n)) us).after t
    | .float x => (Reading.done (.literal (.float x)) us).after t
    | .string s => (Reading.done (.literal (.string s)) us).after t
    | .bool b => (Reading.done (.literal (.bool b)) us).after t
    | .name name => (named stop name t.position us).after t
    | .symbol .atSign => (property stop us).after t
    | .symbol .leftParen =>
      ((expression stop .lowest us).bind fun e rest _ =>
        (closing stop .rightParen .missingParen rest).map fun _ => e).after t
    | .symbol s =>
      match UnaryOp.ofSymbol? s with
      | none => .fail (unexpectedFront stop (t :: us)) (t :: us)
      | some op =>
        if endsOperand us then (Reading.fail ⟨.missingOperand s, t.position⟩ us).after t
        else ((expression stop .operand us).map (.unary op)).after t
    | .endOfInput => .fail (unexpectedFront stop (t :: us)) (t :: us)
termination_by 4 * tokens.length

/-- What a name that stands at `position` begins: a call if a parenthesis follows, or else a
property. -/
def named (stop : Nat) (name : String) (position : Nat) (tokens : List Located) :
    Reading Expr tokens :=
  match tokens with
  | [] => .done (.property name) []
  | t :: us =>
    if t.token = .symbol .leftParen then
      match Builtin.ofName? name with
      | none => .fail ⟨.unknownFunction name, position⟩ (t :: us)
      | some f =>
        ((arguments stop us).bind fun args rest _ =>
          (closing stop .rightParen .missingParen rest).bind fun _ rest _ =>
            if args.length = f.arity then .done (.call f args) rest
            else .fail ⟨.arityMismatch name f.arity args.length, position⟩ rest).after t
    else .done (.property name) (t :: us)
termination_by 4 * tokens.length + 1

def arguments (stop : Nat) (tokens : List Located) : Reading (List Expr) tokens :=
  match tokens with
  | [] => separated stop []
  | t :: us =>
    if t.token = .symbol .rightParen then .done [] (t :: us)
    else separated stop (t :: us)
termination_by 4 * tokens.length + 3

def separated (stop : Nat) (tokens : List Located) : Reading (List Expr) tokens :=
  (expression stop .lowest tokens).bind fun e rest h =>
    match rest with
    | [] => .done [e] []
    | t :: us =>
      if t.token = .symbol .comma then
        have := h.length_le
        ((separated stop us).map (e :: ·)).after t
      else .done [e] (t :: us)
termination_by 4 * tokens.length + 2

end

/-- The steps of a branch. Only a slash in front of them all stands for the root; the others
separate steps. -/
def steps (stop : Nat) (first : Bool) (tokens : List Located) : Reading (List Step) tokens :=
  match tokens with
  | [] => .done [] []
  | t :: us =>
    match t.token with
    | .symbol .bar => .done [] (t :: us)
    | .symbol .slash =>
      ((steps stop false us).map fun ss => if first then .root :: ss else ss).after t
    | .symbol .doubleSlash => ((steps stop false us).map (.descend :: ·)).after t
    | .name name => ((steps stop false us).map (.field name :: ·)).after t
    | .symbol .star => ((steps stop false us).map (.field "*" :: ·)).after t
    | .symbol .dot => ((steps stop false us).map (.self :: ·)).after t
    | .symbol .leftBracket =>
      ((expression stop .lowest us).bind fun e rest h =>
        (closing stop .rightBracket .missingBracket rest).bind fun _ rest' h' =>
          have := h.length_le
          have := h'.length_le
          (steps stop false rest').map (.key e :: ·)).after t
    | _ => .fail (unexpectedFront stop (t :: us)) (t :: us)
termination_by tokens.length

def branch (stop : Nat) (tokens : List Located) : Reading Path tokens :=
  (steps stop true tokens).bind fun ss rest _ =>
    match ss with
    | [] => .fail ⟨.emptyQuery, frontPosition stop tokens⟩ rest
    | s :: ss => .done ⟨s :: ss⟩ rest

def branches (stop : Nat) (tokens : List Located) : Reading (List Path) tokens :=
  (branch stop tokens).bind fun p rest h =>
    match rest with
    | [] => .done [p] []
    | t :: us =>
      if t.token = .symbol .bar then
        have := h.length_le
        ((branches stop us).map (p :: ·)).after t
      else .fail (unexpectedFront stop (t :: us)) (t :: us)
termination_by tokens.length

end RecordPath.Grammar
