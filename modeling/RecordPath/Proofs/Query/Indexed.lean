import RecordPath.Proofs.Query.Calls

namespace RecordPath

/-- Readings at an index into tokens, none of which is taken away. There is no answer either where
a token is asked for beyond the last one. -/
abbrev Scan := ReaderT (List Located) (ExceptT CompileError (StateT Nat Option))

namespace Scan

variable {α : Type}

def current : Scan Located := fun tokens i => (tokens[i]?).map fun t => (.ok t, i)

def advance : Scan Unit := fun tokens i =>
  some (.ok (), if i + 1 < tokens.length then i + 1 else i)

def unexpected : Scan α := do
  let t ← current
  throw ⟨.unexpectedToken t.token, t.position⟩

def endsHere : Scan Bool := do
  let t ← current
  return endsOperand [t]

def closing (mark : Symbol) (fault : CompileFault) : Scan Unit := do
  let t ← current
  if t.token = .symbol mark then advance else throw ⟨fault, t.position⟩

def property : Scan Expr := do
  let t ← current
  match t.token with
  | .name name =>
    advance
    return .property name
  | .symbol .star =>
    advance
    return .property "*"
  | _ => unexpected

/-- The phrases that take others to read them, with what each comes to. A phrase in the middle of
which a reading goes round holds what has been read of it so far. -/
inductive Phrase : Type → Type
  | expression (floor : Tier) : Phrase Expr
  | climb (floor : Tier) (left : Expr) : Phrase Expr
  | operand : Phrase Expr
  | named (name : String) (position : Nat) : Phrase Expr
  | arguments : Phrase (List Expr)
  | separated (args : List Expr) : Phrase (List Expr)
  | steps (ss : List Step) : Phrase (List Step)
  | branches (paths : List Path) : Phrase (List Path)

section Phrases

-- `read` reads the phrases that a phrase is made of
variable (read : {α : Type} → Phrase α → Scan α)

def expression (floor : Tier) : Scan Expr := do
  let left ← read .operand
  read (.climb floor left)

def climb (floor : Tier) (left : Expr) : Scan Expr := do
  let t ← current
  match BinaryOp.ofToken? t.token with
  | none => return left
  | some op =>
    if op.tier ≤ floor then return left
    else
      advance
      if ← endsHere then throw ⟨.missingOperand op.symbol, t.position⟩
      else
        let right ← read (.expression op.tier)
        read (.climb floor (.binary op left right))

def unary (op : UnaryOp) (mark : Symbol) (position : Nat) : Scan Expr := do
  advance
  if ← endsHere then throw ⟨.missingOperand mark, position⟩
  else
    let e ← read (.expression .operand)
    return .unary op e

def operand : Scan Expr := do
  let t ← current
  match t.token with
  | .int n =>
    advance
    return .literal (.int n)
  | .float x =>
    advance
    return .literal (.float x)
  | .string s =>
    advance
    return .literal (.string s)
  | .bool b =>
    advance
    return .literal (.bool b)
  | .name name =>
    advance
    read (.named name t.position)
  | .symbol .atSign =>
    advance
    property
  | .symbol .leftParen =>
    advance
    let e ← read (.expression .lowest)
    closing .rightParen .missingParen
    return e
  | .symbol s =>
    match UnaryOp.ofSymbol? s with
    | none => unexpected
    | some op => unary read op s t.position
  | .endOfInput => unexpected

def named (name : String) (position : Nat) : Scan Expr := do
  let t ← current
  if t.token = .symbol .leftParen then
    match Builtin.ofName? name with
    | none => throw ⟨.unknownFunction name, position⟩
    | some f =>
      advance
      let args ← read .arguments
      closing .rightParen .missingParen
      if args.length = f.arity then return .call f args
      else throw ⟨.arityMismatch name f.arity args.length, position⟩
  else return .property name

def arguments : Scan (List Expr) := do
  let t ← current
  if t.token = .symbol .rightParen then return [] else read (.separated [])

def separated (args : List Expr) : Scan (List Expr) := do
  let e ← read (.expression .lowest)
  let t ← current
  if t.token = .symbol .comma then
    advance
    read (.separated (args ++ [e]))
  else return args ++ [e]

def steps (ss : List Step) : Scan (List Step) := do
  let t ← current
  match t.token with
  | .endOfInput | .symbol .bar => return ss
  | .symbol .slash =>
    advance
    read (.steps (if ss.isEmpty then [.root] else ss))
  | .symbol .doubleSlash =>
    advance
    read (.steps (ss ++ [.descend]))
  | .name name =>
    advance
    read (.steps (ss ++ [.field name]))
  | .symbol .star =>
    advance
    read (.steps (ss ++ [.field "*"]))
  | .symbol .dot =>
    advance
    read (.steps (ss ++ [.self]))
  | .symbol .leftBracket =>
    advance
    let e ← read (.expression .lowest)
    closing .rightBracket .missingBracket
    read (.steps (ss ++ [.key e]))
  | _ => unexpected

def branch : Scan Path := do
  let t ← current
  let ss ← read (.steps [])
  if ss.isEmpty then throw ⟨.emptyQuery, t.position⟩ else return ⟨ss⟩

def branches (paths : List Path) : Scan (List Path) := do
  let p ← branch read
  let t ← current
  match t.token with
  | .symbol .bar =>
    advance
    read (.branches (paths ++ [p]))
  | .endOfInput => return paths ++ [p]
  | _ => unexpected

def phrase : {α : Type} → Phrase α → Scan α
  | _, .expression floor => expression read floor
  | _, .climb floor left => climb read floor left
  | _, .operand => operand read
  | _, .named name position => named read name position
  | _, .arguments => arguments read
  | _, .separated args => separated read args
  | _, .steps ss => steps read ss
  | _, .branches paths => branches read paths

end Phrases

/-- Reads a phrase by way of others that are nested no deeper than `depth`. -/
def read : (depth : Nat) → {α : Type} → Phrase α → Scan α
  | 0, _, _ => fun _ _ => none
  | depth + 1, _, p => phrase (read depth) p

def call (depth : Nat) : Call → Scan (Query ⊕ Expr)
  | .query => do
    let paths ← read depth (.branches [])
    return .inl ⟨paths⟩
  | .expression floor => do
    let e ← read depth (.expression floor)
    return .inr e

def indexAfter (depth : Nat) (tokens : List Located) (calls : List Call) : Option Nat :=
  calls.foldlM (fun i k => (call depth k tokens i).map (·.2)) 0

end Scan

def closeTokens (tokens : List Located) : List Located :=
  if tokens.getLast?.any (·.token = .endOfInput) then tokens
  else tokens ++ [⟨.endOfInput, (tokens.getLast?.map (·.position + 1)).getD 0⟩]

end RecordPath
