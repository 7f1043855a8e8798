import RecordPath.Query.Printer
import RecordPath.Token.Lexer

namespace RecordPath

def isIdentifier : List Char → Bool
  | [] => false
  | c :: cs => Token.isNameStart c && cs.all Token.isNamePart

/-- A name that a step or a property can have: `*`, or an identifier that is no constant. -/
def isFieldName (s : String) : Bool :=
  s = "*" || (isIdentifier s.toList &&
    s.toList.map Char.toLower ≠ ['t', 'r', 'u', 'e'] &&
    s.toList.map Char.toLower ≠ ['f', 'a', 'l', 's', 'e'])

/-- Literals have no sign, and strings leave one kind of quote to stand around them. -/
def Scalar.wellFormed : Scalar → Bool
  | bool _ => true
  | int n => 0 ≤ n.toInt
  | float x => Decimal.isFinite x && !(Decimal.parts x).negative
  | string s => !(s.toList.contains '\'' && s.toList.contains '\"')

def Expr.wellFormed : Expr → Bool
  | literal v => v.wellFormed
  | property name => isFieldName name
  | call _ arguments => arguments.isEmpty
  | unary _ e => e.wellFormed
  | binary _ l r => l.wellFormed && r.wellFormed
termination_by structural e => e

def Step.wellFormed : Step → Bool
  | root | descend | self => true
  | field name => isFieldName name
  | key e => e.wellFormed

/-- A path has steps, and only the first of them may be the root. -/
def Path.wellFormed (p : Path) : Bool :=
  !p.steps.isEmpty && p.steps.all Step.wellFormed && !p.steps.tail.contains .root

def Query.wellFormed (q : Query) : Bool := !q.branches.isEmpty && q.branches.all Path.wellFormed

def Expr.floats : Expr → List Float
  | literal (.float x) => [x]
  | literal _ | property _ | call .. => []
  | unary _ e => e.floats
  | binary _ l r => l.floats ++ r.floats
termination_by structural e => e

def Step.floats : Step → List Float
  | key e => e.floats
  | _ => []

def Query.floats (q : Query) : List Float := q.branches.flatMap fun p => p.steps.flatMap Step.floats

/-- The literal text of the double stands for the same double. -/
def ReadsBack (x : Float) : Prop :=
  Token.ofRun? (Scalar.float x).literalText.toList = some (.float x)

instance (x : Float) : Decidable (ReadsBack x) := inferInstanceAs (Decidable (_ = _))

def Token.ofFieldName (s : String) : Token := if s = "*" then .symbol .star else .name s

def Scalar.token : Scalar → Token
  | bool b => .bool b
  | string s => .string s
  | int n => .int n
  | float x => .float x

namespace Expr

def bracketed (e : Expr) (tokens : List Token) : List Token :=
  if e.isBinary then .symbol .leftParen :: tokens ++ [.symbol .rightParen] else tokens

def tokens : Expr → List Token
  | literal v => [v.token]
  | property name => [.symbol .atSign, .ofFieldName name]
  | call f _ => [.name f.name, .symbol .leftParen, .symbol .rightParen]
  | unary op e => .symbol op.symbol :: bracketed e e.tokens
  | binary op l r => bracketed l l.tokens ++ .symbol op.symbol :: bracketed r r.tokens
termination_by structural e => e

end Expr

/-- The slash that keeps a name or a dot apart from the step before it. -/
def Step.slashAfter : Option Step → List Token
  | some (.field _) | some (.key _) | some .self => [.symbol .slash]
  | some .root | some .descend | none => []

def Step.tokensAfter (previous : Option Step) : Step → List Token
  | .root => [.symbol .slash]
  | .descend => [.symbol .doubleSlash]
  | .field name => slashAfter previous ++ [.ofFieldName name]
  | .key e => .symbol .leftBracket :: e.tokens ++ [.symbol .rightBracket]
  | .self => slashAfter previous ++ [.symbol .dot]

def Path.tokensAfter (previous : Option Step) : List Step → List Token
  | [] => []
  | s :: steps => s.tokensAfter previous ++ tokensAfter (some s) steps

def Path.tokens (p : Path) : List Token := tokensAfter none p.steps

def Query.tokensOf : List Path → List Token
  | [] => []
  | [p] => p.tokens
  | p :: rest => p.tokens ++ .symbol .bar :: tokensOf rest

def Query.tokens (q : Query) : List Token := tokensOf q.branches

end RecordPath
