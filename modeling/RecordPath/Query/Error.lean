import RecordPath.Token.Lexer

namespace RecordPath

inductive CompileFault where
  | lexical (fault : LexFault)
  | unexpectedToken (found : Token)
  | unknownFunction (name : String)
  | arityMismatch (name : String) (expected found : Nat)
  | missingBracket
  | missingParen
  | missingOperand (operator : Symbol)
  | emptyQuery
  deriving DecidableEq, Repr

structure CompileError where
  fault : CompileFault
  position : Nat
  deriving DecidableEq, Repr

namespace CompileError

def ofLexError (e : LexError) : CompileError := ⟨.lexical e.fault, e.position⟩

def message (e : CompileError) : String :=
  let place := " at position " ++ toString e.position
  match e.fault with
  | .lexical fault => LexError.message ⟨fault, e.position⟩
  | .unexpectedToken found => "unexpected token '" ++ found.text ++ "'" ++ place
  | .unknownFunction name => "unknown function '" ++ name ++ "'" ++ place
  | .arityMismatch name expected found =>
    "function '" ++ name ++ "' takes " ++ toString expected ++ " argument(s) but " ++
      toString found ++ " were given" ++ place
  | .missingBracket => "missing ']'" ++ place
  | .missingParen => "missing ')'" ++ place
  | .missingOperand operator =>
    "operator '" ++ operator.text ++ "'" ++ place ++ " is missing its right operand"
  | .emptyQuery => "empty query" ++ place

end CompileError

end RecordPath
