import RecordPath.Query.Grammar

namespace RecordPath

/-- The tokens that are still to be read, and where the text ends. -/
structure Cursor where
  rest : List Located
  stop : Nat
  deriving DecidableEq, Repr

namespace Cursor

/-- The tokens before the first end mark. Without an end mark, the text ends one byte after the
start of its last token. -/
def ofTokens (tokens : List Located) : Cursor where
  rest := tokens.takeWhile (·.token ≠ .endOfInput)
  stop :=
    match tokens.find? (·.token = .endOfInput), tokens.getLast? with
    | some t, _ => t.position
    | none, some t => t.position + 1
    | none, none => 0

def ofText (text : String) : Except CompileError Cursor :=
  match tokenize text with
  | .ok tokens => .ok ⟨tokens, text.utf8ByteSize⟩
  | .error e => .error (.ofLexError e)

def expression (c : Cursor) (floor : Tier) : Except CompileError Expr × Cursor :=
  let r := Grammar.expression c.stop floor c.rest
  (r.result, ⟨r.rest, c.stop⟩)

/-- Reads a query, which has to reach up to the end. -/
def query (c : Cursor) : Except CompileError Query × Cursor :=
  let r := Grammar.branches c.stop c.rest
  (r.result.map Query.mk, ⟨r.rest, c.stop⟩)

end Cursor

def compile (text : String) : Except CompileError Query := do
  let c ← Cursor.ofText text
  c.query.1

end RecordPath
