import RecordPath.Text.Blank
import RecordPath.Token.Basic
import RecordPath.Word

namespace RecordPath

open Text

inductive LexFault where
  | unexpectedCharacter (c : Char)
  | unterminatedString
  | invalidNumber (literal : String)
  deriving DecidableEq, Repr

structure LexError where
  fault : LexFault
  position : Nat
  deriving DecidableEq, Repr

def LexError.message (e : LexError) : String :=
  match e.fault with
  | .unexpectedCharacter c =>
    "unexpected character '" ++ c.toString ++ "' at position " ++ toString e.position
  | .unterminatedString => "unterminated string starting at position " ++ toString e.position
  | .invalidNumber literal =>
    "invalid number '" ++ literal ++ "' at position " ++ toString e.position

namespace Token

def isQuote (c : Char) : Bool := c == '\'' || c == '\"'

def isNameStart (c : Char) : Bool := c.isAlpha || c == '_'

def isNamePart (c : Char) : Bool := c.isAlphanum || c == '_'

def isNumberPart (c : Char) : Bool := c.isDigit || c == '.'

/-- A word is a name, save that `true` and `false` in any mixture of cases are constants. -/
def ofWord (word : List Char) : Token :=
  if word.map Char.toLower = ['t', 'r', 'u', 'e'] then .bool true
  else if word.map Char.toLower = ['f', 'a', 'l', 's', 'e'] then .bool false
  else .name (String.ofList word)

/-- A run of digits is an integer if it fits a word; with one point in it, it is the nearest
double; with more, it is no number. -/
def ofRun? (run : List Char) : Option Token :=
  let whole := run.takeWhile Char.isDigit
  match run.dropWhile Char.isDigit with
  | [] => (signed? (Nat.ofDigitChars 10 whole 0)).map .int
  | _ :: fraction =>
    if fraction.all Char.isDigit then
      some (.float (Float.ofScientific (Nat.ofDigitChars 10 (whole ++ fraction) 0) true
        fraction.length))
    else none

/-- The token or the fault at the front of a text that starts with no blank, and the characters
that it takes up. An unexpected character is not taken. -/
def front (c : Char) (cs : List Char) : Except LexFault Token × List Char :=
  if isQuote c then
    if c ∈ cs then
      let content := cs.takeWhile (· != c)
      (.ok (.string (String.ofList content)), c :: content ++ [c])
    else (.error .unterminatedString, c :: cs)
  else if isNameStart c then
    let word := c :: cs.takeWhile isNamePart
    (.ok (ofWord word), word)
  else if c.isDigit then
    let run := c :: cs.takeWhile isNumberPart
    match ofRun? run with
    | some t => (.ok t, run)
    | none => (.error (.invalidNumber (String.ofList run)), run)
  else
    match Symbol.ofFront? (c :: cs) with
    | some s => (.ok (.symbol s), s.chars)
    | none => (.error (.unexpectedCharacter c), [])

theorem front_ne_nil {c : Char} {cs lexeme : List Char} {t : Token}
    (h : front c cs = (.ok t, lexeme)) : lexeme ≠ [] := by
  unfold front at h
  split at h
  · split at h <;> cases h; simp
  · split at h
    · cases h; simp
    · split at h
      · dsimp only at h
        split at h <;> cases h; simp
      · split at h <;> cases h
        exact Symbol.chars_ne_nil _

end Token

structure Lexer where
  rest : List Char
  offset : Nat
  deriving DecidableEq, Repr

namespace Lexer

def ofString (s : String) : Lexer := ⟨s.toList, 0⟩

def advance (l : Lexer) (lexeme : List Char) : Lexer :=
  ⟨l.rest.drop lexeme.length, l.offset + byteLength lexeme⟩

def skipBlanks (l : Lexer) : Lexer := l.advance (l.rest.takeWhile isBlank)

def first (l : Lexer) : Except LexError Located × Lexer :=
  match l.rest with
  | [] => (.ok ⟨.endOfInput, l.offset⟩, l)
  | c :: cs =>
    match Token.front c cs with
    | (.ok t, lexeme) => (.ok ⟨t, l.offset⟩, l.advance lexeme)
    | (.error f, lexeme) => (.error ⟨f, l.offset⟩, l.advance lexeme)

/-- The next token or fault. At the end of the text it is always the end mark. -/
def next (l : Lexer) : Except LexError Located × Lexer := l.skipBlanks.first

theorem length_skipBlanks_le (l : Lexer) : l.skipBlanks.rest.length ≤ l.rest.length := by
  simp [skipBlanks, advance]

theorem length_first_lt {l l' : Lexer} {t : Located} (h : l.first = (.ok t, l'))
    (ht : t.token ≠ .endOfInput) : l'.rest.length < l.rest.length := by
  unfold first at h
  split at h
  · cases h; contradiction
  · rename_i c cs hrest
    split at h <;> cases h
    rename_i t lexeme hf
    have hpos := List.length_pos_iff.2 (Token.front_ne_nil hf)
    simp only [advance, hrest, List.length_drop, List.length_cons]
    omega

theorem length_next_lt {l l' : Lexer} {t : Located} (h : l.next = (.ok t, l'))
    (ht : t.token ≠ .endOfInput) : l'.rest.length < l.rest.length :=
  Nat.lt_of_lt_of_le (length_first_lt h ht) l.length_skipBlanks_le

def drain (l : Lexer) : Except LexError (List Located) :=
  match h : l.next with
  | (.error e, _) => .error e
  | (.ok t, l') =>
    if ht : t.token = .endOfInput then .ok []
    else
      have := length_next_lt h ht
      (drain l').map (t :: ·)
termination_by l.rest.length

end Lexer

def tokenize (text : String) : Except LexError (List Located) := (Lexer.ofString text).drain

end RecordPath
