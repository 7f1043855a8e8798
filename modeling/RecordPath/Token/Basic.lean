import RecordPath.Decimal.Layout

namespace RecordPath

inductive Symbol where
  | slash | doubleSlash
  | leftBracket | rightBracket | leftParen | rightParen
  | atSign | dot | doubleDot | comma | bar
  | equal | notEqual | less | lessEqual | greater | greaterEqual
  | doubleAmpersand | doubleBar | bang
  | plus | minus | star
  deriving DecidableEq, Repr

namespace Symbol

def chars : Symbol → List Char
  | slash => ['/']
  | doubleSlash => ['/', '/']
  | leftBracket => ['[']
  | rightBracket => [']']
  | leftParen => ['(']
  | rightParen => [')']
  | atSign => ['@']
  | dot => ['.']
  | doubleDot => ['.', '.']
  | comma => [',']
  | bar => ['|']
  | equal => ['=']
  | notEqual => ['!', '=']
  | less => ['<']
  | lessEqual => ['<', '=']
  | greater => ['>']
  | greaterEqual => ['>', '=']
  | doubleAmpersand => ['&', '&']
  | doubleBar => ['|', '|']
  | bang => ['!']
  | plus => ['+']
  | minus => ['-']
  | star => ['*']

def text (s : Symbol) : String := String.ofList s.chars

@[simp] theorem toList_text (s : Symbol) : s.text.toList = s.chars := String.toList_ofList

def all : List Symbol :=
  [slash, doubleSlash, leftBracket, rightBracket, leftParen, rightParen, atSign, dot, doubleDot,
    comma, bar, equal, notEqual, less, lessEqual, greater, greaterEqual, doubleAmpersand,
    doubleBar, bang, plus, minus, star]

theorem chars_ne_nil (s : Symbol) : s.chars ≠ [] := by cases s <;> decide

def ofChars? (cs : List Char) : Option Symbol := all.find? fun s => s.chars == cs

theorem ofChars?_eq_some {cs : List Char} {s : Symbol} : ofChars? cs = some s ↔ s.chars = cs := by
  constructor
  · intro h
    simpa using List.find?_some h
  · rintro rfl
    cases s <;> decide

/-- The longest symbol at the front of a text. -/
def ofFront? (cs : List Char) : Option Symbol := ofChars? (cs.take 2) <|> ofChars? (cs.take 1)

end Symbol

inductive Token where
  /-- A field or function name. -/
  | name (text : String)
  | int (value : Int64)
  | float (value : Float)
  | bool (value : Bool)
  /-- The characters between two quotes. -/
  | string (text : String)
  | symbol (symbol : Symbol)
  | endOfInput
  deriving DecidableEq, Repr

/-- Floats in queries never have an exponent part; half-way digits go up. -/
def queryFloat : Decimal.Layout where
  tie := .up
  isPositional _ := true
  pointsWhole := false
  plus := false

def boolText (b : Bool) : String := if b then "true" else "false"

def Token.text : Token → String
  | .name s => s
  | .int n => toString n.toInt
  | .float x => queryFloat.text x
  | .bool b => boolText b
  | .string s => "'" ++ s ++ "'"
  | .symbol s => s.text
  | .endOfInput => "end of input"

structure Located where
  token : Token
  position : Nat
  deriving DecidableEq, Repr

end RecordPath
