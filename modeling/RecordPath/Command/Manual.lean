namespace RecordPath

inductive Topic where
  | paths
  | expressions
  | functions
  | types
  deriving DecidableEq, Repr

namespace Topic

def names : Topic → List String
  | paths => ["syntax", "paths", "steps"]
  | expressions => ["expressions", "expression", "operators", "ops"]
  | functions => ["functions", "function", "builtins"]
  | types => ["types", "type"]

def all : List Topic := [paths, expressions, functions, types]

/-- The topic of a name, whatever the case of its letters. All names are ASCII, and no letter
beyond ASCII has one of theirs as its lower case. -/
def ofName? (name : String) : Option Topic := all.find? fun t => name.toLower ∈ t.names

def pathsPage : String := "SYNTAX

A query is a sequence of steps. Steps are separated by '/', or written next to
each other when one of them is a bracket or '//'.

ROOT

  /books              A leading '/' anchors the path at the root record
  books               Without it the path also starts at the root record

FIELDS

  /books/title        The title of every book
  /*                  Every field of the root record

  A list is flattened before a field step: '/books/title' reads 'title' from
  each element of 'books'.

  Unset scalar fields read as their default (0, '', false, the first enum
  value). Unset message fields are skipped. Unset list and map fields are
  empty.

RECURSIVE DESCENT

  //title             Every 'title' field at any depth
  /shelf//title       Every 'title' at or below 'shelf'

  A record reachable along several paths is matched once.

KEYS

  The bracket step does one of three things, decided by the expression:

  books[@price > 35]  Boolean: keep the elements the condition holds for
  books[0]            Integer: the element at that 0-based position
  books[length() - 1] The last element
  labels['env']       On a map field: the value under that key
  data[2]             On a bytes field: the byte at that offset

  Adjacent brackets apply one after the other:

  books[@price > 10][0]

  On a single record a bracket keeps or drops the record. Properties there
  only test for presence, so compare values through a list instead:

  /shelf[@open]/books

SELF

  .                   The current value, unchanged

UNION

  /books/title | /magazines/title

  Each branch runs on its own; the matches are concatenated in branch order.
"

def expressionsPage : String := "EXPRESSIONS

Expressions appear between brackets and are evaluated against the value the
bracket step applies to.

PROPERTIES

  @price              Field 'price' of the current record
  price               Same as @price
  @*                  True if any field is present

LITERALS

  42  3.5  'text'  \"text\"  true  FALSE

  Strings have no escape sequences. true/false are case-insensitive.

OPERATORS (loosest to tightest)

  =  !=               Equality
  <  <=  >  >=        Comparison
  +  -  &&  ||        Addition, subtraction, logical and/or
  *  /                Multiplication, division
  !  +  -             Prefix

  '&&' and '||' bind tighter than comparisons, so parenthesize comparisons
  joined by them:

  books[(@price > 10) && (@price < 40)]

  '&&' and '||' short-circuit: 'false && x' never evaluates x.

PRESENCE

  A bracket made only of properties joined by '&&'/'||' tests which fields
  are set:

  books[@isbn]                 Books with an isbn
  books[@isbn || @title]       Books with either field
"

def functionsPage : String := "FUNCTIONS

Both builtins take no arguments and return an integer. Calling an unknown
function or passing arguments is a compile error.

length()

  Number of elements of the list, map or bytes the bracket applies to.

  books[length() - 1]          The last book

position()

  0-based position of the element being tested by a list filter.

  books[position() < 2]        The first two books
"

def typesPage : String := "TYPES

Expressions work with four types: bool, string, int and float.

FIELD KINDS

  bool                bool
  string              string
  signed/unsigned     int
  float/double        float
  enum                string (the value's name)
  bytes               string (decoded as UTF-8)

  Message, list and map fields cannot be used as values.

PROMOTION

  int and float meet as float:  @count < 1.5
  Any other mix is a type error: @count = 'one'

ARITHMETIC

  int / int truncates. Division by zero and int overflow are errors.
  '+' also concatenates strings.

UNSET FIELDS

  A field is set when it differs from its default, or, for lists and maps,
  when it is non-empty. '=' and '!=' read unset fields as their default;
  other operators treat them as missing and the element does not match.

ERRORS

  An error while evaluating a bracket never stops the query. The element or
  branch that raised it simply does not match.
"

def page : Topic → String
  | paths => pathsPage
  | expressions => expressionsPage
  | functions => functionsPage
  | types => typesPage

end Topic

def overview : String := "PROTOQUERY DOCUMENTATION

protoquery is an XPath-style query language for typed record trees. A query is
a path of steps walked from the root record; every value the path reaches is a
match.

DOCUMENTATION CATEGORIES

  syntax            Path steps: root, fields, recursive descent, keys, unions
  expressions       Operators, precedence and properties inside [...]
  functions         The builtin functions length() and position()
  types             Value types, promotion and field presence

QUICK REFERENCE

  /                 Root record (at the start of a path)
  name              Field called name
  *                 Every field
  //                Current record and every record below it
  [@price > 35]     Keep the list elements the condition holds for
  [0]               Element at a 0-based position
  ['key']           Map value for a key
  .                 Current value
  a | b             Matches of a, then matches of b

Run 'protoquery doc <category>' for detailed documentation.
"

end RecordPath
