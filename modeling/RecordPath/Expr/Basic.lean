import RecordPath.Expr.Operator
import RecordPath.Scalar

namespace RecordPath

inductive Builtin where
  /-- The number of elements of the collection at hand. -/
  | length
  /-- The place of an element in its list, from 0. -/
  | position
  deriving DecidableEq, Repr

namespace Builtin

def name : Builtin → String
  | length => "length"
  | position => "position"

def ofName? (name : String) : Option Builtin :=
  if name = "length" then some length
  else if name = "position" then some position
  else none

def arity (_ : Builtin) : Nat := 0

end Builtin

inductive Expr where
  | literal (value : Scalar)
  /-- A field of the record at hand; `*` stands for any field. -/
  | property (name : String)
  | call (function : Builtin) (arguments : List Expr)
  | unary (op : UnaryOp) (operand : Expr)
  | binary (op : BinaryOp) (left right : Expr)
  deriving Repr

namespace Expr

/-- Induction on an expression, for what does not depend on the arguments of calls. -/
@[elab_as_elim, induction_eliminator]
theorem induct {motive : Expr → Prop} (literal : ∀ v, motive (literal v))
    (property : ∀ name, motive (property name)) (call : ∀ f arguments, motive (call f arguments))
    (unary : ∀ op e, motive e → motive (unary op e))
    (binary : ∀ op l r, motive l → motive r → motive (binary op l r)) (e : Expr) : motive e :=
  match e with
  | .literal v => literal v
  | .property name => property name
  | .call f arguments => call f arguments
  | .unary op e => unary op e (induct literal property call unary binary e)
  | .binary op l r =>
    binary op l r (induct literal property call unary binary l)
      (induct literal property call unary binary r)
termination_by structural e

mutual

def alike : Expr → Expr → Bool
  | literal a, literal b => a = b
  | property a, property b => a = b
  | call f as, call g bs => f = g && allAlike as bs
  | unary o a, unary p b => o = p && alike a b
  | binary o a c, binary p b d => o = p && alike a b && alike c d
  | _, _ => false
termination_by structural e => e

def allAlike : List Expr → List Expr → Bool
  | [], [] => true
  | a :: as, b :: bs => alike a b && allAlike as bs
  | _, _ => false
termination_by structural es => es

end

mutual

theorem alike_iff (a b : Expr) : alike a b = true ↔ a = b := by
  cases a <;> cases b <;> simp [alike, alike_iff, allAlike_iff, and_assoc]
termination_by structural a

theorem allAlike_iff (as bs : List Expr) : allAlike as bs = true ↔ as = bs := by
  cases as <;> cases bs <;> simp [allAlike, alike_iff, allAlike_iff]
termination_by structural as

end

instance : DecidableEq Expr := fun a b => decidable_of_iff _ (alike_iff a b)

/-- A property, or properties joined by connectives. It asks only which fields are there, so it
is answered without reading any of them. -/
def isPresenceTest : Expr → Bool
  | property _ => true
  | binary op left right => op.isConnective && left.isPresenceTest && right.isPresenceTest
  | _ => false

def isBinary (e : Expr) : Bool := e matches binary ..

end Expr

end RecordPath
