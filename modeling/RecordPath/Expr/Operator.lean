import RecordPath.Token.Basic

namespace RecordPath

inductive Tier where
  | lowest
  | equality
  | comparison
  | sum
  | product
  | operand
  deriving DecidableEq, Repr

namespace Tier

def rank : Tier → Nat
  | lowest => 0
  | equality => 1
  | comparison => 2
  | sum => 3
  | product => 4
  | operand => 5

instance : LE Tier := ⟨fun s t => s.rank ≤ t.rank⟩

instance : LT Tier := ⟨fun s t => s.rank < t.rank⟩

instance (s t : Tier) : Decidable (s ≤ t) := inferInstanceAs (Decidable (s.rank ≤ t.rank))

instance (s t : Tier) : Decidable (s < t) := inferInstanceAs (Decidable (s.rank < t.rank))

theorem rank_le (t : Tier) : t.rank ≤ 5 := by cases t <;> decide

theorem le_operand (t : Tier) : t ≤ operand := t.rank_le

theorem lowest_le (t : Tier) : lowest ≤ t := t.rank.zero_le

theorem le_trans {s t u : Tier} (h : s ≤ t) (h' : t ≤ u) : s ≤ u := Nat.le_trans h h'

end Tier

inductive Comparison where
  | equal | notEqual
  | less | greater | lessEqual | greaterEqual
  deriving DecidableEq, Repr

inductive Arithmetic where
  | add | subtract | multiply | divide
  deriving DecidableEq, Repr

inductive Connective where
  | and | or
  deriving DecidableEq, Repr

inductive BinaryOp where
  | compare (op : Comparison)
  | compute (op : Arithmetic)
  | connect (op : Connective)
  deriving DecidableEq, Repr

namespace BinaryOp

def symbol : BinaryOp → Symbol
  | compare .equal => .equal
  | compare .notEqual => .notEqual
  | compare .less => .less
  | compare .greater => .greater
  | compare .lessEqual => .lessEqual
  | compare .greaterEqual => .greaterEqual
  | compute .add => .plus
  | compute .subtract => .minus
  | compute .multiply => .star
  | compute .divide => .slash
  | connect .and => .doubleAmpersand
  | connect .or => .doubleBar

def ofSymbol? : Symbol → Option BinaryOp
  | .equal => some (compare .equal)
  | .notEqual => some (compare .notEqual)
  | .less => some (compare .less)
  | .greater => some (compare .greater)
  | .lessEqual => some (compare .lessEqual)
  | .greaterEqual => some (compare .greaterEqual)
  | .plus => some (compute .add)
  | .minus => some (compute .subtract)
  | .star => some (compute .multiply)
  | .slash => some (compute .divide)
  | .doubleAmpersand => some (connect .and)
  | .doubleBar => some (connect .or)
  | _ => none

def ofToken? : Token → Option BinaryOp
  | .symbol s => ofSymbol? s
  | _ => none

theorem ofSymbol?_eq_some {s : Symbol} {op : BinaryOp} : ofSymbol? s = some op ↔ op.symbol = s := by
  rcases op with o | o | o <;> cases o <;> cases s <;> decide

/-- The connectives bind as tightly as sums do, and so tighter than comparisons. -/
def tier : BinaryOp → Tier
  | compare .equal | compare .notEqual => .equality
  | compare _ => .comparison
  | compute .add | compute .subtract | connect _ => .sum
  | compute .multiply | compute .divide => .product

theorem not_tier_le_lowest (op : BinaryOp) : ¬ op.tier ≤ .lowest := by
  rcases op with o | o | o <;> cases o <;> decide

def text (op : BinaryOp) : String := op.symbol.text

def isConnective (op : BinaryOp) : Bool := op matches connect _

end BinaryOp

inductive UnaryOp where
  | not
  | plus
  | minus
  deriving DecidableEq, Repr

namespace UnaryOp

def symbol : UnaryOp → Symbol
  | not => .bang
  | plus => .plus
  | minus => .minus

def ofSymbol? : Symbol → Option UnaryOp
  | .bang => some not
  | .plus => some plus
  | .minus => some minus
  | _ => none

def text (op : UnaryOp) : String := op.symbol.text

end UnaryOp

end RecordPath
