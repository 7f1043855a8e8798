import RecordPath.Expr.Basic

namespace RecordPath.Expr

def parenthesized (e : Expr) (text : String) : String :=
  if e.isBinary then "(" ++ text ++ ")" else text

mutual

/-- Operands that are binary themselves stand in parentheses, so that the text needs no precedence
to be read back. -/
def text : Expr → String
  | literal v => v.literalText
  | property name => "@" ++ name
  | call f arguments => f.name ++ "(" ++ argumentsText arguments ++ ")"
  | unary op operand => op.text ++ parenthesized operand operand.text
  | binary op left right =>
    parenthesized left left.text ++ " " ++ op.text ++ " " ++ parenthesized right right.text
termination_by structural e => e

def argumentsText : List Expr → String
  | [] => ""
  | [e] => e.text
  | e :: es => e.text ++ ", " ++ argumentsText es
termination_by structural es => es

end

end RecordPath.Expr
