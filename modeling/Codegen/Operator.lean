/-
  The operators of expression trees.

  Operators have numbers.  A number outside the declared range is an operator
  that no rule knows; it is kept with its number.
-/

namespace Codegen

/-- The operator of a binary tree. -/
inductive BinaryOp where
  | add | sub | mul | and | or | xor
  | eq | ne | lt | gt | le | ge
  /-- An operator that was never declared, by its number. -/
  | unknown (code : Int)
  deriving DecidableEq, Repr

namespace BinaryOp

/-- The declared operators by number. -/
def declared : List BinaryOp := [add, sub, mul, and, or, xor, eq, ne, lt, gt, le, ge]

/-- The comparisons. -/
def comparisons : List BinaryOp := [eq, ne, lt, gt, le, ge]

/-- The operator of a number. -/
def ofCode (code : Int) : BinaryOp :=
  if code < 0 then unknown code else (declared[code.toNat]?).getD (unknown code)

/-- The operator as it stands between its operands. -/
def text : BinaryOp → String
  | add => "+" | sub => "-" | mul => "*" | and => "&" | or => "|" | xor => "^"
  | eq => "==" | ne => "!=" | lt => "<" | gt => ">" | le => "<=" | ge => ">="
  | unknown code => "BinaryOperator(" ++ toString code ++ ")"

/-- Does the operator give a truth value? -/
def isComparison (op : BinaryOp) : Bool := comparisons.contains op

/-- The operator of a symbol. -/
def ofText? (s : String) : Option BinaryOp := declared.find? (·.text == s)

end BinaryOp

/-- The operator of a unary tree. -/
inductive UnaryOp where
  /-- Bitwise complement. -/
  | not
  /-- Arithmetic negation. -/
  | neg
  /-- An operator that was never declared, by its number. -/
  | unknown (code : Int)
  deriving DecidableEq, Repr

namespace UnaryOp

/-- The operator of a number. -/
def ofCode (code : Int) : UnaryOp :=
  if code = 0 then not else if code = 1 then neg else unknown code

/-- The operator as it stands in front of its operand. -/
def text : UnaryOp → String
  | not => "~"
  | neg => "neg "
  | unknown code => "UnaryOperator(" ++ toString code ++ ")"

end UnaryOp

end Codegen
