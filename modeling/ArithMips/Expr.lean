import ArithMips.Token.Basic

/-!
# Expression trees

The meaning of expressions apart from how they are written: a tree of operators over literals and variables, its
value, and its tokens in reverse Polish order, which determine the tree.

The value is explained by the integers: each operator gives its exact result, brought back to 64 bits.  This is what
the operators on tokens compute (`Operator.apply_eq`).
-/

namespace ArithMips

/-- The operators on integers of any size.  Quotients are truncated toward zero, and a quotient by zero is zero. -/
def Operator.exact : Operator → Int → Int → Int
  | add, x, y => x + y
  | sub, x, y => x - y
  | mul, x, y => x * y
  | div, x, y => x.tdiv y

theorem Operator.apply_eq (op : Operator) (x y : Int64) : op.apply x y = .ofInt (op.exact x.toInt y.toInt) := by
  rw [← Int64.toInt_inj, Int64.toInt_ofInt]
  cases op with
  | add => exact Int64.toInt_add x y
  | sub => exact Int64.toInt_sub x y
  | mul => exact Int64.toInt_mul x y
  | div => exact Int64.toInt_div x y

/-- An expression as a tree. -/
inductive Expr where
  | literal (value : Int64)
  | name (identifier : Text)
  | binary (op : Operator) (left right : Expr)
  deriving DecidableEq, Repr

namespace Expr

/-- The value of an expression under an assignment of values to variables. -/
def eval (values : Text → Int64) : Expr → Int64
  | literal value => value
  | name identifier => values identifier
  | binary op left right => .ofInt (op.exact (left.eval values).toInt (right.eval values).toInt)

/-- The variables of an expression, from left to right. -/
def names : Expr → List Text
  | literal _ => []
  | name identifier => [identifier]
  | binary _ left right => left.names ++ right.names

/-- The tokens of an expression in reverse Polish order. -/
def postorder : Expr → List Token
  | literal value => [.literal value]
  | name identifier => [.name identifier]
  | binary op left right => left.postorder ++ right.postorder ++ [.operator op]

theorem postorder_ne_nil (e : Expr) : e.postorder ≠ [] := by
  cases e <;> simp [postorder]

end Expr

end ArithMips
