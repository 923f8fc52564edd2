import ArithMips.Expr

/-!
# Grammar of infix expressions

Which token lists write which expression trees:

* an expression is a row of terms with `+` or `-` between them, a term is a row of factors with `*` or `/` between them,
  and both are read from the left;
* a factor is a literal, a variable, or an expression in parentheses.

So parentheses may stand around any expression, and must stand where precedence or the left reading asks for them.
-/

namespace ArithMips

/-- The three levels of the grammar. -/
inductive Level where
  | factor
  | term
  | sum
  deriving DecidableEq, Repr

/-- `Writes l e ts` says that the tokens `ts` write the tree `e` at the level `l`. -/
inductive Writes : Level → Expr → List Token → Prop where
  | literal (value : Int64) : Writes .factor (.literal value) [.literal value]
  | name (identifier : Text) : Writes .factor (.name identifier) [.name identifier]
  | paren {e : Expr} {ts : List Token} : Writes .sum e ts → Writes .factor e (.lparen :: ts ++ [.rparen])
  | term {e : Expr} {ts : List Token} : Writes .factor e ts → Writes .term e ts
  | product {op : Operator} {l r : Expr} {ts us : List Token} : op = .mul ∨ op = .div →
      Writes .term l ts → Writes .factor r us → Writes .term (.binary op l r) (ts ++ .operator op :: us)
  | sum {e : Expr} {ts : List Token} : Writes .term e ts → Writes .sum e ts
  | addition {op : Operator} {l r : Expr} {ts us : List Token} : op = .add ∨ op = .sub →
      Writes .sum l ts → Writes .term r us → Writes .sum (.binary op l r) (ts ++ .operator op :: us)

theorem Operator.sum_or_product (op : Operator) : (op = .add ∨ op = .sub) ∨ op = .mul ∨ op = .div := by
  cases op <;> simp

/-- No expression is written by nothing. -/
theorem Writes.ne_nil {l : Level} {e : Expr} {ts : List Token} (h : Writes l e ts) : ts ≠ [] := by
  induction h with
  | literal | name | paren => simp
  | term _ ih | sum _ ih => exact ih
  | product | addition => simp

end ArithMips
