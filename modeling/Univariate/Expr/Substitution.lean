import Univariate.Expr.Basic

/-!
# Substitution

Substitution puts a tree in the place of the variable, which composes the two functions.
-/

namespace Univariate.Expr

variable {α : Type} [Scalar α]

/-- The tree with every occurrence of the variable replaced by `inner`. -/
def substitute : Expr α → Expr α → Expr α
  | .var negative, inner => inner.negateIf negative
  | .num negative magnitude, _ => .num negative magnitude
  | .unary negative op operand, inner =>
    (apply1 op (operand.substitute inner)).withNegative negative
  | .binary negative op left right, inner =>
    (apply2 op (left.substitute inner) (right.substitute inner)).withNegative negative

end Univariate.Expr
