import Univariate.Expr.Basic

/-!
# Arithmetic on trees

The operators on trees keep signs out of the operands. A sum or difference absorbs the sign of its
right operand by changing into the other; a product or quotient carries the combined sign of both
operands.
-/

namespace Univariate.Expr

variable {α : Type} [Scalar α]

/-- The sum of two trees, written as a difference if the right one is negative. -/
instance : Add (Expr α) where
  add s t := if t.isNegative then apply2 .subtraction s (-t) else apply2 .addition s t

/-- The difference of two trees, written as a sum if the right one is negative. -/
instance : Sub (Expr α) where
  sub s t := if t.isNegative then apply2 .addition s (-t) else apply2 .subtraction s t

/-- An operation on two unsigned trees, negated if exactly one of them was negative. -/
def hoistSigns (op : BinaryOp) (s t : Expr α) : Expr α :=
  (apply2 op s.unsigned t.unsigned).withNegative (s.isNegative != t.isNegative)

/-- The product of two trees, with their signs combined in the flag of the product. -/
instance : Mul (Expr α) := ⟨hoistSigns .multiplication⟩

/-- The quotient of two trees, with their signs combined in the flag of the quotient. -/
instance : Div (Expr α) := ⟨hoistSigns .division⟩

/-- Euler's number as a leaf. -/
def euler : Expr α := ofNumber Scalar.euler

/-- A tree raised to another. -/
def pow (s t : Expr α) : Expr α := apply2 .power s t

/-- The logarithm of a tree to a base. -/
def log (s base : Expr α) : Expr α := apply2 .logarithm s base

/-- The natural logarithm of a tree. -/
def ln (s : Expr α) : Expr α := s.log euler

/-- The root of a tree of a given degree. -/
def root (s degree : Expr α) : Expr α := apply2 .root s degree

/-- The sine of a tree. -/
def sin (s : Expr α) : Expr α := apply1 .sine s

/-- The cosine of a tree. -/
def cos (s : Expr α) : Expr α := apply1 .cosine s

/-- The tangent of a tree. -/
def tan (s : Expr α) : Expr α := apply1 .tangent s

/-- Adding a negative tree is subtracting its negation. -/
theorem add_def (s t : Expr α) :
    s + t = if t.isNegative then apply2 .subtraction s (-t) else apply2 .addition s t := rfl

/-- Subtracting a negative tree is adding its negation. -/
theorem sub_def (s t : Expr α) :
    s - t = if t.isNegative then apply2 .addition s (-t) else apply2 .subtraction s t := rfl

/-- A product takes the signs of its factors. -/
theorem mul_def (s t : Expr α) : s * t = hoistSigns .multiplication s t := rfl

/-- A quotient takes the signs of its operands. -/
theorem div_def (s t : Expr α) : s / t = hoistSigns .division s t := rfl

/-- A product is negative exactly if one of its factors is. -/
theorem isNegative_mul (s t : Expr α) : (s * t).isNegative = (s.isNegative != t.isNegative) := by
  rw [mul_def, hoistSigns, isNegative_withNegative]

/-- A quotient is negative exactly if one of its operands is. -/
theorem isNegative_div (s t : Expr α) : (s / t).isNegative = (s.isNegative != t.isNegative) := by
  rw [div_def, hoistSigns, isNegative_withNegative]

/-- The sign of a quotient combines with another one in the flag of the quotient. -/
theorem negateIf_div (negate : Bool) (s t : Expr α) :
    (s / t).negateIf negate = (apply2 .division s.unsigned t.unsigned).withNegative
      (negate != (s.isNegative != t.isNegative)) := by
  rw [negateIf_eq, isNegative_div, div_def, hoistSigns, withNegative_withNegative,
    bne_comm (b := negate)]

end Univariate.Expr
