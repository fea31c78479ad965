/-!
# Scalars

Expression trees use numbers only through the operations listed here. The definitions of this
library therefore run on doubles, and the same definitions can be read on the exact reals.
-/

namespace Univariate

/-- The operations on numbers that trees, simplification and differentiation use. No law is part of
the class: a theorem that needs one states it. -/
class Scalar (α : Type) extends Zero α, One α, Neg α, Add α, Sub α, Mul α, Div α where
  /-- The magnitude of a number. -/
  abs : α → α
  /-- `pow a b` is `a` raised to `b`. -/
  pow : α → α → α
  /-- `log a b` is the logarithm of `a` to the base `b`. -/
  log : α → α → α
  /-- The sine of an angle in radians. -/
  sin : α → α
  /-- The cosine of an angle in radians. -/
  cos : α → α
  /-- The tangent of an angle in radians. -/
  tan : α → α
  /-- Euler's number. -/
  euler : α
  /-- The ratio of a circle's circumference to its diameter. -/
  pi : α
  /-- The value of an operation that has none. -/
  undefined : α
  /-- Whether one number is below another. -/
  less : α → α → Bool
  /-- Whether two numbers compare equal. -/
  equal : α → α → Bool
  /-- `roundTo n a` is `a` rounded to `n` digits after the decimal point, a tie going to the even
  neighbour. -/
  roundTo : Nat → α → α

namespace Scalar

variable {α : Type} [Scalar α]

/-- Whether a number is below zero. A negative zero is not. -/
def isNegative (a : α) : Bool := less a 0

/-- Whether a number is above zero. -/
def isPositive (a : α) : Bool := less 0 a

end Scalar

/-- The two facts about signs on which the termination of simplification rests: a magnitude is not
below zero, and rounding takes no number below zero that was not there before. -/
class LawfulScalar (α : Type) [Scalar α] : Prop where
  /-- A magnitude is never below zero. -/
  abs_not_negative : ∀ a : α, Scalar.isNegative (Scalar.abs a) = false
  /-- Rounding keeps a number that is not below zero there. -/
  roundTo_not_negative : ∀ (n : Nat) (a : α), Scalar.isNegative a = false →
    Scalar.isNegative (Scalar.roundTo n a) = false

end Univariate
