import Univariate.Expr.Arithmetic
import Univariate.Expr.Equality
import Univariate.Simplify.Step

/-!
# Simplification rules

A rule replaces one node, whose operands have been simplified before, or does not apply to it. The
rules of one operation are tried in the order of their definitions, and the first that applies is
taken.
-/

namespace Univariate

/-- One application of a rule: which rule it was, and the tree that it built. -/
structure Reduct (α : Type) where
  /-- The rule that was applied. -/
  step : Step
  /-- The tree that takes the place of the other. -/
  tree : Expr α

/-- A rule answers with a reduct of the trees that it applies to. -/
abbrev Rule (α : Type) := Expr α → Option (Reduct α)

namespace Rule

variable {α : Type} [Scalar α]

/-- The first of several rules that applies. -/
def firstOf (rules : List (Rule α)) : Rule α := fun t => rules.findSome? fun rule => rule t

/-- A zero operand of a sum or on the right of a difference goes. -/
def addZero : Rule α
  | .binary negative .addition l r =>
    if l.isNumber 0 then some ⟨.addZero, r.negateIf negative⟩
    else if r.isNumber 0 then some ⟨.addZero, l.negateIf negative⟩
    else none
  | .binary negative .subtraction l r =>
    if r.isNumber 0 then some ⟨.addZero, l.negateIf negative⟩ else none
  | _ => none

/-- A difference from zero is a negation. -/
def subtractFromZero : Rule α
  | .binary negative .subtraction l r =>
    if l.isNumber 0 then some ⟨.subtractFromZero, (-r).negateIf negative⟩ else none
  | _ => none

/-- The rules for sums and differences. -/
def add : Rule α := firstOf [addZero, subtractFromZero]

/-- A product with a zero operand is zero. -/
def multiplyZero : Rule α
  | .binary _ .multiplication l r =>
    if l.isNumber 0 || r.isNumber 0 then some ⟨.multiplyZero, .ofNumber 0⟩ else none
  | _ => none

/-- An operand one of a product goes. -/
def multiplyOne : Rule α
  | .binary negative .multiplication l r =>
    if l.isNumber 1 then some ⟨.multiplyOne, r.negateIf negative⟩
    else if r.isNumber 1 then some ⟨.multiplyOne, l.negateIf negative⟩
    else none
  | _ => none

/-- A product with minus one is a negation. -/
def multiplyMinusOne : Rule α
  | .binary negative .multiplication l r =>
    if l.isNumber (-1) then some ⟨.multiplyMinusOne, (-r).negateIf negative⟩
    else if r.isNumber (-1) then some ⟨.multiplyMinusOne, (-l).negateIf negative⟩
    else none
  | _ => none

/-- The rules for products. -/
def multiply : Rule α := firstOf [multiplyZero, multiplyOne, multiplyMinusOne]

/-- A quotient by zero is undefined. -/
def divideByZero : Rule α
  | .binary _ .division _ r =>
    if r.isNumber 0 then some ⟨.divideByZero, .ofNumber Scalar.undefined⟩ else none
  | _ => none

/-- A quotient of zero is zero. -/
def divideZero : Rule α
  | .binary _ .division l _ =>
    if l.isNumber 0 then some ⟨.divideZero, .ofNumber 0⟩ else none
  | _ => none

/-- A quotient of equal trees is one. -/
def divideSelf : Rule α
  | .binary negative .division l r =>
    if l.equal r then some ⟨.divideSelf, (Expr.ofNumber 1).negateIf negative⟩ else none
  | _ => none

/-- A divisor one goes. -/
def divideOne : Rule α
  | .binary negative .division l r =>
    if r.isNumber 1 then some ⟨.divideOne, l.negateIf negative⟩ else none
  | _ => none

/-- A quotient by minus one is a negation. -/
def divideMinusOne : Rule α
  | .binary negative .division l r =>
    if r.isNumber (-1) then some ⟨.divideMinusOne, (-l).negateIf negative⟩ else none
  | _ => none

/-- The signs of the operands of a quotient move into the sign of the quotient. -/
def divideHoistSign : Rule α
  | .binary negative .division l r =>
    if l.isNegative || r.isNegative then
      some ⟨.divideHoistSign, (Expr.apply2 .division l.unsigned r.unsigned).withNegative
        (negative != (l.isNegative != r.isNegative))⟩
    else none
  | _ => none

/-- The rules for quotients. -/
def divide : Rule α :=
  firstOf [divideByZero, divideZero, divideSelf, divideOne, divideMinusOne, divideHoistSign]

/-- A power of zero is known if the sign of the exponent is. -/
def powerZeroLeft : Rule α
  | .binary negative .power l r =>
    if l.isNumber 0 then
      if r.isNumber 0 then some ⟨.powerZeroZero, (Expr.ofNumber 1).negateIf negative⟩
      else if r.isPositiveConstant then some ⟨.powerZeroLeft, .ofNumber 0⟩
      else if r.isNegativeConstant then some ⟨.powerZeroNegative, .ofNumber Scalar.undefined⟩
      else none
    else none
  | _ => none

/-- A power of one is one. -/
def powerOneLeft : Rule α
  | .binary negative .power l _ =>
    if l.isNumber 1 then some ⟨.powerOneLeft, (Expr.ofNumber 1).negateIf negative⟩ else none
  | _ => none

/-- A power with exponent zero is taken to be zero. -/
def powerZero : Rule α
  | .binary _ .power _ r =>
    if r.isNumber 0 then some ⟨.powerZero, .ofNumber 0⟩ else none
  | _ => none

/-- An exponent one goes. -/
def powerOne : Rule α
  | .binary negative .power l r =>
    if r.isNumber 1 then some ⟨.powerOne, l.negateIf negative⟩ else none
  | _ => none

/-- A power with exponent minus one is an inverse. -/
def powerMinusOne : Rule α
  | .binary negative .power l r =>
    if r.isNumber (-1) then some ⟨.powerMinusOne, (.ofNumber 1 / l).negateIf negative⟩ else none
  | _ => none

/-- Whether the tree is a power of zero. -/
def isPowerOfZero : Expr α → Bool
  | .binary _ .power l _ => l.isNumber 0
  | _ => false

/-- The rules for powers of anything but zero. -/
def powerOfNonzero : Rule α := firstOf [powerOneLeft, powerZero, powerOne, powerMinusOne]

/-- The rules for powers. A power of zero obeys its own rule only. -/
def power : Rule α := fun t => if isPowerOfZero t then powerZeroLeft t else powerOfNonzero t

/-- A logarithm with a negative argument or base is undefined. -/
def logNegative : Rule α
  | .binary _ .logarithm l r =>
    if l.isNegativeConstant || r.isNegativeConstant then
      some ⟨.logNegative, .ofNumber Scalar.undefined⟩
    else none
  | _ => none

/-- A logarithm to the base zero is undefined, except that of one, which is zero. -/
def logBaseZero : Rule α
  | .binary _ .logarithm l r =>
    if r.isNumber 0 then
      if l.isNumber 1 then some ⟨.logBaseZero, .ofNumber 0⟩
      else some ⟨.logBaseZero, .ofNumber Scalar.undefined⟩
    else none
  | _ => none

/-- A logarithm to the base one is undefined. -/
def logBaseOne : Rule α
  | .binary _ .logarithm _ r =>
    if r.isNumber 1 then some ⟨.logBaseOne, .ofNumber Scalar.undefined⟩ else none
  | _ => none

/-- The logarithm of the base is one. -/
def logSelf : Rule α
  | .binary negative .logarithm l r =>
    if l.equal r then some ⟨.logSelf, (Expr.ofNumber 1).negateIf negative⟩ else none
  | _ => none

/-- The exponent of an argument comes out as a factor. -/
def logPowerArgument : Rule α
  | .binary negative .logarithm (.binary false .power a b) r =>
    some ⟨.logPowerArgument, (b * a.log r).negateIf negative⟩
  | _ => none

/-- The exponent of a base comes out as a divisor. -/
def logPowerBase : Rule α
  | .binary negative .logarithm l (.binary false .power a b) =>
    some ⟨.logPowerBase, (l.log a / b).negateIf negative⟩
  | _ => none

/-- The rules for logarithms. -/
def log : Rule α :=
  firstOf [logNegative, logBaseZero, logBaseOne, logSelf, logPowerArgument, logPowerBase]

/-- A root is a power with the inverse of the degree. -/
def rootAsPower : Rule α
  | .binary negative .root l r =>
    some ⟨.rootAsPower, (l.pow (.ofNumber 1 / r)).negateIf negative⟩
  | _ => none

/-- The rules for roots. -/
def root : Rule α := rootAsPower

/-- All rules. At most one operation's rules apply to a node. -/
def all : Rule α := firstOf [add, multiply, divide, power, log, root]

end Rule

end Univariate
