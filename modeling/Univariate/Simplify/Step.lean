/-!
# Steps of a simplification

A simplification is reported as the list of rules it applied. Folding a constant subtree counts as
a rule of its own.
-/

namespace Univariate

/-- The rules that a simplification can apply. -/
inductive Step where
  /-- `2 * 3 + 1 = 7`, rounded to the requested precision. -/
  | foldConstant
  /-- `0 + a = a`, `a + 0 = a` and `a - 0 = a`. -/
  | addZero
  /-- `0 - a = -a` -/
  | subtractFromZero
  /-- `0 * a = 0` and `a * 0 = 0`. -/
  | multiplyZero
  /-- `1 * a = a` and `a * 1 = a`. -/
  | multiplyOne
  /-- `-1 * a = -a` and `a * -1 = -a`. -/
  | multiplyMinusOne
  /-- A quotient by zero has no value. -/
  | divideByZero
  /-- `0 / a = 0` -/
  | divideZero
  /-- `a / a = 1` -/
  | divideSelf
  /-- `a / 1 = a` -/
  | divideOne
  /-- `a / -1 = -a` -/
  | divideMinusOne
  /-- `-a / b = -(a / b)` and `a / -b = -(a / b)`. -/
  | divideHoistSign
  /-- `0 ^ 0 = 1` -/
  | powerZeroZero
  /-- `0 ^ a = 0` for a positive `a`. -/
  | powerZeroLeft
  /-- A negative power of zero has no value. -/
  | powerZeroNegative
  /-- `1 ^ a = 1` -/
  | powerOneLeft
  /-- `a ^ 0 = 0`, unless `a` is zero or one. -/
  | powerZero
  /-- `a ^ 1 = a` -/
  | powerOne
  /-- `a ^ -1 = 1 / a` -/
  | powerMinusOne
  /-- A logarithm with a negative argument or base has no value. -/
  | logNegative
  /-- A logarithm to the base zero has a value, zero, only for the argument one. -/
  | logBaseZero
  /-- A logarithm to the base one has no value. -/
  | logBaseOne
  /-- `log(a; a) = 1` -/
  | logSelf
  /-- `log(a ^ b; c) = b * log(a; c)` -/
  | logPowerArgument
  /-- `log(c; a ^ b) = log(c; a) / b` -/
  | logPowerBase
  /-- `nrt(a; b) = a ^ (1 / b)` -/
  | rootAsPower
  deriving DecidableEq, Repr

/-- Whether the tree that a rule builds is simplified without rounding before it takes the
place of the other. These are the rules that build new operations around the operands. -/
def Step.isRebuilding : Step → Bool
  | divideHoistSign | powerMinusOne | logPowerArgument | logPowerBase | rootAsPower => true
  | _ => false

end Univariate
