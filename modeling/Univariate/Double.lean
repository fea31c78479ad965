import Univariate.Decimal.Shortest
import Univariate.Double.Sign
import Univariate.Numeral
import Univariate.Scalar

/-!
# Doubles

The numbers that the program computes with are IEEE doubles. They are shown with the fewest digits
that read back as the same double, and read with correct rounding.
-/

namespace Univariate.Double

/-- The logarithm of `a` to the base `b`. There is none to the bases zero, one and infinity, except
that the logarithm of one to the bases zero and infinity is zero. -/
def log (a b : Float) : Float :=
  if a.isNaN || b.isNaN || b == 1 then 0 / 0
  else if a != 1 && (b == 0 || b == 1 / 0) then 0 / 0
  else a.log / b.log

/-- Multiplies `product` by `base ^ n`, by repeated squaring. -/
def timesPower (product base : Float) (n : Nat) : Float :=
  let next := if n % 2 = 1 then product * base else product
  if n < 2 then next else timesPower next (base * base) (n / 2)
termination_by n
decreasing_by omega

/-- Ten to the `n`; infinite above the range of doubles. -/
def tenPower (n : Nat) : Float := timesPower 1 10 n

/-- The nearest whole number to a double that is not negative, the even one of two. Doubles from
`2 ^ 52` on are whole, and adding `2 ^ 52` to a smaller one leaves no room for a fraction. -/
def nearestWhole (x : Float) : Float :=
  let bound : Float := 4503599627370496
  if x < bound then (x + bound) - bound else x

/-- A magnitude rounded to `n` digits after the decimal point. Magnitudes too large to be scaled
are left as they are. -/
def roundMagnitude (n : Nat) (x : Float) : Float :=
  let scaled := x * tenPower n
  if scaled.isFinite then (nearestWhole scaled / tenPower n).abs else x

/-- A double rounded to `n` digits after the decimal point. The magnitude is rounded and the sign is
kept. -/
def roundTo (n : Nat) (x : Float) : Float :=
  if x == 0 then x
  else if x < 0 then -roundMagnitude n (-x)
  else roundMagnitude n x

instance : Scalar Float where
  zero := 0
  one := 1
  abs := Float.abs
  pow := Float.pow
  log := log
  sin := Float.sin
  cos := Float.cos
  tan := Float.tan
  euler := 2.718281828459045
  pi := 3.141592653589793
  undefined := 0 / 0
  less a b := a < b
  equal a b := a == b
  roundTo := roundTo

/-- A double is negative exactly if it is below zero. -/
theorem isNegative_eq (x : Float) : Scalar.isNegative x = decide (x < 0) := rfl

instance : LawfulScalar Float where
  abs_not_negative x := by
    rw [isNegative_eq]
    exact decide_eq_false (abs_not_lt_zero x)
  roundTo_not_negative n x hx := by
    rw [isNegative_eq] at hx ⊢
    have hx' : ¬ x < 0 := of_decide_eq_false hx
    apply decide_eq_false
    show ¬ roundTo n x < 0
    rw [roundTo, if_neg hx']
    split
    · exact hx'
    · unfold roundMagnitude
      dsimp only
      split
      · exact abs_not_lt_zero _
      · exact hx'

/-- The least mantissa of a double with an exponent of its own, `2 ^ 52`. -/
def mantissaUnit : Nat := 4503599627370496

/-- The numeral of a double, decoded from its bits. -/
def toNumeral (x : Float) : Numeral :=
  let bits : Nat := x.toBits.toNat
  let negative : Bool := bits >>> 63 = 1
  let exponent : Nat := bits >>> 52 % 2048
  let fraction : Nat := bits % mantissaUnit
  if exponent = 2047 then
    if fraction = 0 then .infinite negative else .undefined
  else if exponent = 0 then
    .finite negative
      (if fraction = 0 then ⟨0, 0⟩ else Decimal.shortest fraction (-1074) false)
  else
    .finite negative
      (Decimal.shortest (mantissaUnit + fraction) ((exponent : Int) - 1075)
        (fraction = 0 && exponent ≠ 1))

/-- The double nearest to a decimal. A decimal outside the range of doubles is told by its size
alone, so that no large power of ten is computed. -/
def ofDecimal (d : Decimal) : Float :=
  if d.coefficient = 0 then 0
  else if 400 < d.exponent then 1 / 0
  else if 1000 * d.exponent + 302 * (d.coefficient.log2 + 1) < -400000 then 0
  else Float.ofScientific d.coefficient (d.exponent < 0) d.exponent.natAbs

/-- The double that a numeral is read as. -/
def ofNumeral : Numeral → Float
  | .undefined => 0 / 0
  | .infinite negative => if negative then -(1 / 0) else 1 / 0
  | .finite negative d => if negative then -ofDecimal d else ofDecimal d

instance : HasNumerals Float := ⟨toNumeral, ofNumeral⟩

end Univariate.Double
