import Univariate.Scalar

/-!
# Precision of results

Results are either left as they are or rounded to a number of digits after the decimal point.
-/

namespace Univariate

/-- How many digits after the decimal point results are rounded to. -/
inductive Decimals where
  /-- Results are left as they are. -/
  | unrounded
  /-- Results are rounded to this many digits after the decimal point. -/
  | digits (n : Nat)
  deriving DecidableEq, Repr

namespace Decimals

instance : Inhabited Decimals := ⟨unrounded⟩

/-- The largest precision that has an integer form of its own. -/
def greatestInt : Nat := 2147483647

/-- A precision as an integer: a digit count, or `-1` for results that are left as they are. Digit
counts above the largest integer form share it. -/
def toInt : Decimals → Int
  | unrounded => -1
  | digits n => min n greatestInt

/-- A number below `-1` was given as a precision. -/
structure InvalidPrecision where
  /-- The number that was given. -/
  value : Int
  deriving DecidableEq, Repr

/-- What is said about a number that is no precision. -/
def InvalidPrecision.message (err : InvalidPrecision) : String :=
  "invalid precision `" ++ toString err.value ++ "`: expected -1 (unrounded) or a digit count"

/-- The precision that an integer stands for. -/
def ofInt? (value : Int) : Except InvalidPrecision Decimals :=
  if value = -1 then .ok unrounded
  else if 0 ≤ value then .ok (digits value.toNat)
  else .error ⟨value⟩

/-- A precision in words. -/
def describe : Decimals → String
  | unrounded => "unrounded"
  | digits n => toString n ++ " digits"

/-- The precision of a result that two functions contribute to: the smaller digit count, unless one
of them is not rounded. -/
def least : Decimals → Decimals → Decimals
  | unrounded, _ => unrounded
  | _, unrounded => unrounded
  | digits m, digits n => digits (min m n)

/-- A number rounded to the given precision. -/
def round {α : Type} [Scalar α] : Decimals → α → α
  | unrounded, a => a
  | digits n, a => Scalar.roundTo n a

/-- Rounding takes no number below zero that was not there before. -/
theorem round_not_negative {α : Type} [Scalar α] [LawfulScalar α] (d : Decimals) {a : α}
    (ha : Scalar.isNegative a = false) : Scalar.isNegative (d.round a) = false := by
  cases d with
  | unrounded => exact ha
  | digits n => exact LawfulScalar.roundTo_not_negative n a ha

end Decimals

end Univariate
