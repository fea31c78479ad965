/-!
# Decimals

A decimal is a whole coefficient times a power of ten. It is written positionally, whatever its
exponent, and read from digits with at most one decimal point.
-/

namespace Univariate

/-- The number `coefficient * 10 ^ exponent`. -/
structure Decimal where
  /-- The digits, read as a whole number. -/
  coefficient : Nat
  /-- The power of ten that the coefficient is multiplied by. -/
  exponent : Int
  deriving DecidableEq, Repr

namespace Decimal

/-- The value of a digit. -/
def digitValue (c : Char) : Nat := c.toNat - '0'.toNat

/-- The whole number that a sequence of digits writes. -/
def ofDigits (cs : List Char) : Nat := cs.foldl (fun n c => 10 * n + digitValue c) 0

/-- The digits before and after the point, which may be absent, and what follows them. -/
def splitDigits (cs : List Char) : List Char × List Char × List Char :=
  let whole := cs.takeWhile Char.isDigit
  match cs.dropWhile Char.isDigit with
  | '.' :: rest => (whole, rest.takeWhile Char.isDigit, rest.dropWhile Char.isDigit)
  | rest => (whole, [], rest)

/-- The decimal that digits before and after a point write. -/
def ofParts (whole fraction : List Char) : Decimal :=
  ⟨ofDigits (whole ++ fraction), -(fraction.length : Int)⟩

/-- The decimal that a text writes which holds at least one digit, at most one point, and nothing
else. -/
def ofText? (cs : List Char) : Option Decimal :=
  let (whole, fraction, rest) := splitDigits cs
  if rest.isEmpty && !(whole.isEmpty && fraction.isEmpty) then some (ofParts whole fraction)
  else none

/-- The digits of a whole number with a point before the last `places` of them. -/
def insertPoint (digits : List Char) (places : Nat) : List Char :=
  let padded := List.replicate (places + 1 - digits.length) '0' ++ digits
  let whole := padded.length - places
  padded.take whole ++ '.' :: padded.drop whole

/-- A decimal without an exponent: a positive power of ten becomes zeros, and a negative one a
decimal point. -/
def text (d : Decimal) : List Char :=
  let digits := Nat.toDigits 10 d.coefficient
  if d.coefficient = 0 then ['0']
  else if 0 ≤ d.exponent then digits ++ List.replicate d.exponent.toNat '0'
  else insertPoint digits (-d.exponent).toNat

end Decimal

end Univariate
