import Univariate.Decimal.Basic

/-!
# Numerals

A numeral is a number as it is written: a decimal with a sign, an infinity, or the mark of an
undefined value. A type of numbers with numerals can be read and shown.
-/

namespace Univariate

/-- A number as it is written. -/
inductive Numeral where
  /-- The value of an operation that has none. -/
  | undefined
  /-- A number beyond every bound. -/
  | infinite (negative : Bool)
  /-- A decimal with its sign. -/
  | finite (negative : Bool) (magnitude : Decimal)
  deriving DecidableEq, Repr

namespace Numeral

/-- A sign before a text, if it is negative. -/
def signed (negative : Bool) (cs : List Char) : List Char :=
  if negative then '-' :: cs else cs

/-- The text of a numeral. An undefined value has no sign. -/
def text : Numeral → List Char
  | undefined => ['N', 'a', 'N']
  | infinite negative => signed negative ['i', 'n', 'f']
  | finite negative d => signed negative d.text

/-- A text is no numeral. -/
inductive Malformed where
  /-- There is nothing to read. -/
  | empty
  /-- The text does not write a number. -/
  | invalid
  deriving DecidableEq, Repr

/-- What is said about a text that is no numeral. -/
def Malformed.message : Malformed → String
  | empty => "cannot parse float from empty string"
  | invalid => "invalid float literal"

/-- A leading sign, and whether it is a minus. -/
def splitSign : List Char → Bool × List Char
  | '-' :: cs => (true, cs)
  | '+' :: cs => (false, cs)
  | cs => (false, cs)

/-- The exponent that a text writes: nothing, or a letter `e` followed by a whole number. -/
def exponentOf? : List Char → Option Int
  | [] => some 0
  | c :: cs =>
    if c = 'e' || c = 'E' then
      let (negative, digits) := splitSign cs
      if digits.isEmpty || !digits.all Char.isDigit then none
      else
        let n := Decimal.ofDigits digits
        some (if negative then -(n : Int) else n)
    else none

/-- The numeral that a text after a sign writes: digits with at most one point and an exponent, or
in letters of either case the name of an infinity or of an undefined value. -/
def ofUnsigned? (negative : Bool) (cs : List Char) : Option Numeral :=
  let letters := cs.map Char.toLower
  if letters = "inf".toList || letters = "infinity".toList then some (infinite negative)
  else if letters = "nan".toList then some undefined
  else
    let (whole, fraction, rest) := Decimal.splitDigits cs
    if whole.isEmpty && fraction.isEmpty then none
    else (exponentOf? rest).map fun e =>
      let d := Decimal.ofParts whole fraction
      finite negative ⟨d.coefficient, d.exponent + e⟩

/-- The numeral that a text writes, with an optional sign. -/
def ofText (cs : List Char) : Except Malformed Numeral :=
  if cs.isEmpty then .error .empty
  else
    let (negative, unsigned) := splitSign cs
    match ofUnsigned? negative unsigned with
    | some n => .ok n
    | none => .error .invalid

end Numeral

/-- Numbers that can be written and read. -/
class HasNumerals (α : Type) where
  /-- The numeral that a number is shown as. -/
  toNumeral : α → Numeral
  /-- The number that a numeral is read as. -/
  ofNumeral : Numeral → α

/-- The text that a number is shown as. -/
def numberText {α : Type} [HasNumerals α] (a : α) : List Char := (HasNumerals.toNumeral a).text

end Univariate
