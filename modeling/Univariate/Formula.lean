import Univariate.Derivative
import Univariate.Expr.Render
import Univariate.Expr.Substitution
import Univariate.Simplify.Basic
import Univariate.Source.Parse

/-!
# Formulas

A formula is a function of one variable with the letter that its variable is written with and the
precision that its results are rounded to. Formulas combine by the arithmetic operators and by
composition; values are rounded once, when a formula is evaluated.
-/

namespace Univariate

/-- A function of one variable, with the letter of its variable and its precision. -/
structure Formula (α : Type) where
  /-- The function. -/
  expr : Expr α
  /-- The letter that the variable is written with. -/
  letter : Letter
  /-- The precision of results. -/
  decimals : Decimals

/-- A character was given as a variable that is not a letter. -/
structure NotALetter where
  /-- The character that was given. -/
  char : Char
  deriving DecidableEq, Repr

/-- What is said when a variable is changed to a character that is not a letter. -/
def NotALetter.message (err : NotALetter) : String :=
  "invalid variable `" ++ err.char.toString ++ "`: expected a letter"

/-- What is said when a formula is built over a character that is not a letter. -/
def NotALetter.refusal (err : NotALetter) : String :=
  "the variable must be a letter, found `" ++ err.char.toString ++ "`"

/-- The letter that a character stands for. -/
def Letter.ofChar (c : Char) : Except NotALetter Letter :=
  match ofChar? c with
  | some letter => .ok letter
  | none => .error ⟨c⟩

namespace Formula

variable {α : Type} [Scalar α]

/-- The value of the formula at a point, rounded to its precision. -/
def evaluate (f : Formula α) (x : α) : α := f.decimals.round (f.expr.eval x)

/-- Reads a formula over a letter. -/
def parse [HasNumerals α] (source : List Char) (letter : Letter) (decimals : Decimals) :
    Except ParseError (Formula α) := do
  let expr ← Univariate.parse letter.char source
  return ⟨expr, letter, decimals⟩

/-- Two formulas combined by an operation on trees, over the letter of the first and with the least
of both precisions. -/
def combine (op : Expr α → Expr α → Expr α) (f g : Formula α) : Formula α :=
  ⟨op f.expr g.expr, f.letter, f.decimals.least g.decimals⟩

instance : Neg (Formula α) := ⟨fun f => { f with expr := -f.expr }⟩

instance : Add (Formula α) := ⟨combine (· + ·)⟩

instance : Sub (Formula α) := ⟨combine (· - ·)⟩

instance : Mul (Formula α) := ⟨combine (· * ·)⟩

instance : Div (Formula α) := ⟨combine (· / ·)⟩

/-- The composition `outer(inner(x))`, over the letter of the outer formula and with the least of
both precisions. -/
def substituteInto (inner outer : Formula α) : Formula α :=
  ⟨outer.expr.substitute inner.expr, outer.letter, inner.decimals.least outer.decimals⟩

variable [LawfulScalar α] [DecidableEq α]

/-- The derivative of the formula, over the same letter and with the same precision. It is
simplified without rounding, so that its constants stay exact. -/
def derivative (f : Formula α) : Formula α :=
  { f with expr := f.expr.derivative.simplify .unrounded }

/-- The text of the formula, simplified to its precision. -/
def text [HasNumerals α] (f : Formula α) : List Char :=
  (f.expr.simplify f.decimals).render f.letter.char

end Formula

end Univariate
