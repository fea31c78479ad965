import Univariate.Expr.Basic
import Univariate.Numeral
import Univariate.Source.Depth
import Univariate.Text.Letter

/-!
# Operands

A text without an operation is the variable or an unsigned number. Anything else is a fault at one
character: where two operands meet with no operation between them, or where a character cannot be
part of an operand.
-/

namespace Univariate

/-- Whether a character can be part of a number. -/
def isNumeric (c : Char) : Bool := c.isDigit || c = '.'

/-- The unsigned numeral that a text writes: digits with at most one point, or the name of an
infinity or of an undefined value. -/
def numeralOf? (cs : List Char) : Option Numeral :=
  match Decimal.ofText? cs with
  | some d => some (.finite false d)
  | none =>
    if cs = ['i', 'n', 'f'] then some (.infinite false)
    else if cs = ['n', 'a', 'n'] then some .undefined
    else none

/-- The first character that joins two operands, or that cannot be an operand at all: a letter at
depth zero other than the variable, an opening bracket after the first character, or the character
after a closing bracket. -/
def findJoint (letter : Char) (previous : Option Char) : List NestedGlyph → Option NestedGlyph
  | [] => none
  | g :: gs =>
    if g.depth = 0 && isLetter g.char && g.char != letter then some g
    else if previous.isSome && (g.char = '(' || previous = some ')') then some g
    else findJoint letter (some g.char) gs

/-- The second point of a text, or the first if there is only one. -/
def findPoint (gs : List NestedGlyph) : Option NestedGlyph :=
  match gs.filter (fun g => g.char = '.') with
  | _ :: second :: _ => some second
  | first :: _ => some first
  | [] => none

/-- The character at which a text without an operation is no operand. -/
def findMisplaced (letter : Char) (first : NestedGlyph) (rest : List NestedGlyph) : NestedGlyph :=
  let gs := first :: rest
  let found :=
    if gs.any (fun g => g.char = '(' || g.char = ')') then findJoint letter none gs
    else if first.char = letter then rest.head?
    else (gs.find? fun g => !isNumeric g.char).or (findPoint gs)
  found.getD first

/-- The operand that a text without an operation writes. -/
def readOperand {α : Type} [Scalar α] [HasNumerals α] (letter : Char) (first : NestedGlyph)
    (rest : List NestedGlyph) : Except ParseError (Expr α) :=
  if rest.isEmpty && first.char = letter then .ok (.var false)
  else
    match numeralOf? ((first :: rest).map fun g => g.char) with
    | some n => .ok (.ofNumber (HasNumerals.ofNumeral n))
    | none =>
      let misplaced := findMisplaced letter first rest
      .error (.atPosition (.unexpectedCharacter misplaced.char) misplaced.position)

end Univariate
