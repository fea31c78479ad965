import Univariate.Expr.Basic
import Univariate.Numeral

/-!
# Rendering expressions

A tree is written with as few brackets as leave its value the same when the text is read again. A
negated operator stands in brackets after its minus; an operand of an operator stands in brackets if
it would be grouped otherwise.
-/

namespace Univariate.Expr

variable {α : Type}

/-- Whether an operand of an operator stands in brackets. A negated base of a power does, since a
minus binds looser than a power. Any other negated operand does not, since its own minus comes
first. -/
def needsBrackets (parent : BinaryOp) (child : Expr α) (isRight : Bool) : Bool :=
  if !isRight && parent = .power && child.isNegative then true
  else
    match child with
    | .binary false op _ _ =>
      op.isOperator &&
        (op.precedence.looserThan parent.precedence ||
          (isRight && op.precedence = parent.precedence && !parent.regroupsRight))
    | _ => false

/-- A text between brackets, if there is need for them. -/
def bracketedIf (needed : Bool) (text : List Char) : List Char :=
  if needed then '(' :: text ++ [')'] else text

/-- An operator as it stands between two operands: `^` alone, and all others between spaces. -/
def spacedSymbol (op : BinaryOp) : List Char :=
  if op = .power then op.symbol else ' ' :: op.symbol ++ [' ']

/-- The text of a node after its sign: a minus goes before it, and brackets around an operator. -/
def signedText (negative isOperator : Bool) (text : List Char) : List Char :=
  if negative then '-' :: bracketedIf isOperator text else text

/-- The text of a tree, with a character for the variable. -/
def render [HasNumerals α] (letter : Char) : Expr α → List Char
  | .var negative => signedText negative false [letter]
  | .num negative magnitude => signedText negative false (numberText magnitude)
  | .unary negative op operand =>
    signedText negative false (op.symbol ++ bracketedIf true (operand.render letter))
  | .binary negative op left right =>
    let l := left.render letter
    let r := right.render letter
    signedText negative op.isOperator <|
      if op.isOperator then
        bracketedIf (needsBrackets op left false) l ++ spacedSymbol op ++
          bracketedIf (needsBrackets op right true) r
      else op.symbol ++ bracketedIf true (l ++ ';' :: ' ' :: r)

end Univariate.Expr
