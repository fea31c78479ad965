import Univariate.Source.Depth

/-!
# The operation that is applied last

A text is divided at the operation that is applied last: among the operations at depth zero one that
binds loosest, and of those the rightmost, so that `a - b - c` means `(a - b) - c`. A minus right
after another operator is no operation but the sign of the operand that follows.
-/

namespace Univariate

/-- An operation found in a text, with the number of characters before its symbol. -/
structure Split where
  /-- The operation. -/
  op : Operation
  /-- The number of characters before its symbol. -/
  start : Nat
  deriving DecidableEq, Repr

/-- Whether a character stands for an operation between two operands. -/
def isOperatorSymbol (c : Char) : Bool := (BinaryOp.ofOperator? c).isSome

/-- The keyword that ends a text, which is given last character first. -/
def keywordEnding? (reversed : List Char) : Option Operation :=
  Operation.all.find? fun op => op.isKeyword && op.symbol.reverse.isPrefixOf reversed

/-- The operation whose symbol ends a text, which is given last character first. -/
def operationEnding? : List Char → Option Operation
  | [] => none
  | c :: before =>
    match BinaryOp.ofOperator? c with
    | some op =>
      if c = '-' && before.head?.any isOperatorSymbol then none else some (.binary op)
    | none => keywordEnding? (c :: before)

/-- The operations that end at depth zero in a text, from left to right, after the characters
`before`, which are given last character first. -/
def operationsAfter (before : List Char) : List NestedGlyph → List Split
  | [] => []
  | g :: gs =>
    let read := g.char :: before
    let later := operationsAfter read gs
    if g.depth = 0 then
      match operationEnding? read with
      | some op => ⟨op, read.length - op.symbol.length⟩ :: later
      | none => later
    else later

/-- The last of the splits whose operations bind loosest. -/
def loosest : List Split → Option Split
  | [] => none
  | s :: later =>
    match loosest later with
    | none => some s
    | some best => if s.op.precedence.looserThan best.op.precedence then some s else some best

/-- The operation that is applied last, if there is one at depth zero. -/
def splitPoint (gs : List NestedGlyph) : Option Split := loosest (operationsAfter [] gs)

end Univariate
