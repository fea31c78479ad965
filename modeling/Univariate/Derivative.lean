import Univariate.Expr.Arithmetic

/-!
# Differentiation

The derivative of a tree is built from jets: a tree together with the derivative of its unsigned
form. Quotients, logarithms, roots and tangents have no rule of their own. They are differentiated
as the products, powers and quotients that they equal, and combining jets gives the derivatives of
those combinations without another pass over them. The result is not simplified.
-/

namespace Univariate

/-- A tree with the derivative of its unsigned form. The slope of a constant tree is not used. -/
structure Jet (α : Type) where
  /-- The tree. -/
  tree : Expr α
  /-- The derivative of the tree without its sign. -/
  slope : Expr α

namespace Jet

variable {α : Type} [Scalar α]

/-- A number as a leaf. -/
def ofNumber (a : α) : Jet α := ⟨.ofNumber a, .ofNumber 0⟩

/-- The derivative of the tree of a jet: zero if the tree is constant, otherwise the slope with the
sign of the tree. -/
def derivative (j : Jet α) : Expr α :=
  if j.tree.isConstant then .ofNumber 0 else j.slope.negateIf j.tree.isNegative

/-- The jet of the folded tree. -/
def folded (j : Jet α) : Jet α := ⟨j.tree.folded, j.slope⟩

/-- The jet of the unsigned tree. -/
def unsigned (j : Jet α) : Jet α := ⟨j.tree.unsigned, j.slope⟩

/-- The derivative of a product whose operands are stored as they are:
`(f * g)' = f' * g + f * g'`. -/
def productSlope (f g : Jet α) : Expr α := f.derivative * g.tree + f.tree * g.derivative

/-- The product of two jets. -/
def mul (f g : Jet α) : Jet α :=
  ⟨f.tree * g.tree, productSlope f.unsigned.folded g.unsigned.folded⟩

/-- The natural logarithm of a jet: `(ln f)' = f' / f`. -/
def ln (f : Jet α) : Jet α := ⟨f.tree.ln, f.folded.derivative / f.folded.tree⟩

/-- The derivative of a power whose operands are stored as they are: `(f ^ c)' = c * f ^ (c-1) * f'`
for a constant exponent, and `(f ^ g)' = f ^ g * (g * ln f)'` for any other. -/
def powerSlope (f g : Jet α) : Expr α :=
  match g.tree.constant? with
  | some c =>
    if Scalar.equal c 1 then f.derivative
    else .ofNumber c * f.tree.pow (.ofNumber (c - 1)) * f.derivative
  | none => Expr.apply2 .power f.tree g.tree * (g.mul f.ln).derivative

/-- A jet raised to another. -/
def pow (f g : Jet α) : Jet α := ⟨f.tree.pow g.tree, powerSlope f.folded g.folded⟩

/-- The derivative of a quotient whose operands are stored as they are: that of `f * g ^ -1`. -/
def quotientSlope (f g : Jet α) : Expr α := (f.mul (g.pow (ofNumber (-1)))).derivative

/-- The quotient of two jets. -/
def div (f g : Jet α) : Jet α :=
  ⟨f.tree / g.tree, quotientSlope f.unsigned.folded g.unsigned.folded⟩

/-- The derivative of a logarithm whose operands are stored as they are: `f' / f` to the base of
Euler's number, and that of `ln f / ln g` to any other. -/
def logarithmSlope (f g : Jet α) : Expr α :=
  if g.tree.constant?.any (Scalar.equal · Scalar.euler) then f.derivative / f.tree
  else (f.ln.div g.ln).derivative

/-- The derivative of a root whose operands are stored as they are: that of `f ^ (1 / g)`. -/
def rootSlope (f g : Jet α) : Expr α := (f.pow ((ofNumber 1).div g)).derivative

/-- The sine of a jet: `(sin f)' = cos f * f'`. -/
def sin (f : Jet α) : Jet α := ⟨f.tree.sin, f.tree.cos * f.derivative⟩

/-- The cosine of a jet: `(cos f)' = -sin f * f'`. -/
def cos (f : Jet α) : Jet α := ⟨f.tree.cos, -f.tree.sin * f.derivative⟩

/-- The derivative of a tangent: that of `sin f / cos f`. -/
def tangentSlope (f : Jet α) : Expr α := (f.sin.div f.cos).derivative

/-- The derivative of a function of one argument, by the chain rule. -/
def unarySlope : UnaryOp → Jet α → Expr α
  | .sine, f => f.sin.slope
  | .cosine, f => f.cos.slope
  | .tangent, f => f.tangentSlope

/-- The derivative of an operation whose operands are stored as they are. -/
def binarySlope : BinaryOp → Jet α → Jet α → Expr α
  | .addition, f, g => f.derivative + g.derivative
  | .subtraction, f, g => f.derivative - g.derivative
  | .multiplication, f, g => f.productSlope g
  | .division, f, g => f.quotientSlope g
  | .power, f, g => f.powerSlope g
  | .logarithm, f, g => f.logarithmSlope g
  | .root, f, g => f.rootSlope g

end Jet

namespace Expr

variable {α : Type} [Scalar α]

/-- The derivative of the tree without its sign. -/
def slope : Expr α → Expr α
  | .var _ => .ofNumber 1
  | .num _ _ => .ofNumber 0
  | .unary _ op operand => Jet.unarySlope op ⟨operand, operand.slope⟩
  | .binary _ op left right => Jet.binarySlope op ⟨left, left.slope⟩ ⟨right, right.slope⟩

/-- The jet of a tree. -/
def jet (t : Expr α) : Jet α := ⟨t, t.slope⟩

/-- The derivative of a tree with respect to its variable. -/
def derivative (t : Expr α) : Expr α := t.jet.derivative

end Expr

end Univariate
