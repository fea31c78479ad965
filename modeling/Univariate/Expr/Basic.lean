import Univariate.Operation
import Univariate.Scalar

/-!
# Expression trees

A tree stands for a function of one variable. There is no node for negation: every node carries a
sign flag, which says that the value of the whole subtree is negated. Numeric leaves hold the
magnitude of their value, and the flag holds its sign.

The constructor of nodes with two operands folds operands: an operand that does not depend on the
variable becomes a numeric leaf. The node itself is not folded, so `2 + 3` stays an addition until
it is simplified or becomes an operand.
-/

namespace Univariate

/-- A function of one variable, as a tree. The flag of a node says that its value is negated. -/
inductive Expr (α : Type) where
  /-- The variable. -/
  | var (negative : Bool)
  /-- A number, by its magnitude. -/
  | num (negative : Bool) (magnitude : α)
  /-- A function of one argument. -/
  | unary (negative : Bool) (op : UnaryOp) (operand : Expr α)
  /-- An operation on two operands. -/
  | binary (negative : Bool) (op : BinaryOp) (left right : Expr α)
  deriving DecidableEq, Repr

/-- The value of a function of one argument. -/
def UnaryOp.apply {α : Type} [Scalar α] : UnaryOp → α → α
  | sine, a => Scalar.sin a
  | cosine, a => Scalar.cos a
  | tangent, a => Scalar.tan a

/-- The value of an operation on two operands. A root is a power whose exponent is the inverse of
the degree. -/
def BinaryOp.apply {α : Type} [Scalar α] : BinaryOp → α → α → α
  | addition, a, b => a + b
  | subtraction, a, b => a - b
  | multiplication, a, b => a * b
  | division, a, b => a / b
  | power, a, b => Scalar.pow a b
  | logarithm, a, b => Scalar.log a b
  | root, a, b => Scalar.pow a (1 / b)

/-- A number with its sign changed if the flag is set. -/
def negateNumberIf {α : Type} [Neg α] (negative : Bool) (a : α) : α :=
  if negative then -a else a

/-- Where negating twice changes nothing, the other flag negates the number. -/
theorem negateNumberIf_not {α : Type} [Neg α] (hneg : ∀ a : α, -(-a) = a) (negative : Bool)
    (a : α) : negateNumberIf (!negative) a = -negateNumberIf negative a := by
  cases negative with
  | false => rfl
  | true => exact (hneg a).symm

namespace Expr

variable {α : Type}

/-- Whether the value of the node is negated. -/
def isNegative : Expr α → Bool
  | .var negative => negative
  | .num negative _ => negative
  | .unary negative _ _ => negative
  | .binary negative _ _ _ => negative

/-- The same node with the given sign flag. -/
def withNegative (negative : Bool) : Expr α → Expr α
  | .var _ => .var negative
  | .num _ magnitude => .num negative magnitude
  | .unary _ op operand => .unary negative op operand
  | .binary _ op left right => .binary negative op left right

/-- The same node without its sign. -/
def unsigned (t : Expr α) : Expr α := t.withNegative false

/-- Negation flips the sign flag of the node. -/
instance : Neg (Expr α) := ⟨fun t => t.withNegative (!t.isNegative)⟩

/-- The negated node if `negate` is set, otherwise the node. -/
def negateIf (negate : Bool) (t : Expr α) : Expr α := if negate then -t else t

/-- Whether the tree is the variable or a number. -/
def isLeaf : Expr α → Bool
  | .var _ | .num _ _ => true
  | _ => false

/-- The operation of the node, if it is not a leaf. -/
def operation? : Expr α → Option Operation
  | .unary _ op _ => some (.unary op)
  | .binary _ op _ _ => some (.binary op)
  | _ => none

/-- Whether the value of the tree does not depend on the variable. -/
def isConstant : Expr α → Bool
  | .var _ => false
  | .num _ _ => true
  | .unary _ _ operand => operand.isConstant
  | .binary _ _ left right => left.isConstant && right.isConstant

/-- The number of nodes of the tree. -/
def size : Expr α → Nat
  | .var _ => 1
  | .num _ _ => 1
  | .unary _ _ operand => operand.size + 1
  | .binary _ _ left right => left.size + right.size + 1

/-- The new flag of a tree is its flag. -/
@[simp] theorem isNegative_withNegative (negative : Bool) (t : Expr α) :
    (t.withNegative negative).isNegative = negative := by
  cases t <;> rfl

/-- The flag of the root does not matter to whether a tree is constant. -/
@[simp] theorem isConstant_withNegative (negative : Bool) (t : Expr α) :
    (t.withNegative negative).isConstant = t.isConstant := by
  cases t <;> rfl

/-- The flag of the root does not matter to whether a tree is a leaf. -/
@[simp] theorem isLeaf_withNegative (negative : Bool) (t : Expr α) :
    (t.withNegative negative).isLeaf = t.isLeaf := by
  cases t <;> rfl

/-- Of two new flags, the second one stays. -/
@[simp] theorem withNegative_withNegative (m n : Bool) (t : Expr α) :
    (t.withNegative m).withNegative n = t.withNegative n := by
  cases t <;> rfl

/-- A tree keeps its own flag. -/
@[simp] theorem withNegative_isNegative (t : Expr α) : t.withNegative t.isNegative = t := by
  cases t <;> rfl

/-- Negation flips the flag of the root. -/
theorem neg_def (t : Expr α) : -t = t.withNegative (!t.isNegative) := rfl

/-- Negating a tree twice gives the tree. -/
protected theorem neg_neg (t : Expr α) : -(-t) = t := by
  rw [neg_def, neg_def, isNegative_withNegative, withNegative_withNegative, Bool.not_not,
    withNegative_isNegative]

/-- The negation of a tree is constant exactly if the tree is. -/
theorem isConstant_neg (t : Expr α) : (-t).isConstant = t.isConstant :=
  isConstant_withNegative _ t

/-- Negating on a condition changes the flag on that condition. -/
theorem negateIf_eq (negate : Bool) (t : Expr α) :
    t.negateIf negate = t.withNegative (t.isNegative != negate) := by
  cases negate with
  | false => simp [negateIf]
  | true => simp [negateIf, neg_def]

/-- Keeping a sign instead of changing it, or the other way round, is a negation. -/
theorem negateIf_not (negate : Bool) (t : Expr α) : t.negateIf (!negate) = -t.negateIf negate := by
  rw [negateIf_eq, negateIf_eq, neg_def, isNegative_withNegative, withNegative_withNegative]
  cases t.isNegative <;> cases negate <;> rfl

/-- Changing the sign of a tree twice gives the tree. -/
theorem negateIf_negateIf (negate : Bool) (t : Expr α) :
    (t.negateIf negate).negateIf negate = t := by
  rw [negateIf_eq, negateIf_eq, isNegative_withNegative, withNegative_withNegative, Bool.bne_assoc,
    bne_self_eq_false, Bool.bne_false, withNegative_isNegative]

variable [Scalar α]

/-- The value of the tree at the point `x`. -/
def eval (x : α) : Expr α → α
  | .var negative => negateNumberIf negative x
  | .num negative magnitude => negateNumberIf negative magnitude
  | .unary negative op operand => negateNumberIf negative (op.apply (operand.eval x))
  | .binary negative op left right =>
    negateNumberIf negative (op.apply (left.eval x) (right.eval x))

/-- The value of a tree that does not depend on the variable. -/
def constant? (t : Expr α) : Option α :=
  if t.isConstant then some (t.eval Scalar.undefined) else none

/-- Whether the tree is constant and has a value above zero. -/
def isPositiveConstant (t : Expr α) : Bool := t.constant?.any Scalar.isPositive

/-- Whether the tree is constant and has a value below zero. -/
def isNegativeConstant (t : Expr α) : Bool := t.constant?.any Scalar.isNegative

/-- A number as a leaf: its magnitude, with its sign in the flag. -/
def ofNumber (a : α) : Expr α := .num (Scalar.isNegative a) (Scalar.abs a)

/-- The leaf of a constant tree's value. The leaves themselves and the trees that depend on the
variable stay as they are. -/
def folded (t : Expr α) : Expr α :=
  if t.isLeaf then t else
    match t.constant? with
    | some a => ofNumber a
    | none => t

/-- A function of one argument applied to a tree. -/
def apply1 (op : UnaryOp) (operand : Expr α) : Expr α := .unary false op operand

/-- An operation on two trees, with constant operands folded into numbers. -/
def apply2 (op : BinaryOp) (left right : Expr α) : Expr α :=
  .binary false op left.folded right.folded

/-- A constant tree has the same value at all points. -/
theorem eval_of_isConstant {t : Expr α} (h : t.isConstant = true) (x y : α) :
    t.eval x = t.eval y := by
  induction t with
  | var negative => cases h
  | num negative magnitude => rfl
  | unary negative op operand ih => rw [eval, eval, ih h]
  | binary negative op left right ihl ihr =>
    rw [isConstant, Bool.and_eq_true] at h
    rw [eval, eval, ihl h.1, ihr h.2]

/-- Where negating a number twice changes nothing, the value of a negated tree is negated. -/
theorem eval_neg (hneg : ∀ a : α, -(-a) = a) (t : Expr α) (x : α) : (-t).eval x = -t.eval x := by
  cases t <;> exact negateNumberIf_not hneg _ _

/-- A tree that is not constant has no constant. -/
theorem constant?_eq_none {t : Expr α} (h : t.isConstant = false) : t.constant? = none := by
  simp [constant?, h]

/-- Where the leaf of a number has that number as its value, folding keeps the value of a tree. -/
theorem eval_folded (hnumber : ∀ a x : α, (ofNumber a).eval x = a) (t : Expr α) (x : α) :
    t.folded.eval x = t.eval x := by
  unfold folded
  cases t.isLeaf with
  | true => rfl
  | false =>
    cases hconstant : t.isConstant with
    | false =>
      rw [constant?_eq_none hconstant]
      rfl
    | true =>
      rw [constant?, if_pos hconstant]
      exact (hnumber _ x).trans (eval_of_isConstant hconstant _ x)

/-- An operation evaluates to the operation on its evaluated operands, folded or not. -/
theorem eval_apply2 (hnumber : ∀ a x : α, (ofNumber a).eval x = a) (op : BinaryOp)
    (s t : Expr α) (x : α) : (apply2 op s t).eval x = op.apply (s.eval x) (t.eval x) := by
  rw [apply2, eval, eval_folded hnumber, eval_folded hnumber]
  rfl

/-- Folding changes no fact about whether a tree is constant. -/
@[simp] theorem isConstant_folded (t : Expr α) : t.folded.isConstant = t.isConstant := by
  unfold folded constant?
  cases hleaf : t.isLeaf with
  | true => simp
  | false => cases hconst : t.isConstant <;> simp [hconst, isConstant, ofNumber]

end Expr

end Univariate
