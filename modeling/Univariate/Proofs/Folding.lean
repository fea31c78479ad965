import Univariate.Expr.Basic
import Univariate.Proofs.DoubleLaws

/-!
# Folding constant operands on doubles

A constant operand is stored as a leaf, with its magnitude and with a flag that is set if it is below
zero. A negative zero is not below zero, so that it is stored without its sign. This is the only
double that folding changes: every other constant, infinite and undefined ones included, has the
same value when it is an operand. A quotient by a folded negative zero is therefore infinite with
the wrong sign.
-/

namespace Univariate

namespace Double

open Float.Model

/-- A double that is neither below zero nor a negative zero is its own magnitude. -/
theorem abs_eq_self {a : Float} (hsign : Scalar.isNegative a = false) (hzero : a ≠ -0) :
    Scalar.abs a = a := by
  have hunpacked : a.toModel.unpack ≠ .zero .negative := fun h => hzero (eq_of_unpack_eq h)
  refine eq_of_unpack_eq ((unpack_abs a).trans ?_)
  rw [Bool.eq_false_iff, Ne, isNegative_iff] at hsign
  generalize a.toModel.unpack = u at hunpacked hsign
  cases u with
  | notANumber => rfl
  | zero s =>
    cases s with
    | positive => rfl
    | negative => exact absurd rfl hunpacked
  | infinity s | finite s =>
    cases s with
    | positive => rfl
    | negative => exact absurd rfl hsign

/-- The leaf of a double holds it, but for the sign of a zero. -/
theorem eval_ofNumber (a x : Float) : (Expr.ofNumber a).eval x = if a = -0 then 0 else a := by
  have heval : (Expr.ofNumber a).eval x = negateNumberIf (Scalar.isNegative a) (Scalar.abs a) := rfl
  rw [heval]
  by_cases hzero : a = -0
  · rw [if_pos hzero, hzero]
    rfl
  · rw [if_neg hzero]
    cases hsign : Scalar.isNegative a with
    | false => exact abs_eq_self hsign hzero
    | true => exact Scalar.neg_abs_of_isNegative hsign

end Double

namespace Expr

/-- The value of a tree as an operand: a negative zero loses its sign, unless it is that of a leaf or
of a tree that depends on the variable. -/
def operandValue (t : Expr Float) (x : Float) : Float :=
  if t.isLeaf = false ∧ t.isConstant = true ∧ t.eval x = -0 then 0 else t.eval x

/-- A folded operand evaluates to the value that an operation takes for it. -/
theorem eval_folded_eq_operandValue (t : Expr Float) (x : Float) :
    t.folded.eval x = t.operandValue x := by
  unfold folded operandValue
  cases t.isLeaf with
  | true => rw [if_pos rfl, if_neg (by simp)]
  | false =>
    rw [if_neg Bool.false_ne_true]
    cases hconstant : t.isConstant with
    | false =>
      rw [constant?_eq_none hconstant, if_neg (by simp)]
    | true =>
      have heval := eval_of_isConstant hconstant Scalar.undefined x
      have hleaf := Double.eval_ofNumber (t.eval x) x
      rw [constant?, if_pos hconstant, heval]
      simpa only [true_and] using hleaf

/-- The value of a node is that of its operation on the values of its operands, except that a folded
negative zero is a positive one. -/
theorem eval_apply2_operandValue (op : BinaryOp) (l r : Expr Float) (x : Float) :
    (apply2 op l r).eval x = op.apply (l.operandValue x) (r.operandValue x) := by
  rw [← eval_folded_eq_operandValue, ← eval_folded_eq_operandValue]
  rfl

/-- The product `0 * -1` is a negative zero, and a quotient by it has the wrong sign: folding does
change values. -/
theorem eval_apply2_negative_zero :
    let zero : Expr Float := apply2 .multiplication (ofNumber 0) (ofNumber (-1))
    zero.eval 1 = -0 ∧ (apply2 .division (ofNumber 1) zero).eval 1 = 1 / 0 ∧
      BinaryOp.division.apply ((ofNumber 1 : Expr Float).eval 1) (zero.eval 1) = -(1 / 0) ∧
      ¬∀ (op : BinaryOp) (l r : Expr Float) (x : Float), x.isNaN = false →
        (apply2 op l r).eval x = op.apply (l.eval x) (r.eval x) := by
  intro zero
  have hzero : zero.eval 1 = -0 := by decide
  have hfolded : (apply2 .division (ofNumber 1) zero).eval 1 = 1 / 0 := by decide
  have hquotient : BinaryOp.division.apply ((ofNumber 1 : Expr Float).eval 1) (zero.eval 1) =
      -(1 / 0) := by decide
  refine ⟨hzero, hfolded, hquotient, fun h => ?_⟩
  have hsame := (h .division (ofNumber 1) zero 1 rfl).trans hquotient
  exact absurd (hfolded.symm.trans hsame) (by decide)

end Expr

end Univariate
