import Univariate.Double
import Univariate.Expr.Arithmetic

/-!
# Signs of the operands of sums and products

The arithmetic on trees reads the sign of an operand from its flag and clears the flag before it
builds a node. The node folds its constant operands after that, and folding takes the sign of a
value into the flag of its leaf again. An operand of a sum or product therefore carries a sign
exactly if it is folded from an operation that is below zero without a flag of its own.
-/

namespace Univariate.Expr

variable {α : Type} [Scalar α]

/-- The tree is an operation that does not depend on the variable and that has, without its flag, a
value below zero. -/
def FoldsNegative (t : Expr α) : Prop :=
  t.isLeaf = false ∧ t.unsigned.isNegativeConstant = true

/-- An operand whose flag was cleared has a sign exactly if folding gives it one. -/
theorem isNegative_folded_unsigned_iff (t : Expr α) :
    t.unsigned.folded.isNegative = true ↔ t.FoldsNegative := by
  have hflag : t.unsigned.isNegative = false := isNegative_withNegative false t
  have hleaf : t.unsigned.isLeaf = t.isLeaf := isLeaf_withNegative false t
  unfold FoldsNegative folded isNegativeConstant constant?
  rw [hleaf]
  cases t.isLeaf with
  | true => simp [hflag]
  | false =>
    cases t.unsigned.isConstant with
    | true => simp [ofNumber, isNegative]
    | false => simp [hflag]

omit [Scalar α] in
/-- Clearing the flag negates the trees that have it set. -/
theorem unsigned_eq (t : Expr α) : t.unsigned = if t.isNegative then -t else t := by
  cases hsign : t.isNegative with
  | true =>
    rw [if_pos rfl, neg_def, hsign]
    rfl
  | false =>
    rw [if_neg Bool.false_ne_true, unsigned, ← hsign, withNegative_isNegative]

/-- A sum is the sum or difference of its operands, the right one without its flag. -/
theorem add_eq_binary (s t : Expr α) : s + t =
    .binary false (if t.isNegative then .subtraction else .addition) s.folded
      t.unsigned.folded := by
  rw [add_def, unsigned_eq]
  cases t.isNegative <;> rfl

/-- A difference is the difference or sum of its operands, the right one without its flag. -/
theorem sub_eq_binary (s t : Expr α) : s - t =
    .binary false (if t.isNegative then .addition else .subtraction) s.folded
      t.unsigned.folded := by
  rw [sub_def, unsigned_eq]
  cases t.isNegative <;> rfl

/-- Products and quotients have the combined sign of their operands, both without their flags. -/
theorem hoistSigns_eq_binary (op : BinaryOp) (s t : Expr α) : hoistSigns op s t =
    .binary (s.isNegative != t.isNegative) op s.unsigned.folded t.unsigned.folded := rfl

/-- The right operand of a sum or difference, and either operand of a product or quotient, carries a
sign exactly if it is folded from a constant operation that is below zero without its flag. The flag
of a product or quotient combines those of the operands, and that of a sum is clear. -/
theorem operands_carry_signs_iff (s t : Expr α) :
    (∃ op l r, s + t = .binary false op l r ∧ (r.isNegative = true ↔ t.FoldsNegative)) ∧
    (∃ op l r, s - t = .binary false op l r ∧ (r.isNegative = true ↔ t.FoldsNegative)) ∧
    (∃ l r, s * t = .binary (s.isNegative != t.isNegative) .multiplication l r ∧
      (l.isNegative = true ↔ s.FoldsNegative) ∧ (r.isNegative = true ↔ t.FoldsNegative)) ∧
    ∃ l r, s / t = .binary (s.isNegative != t.isNegative) .division l r ∧
      (l.isNegative = true ↔ s.FoldsNegative) ∧ (r.isNegative = true ↔ t.FoldsNegative) := by
  have hs := isNegative_folded_unsigned_iff s
  have ht := isNegative_folded_unsigned_iff t
  refine ⟨⟨_, _, _, add_eq_binary s t, ht⟩, ⟨_, _, _, sub_eq_binary s t, ht⟩,
    ⟨_, _, ?_, hs, ht⟩, ⟨_, _, ?_, hs, ht⟩⟩
  · rw [mul_def, hoistSigns_eq_binary]
  · rw [div_def, hoistSigns_eq_binary]

/-- The unsigned operation `1 - 2` is folded into a leaf with a sign, so that the product of `x` and
it carries its sign in an operand. -/
theorem product_keeps_sign_in_operand :
    let one : Expr Float := ofNumber 1
    let difference : Expr Float := apply2 .subtraction one (ofNumber 2)
    difference.isNegative = false ∧
      .var false * difference = .binary false .multiplication (.var false) (.num true 1) ∧
      ¬∀ s t : Expr Float, ∃ l r,
        s * t = .binary (s.isNegative != t.isNegative) .multiplication l r ∧
          l.isNegative = false ∧ r.isNegative = false := by
  intro one difference
  have hproduct : .var false * difference =
      (.binary false .multiplication (.var false) (.num true 1) : Expr Float) := by decide
  refine ⟨rfl, hproduct, fun h => ?_⟩
  obtain ⟨l, r, hnode, -, hright⟩ := h (.var false) difference
  rw [hproduct] at hnode
  cases hnode
  cases hright

end Univariate.Expr
