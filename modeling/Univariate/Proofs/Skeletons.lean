import Mathlib
import Univariate.Expr.Equality
import Univariate.Proofs.Growth
import Univariate.Proofs.Substitution

/-!
# Skeletons of trees

The skeleton of a tree is what remains of it without its numbers: which operations stand where, with
which signs, and where the variable is. Folding an operand changes no more of a skeleton than that a
constant becomes a number. Two measures of a tree can be read off its skeleton: how often the
variable occurs, and how often the way to its first occurrence turns to the right.
-/

namespace Univariate.Expr

variable {α : Type}

/-- The tree without its numbers. -/
def skeleton : Expr α → Expr Unit
  | .var negative => .var negative
  | .num _ _ => .num false ()
  | .unary negative op s => .unary negative op s.skeleton
  | .binary negative op l r => .binary negative op l.skeleton r.skeleton

/-- How many right operands lie on the way from the root to the first occurrence of the variable, or
to the first function around it. -/
def turns : Expr α → ℕ
  | .binary _ _ l r => if l.isConstant then r.turns + 1 else l.turns
  | _ => 0

/-- A tree is constant exactly if the variable does not occur in it. -/
theorem isConstant_iff {t : Expr α} : t.isConstant = true ↔ t.occurrences = 0 := by
  induction t with
  | var => simp [isConstant, occurrences]
  | num => simp [isConstant, occurrences]
  | unary negative op s ih => simpa [isConstant, occurrences] using ih
  | binary negative op l r ihl ihr => simp [isConstant, occurrences, ihl, ihr]

/-- The flag of the root is no occurrence of the variable. -/
@[simp] theorem occurrences_withNegative (negative : Bool) (t : Expr α) :
    (t.withNegative negative).occurrences = t.occurrences := by
  cases t <;> rfl

/-- The flag of the root does not turn the way to the variable. -/
@[simp] theorem turns_withNegative (negative : Bool) (t : Expr α) :
    (t.withNegative negative).turns = t.turns := by
  cases t <;> rfl

/-- Changing the sign of a tree keeps the occurrences of the variable. -/
@[simp] theorem occurrences_negateIf (negate : Bool) (t : Expr α) :
    (t.negateIf negate).occurrences = t.occurrences := by
  rw [negateIf_eq, occurrences_withNegative]

/-- Changing the sign of a tree does not turn the way to the variable. -/
@[simp] theorem turns_negateIf (negate : Bool) (t : Expr α) :
    (t.negateIf negate).turns = t.turns := by
  rw [negateIf_eq, turns_withNegative]

/-- Trees whose negations have the same skeleton have the same skeleton. -/
theorem skeleton_of_negateIf {negate : Bool} {t u : Expr α}
    (h : (t.negateIf negate).skeleton = (u.negateIf negate).skeleton) :
    t.skeleton = u.skeleton := by
  rw [negateIf_eq, negateIf_eq] at h
  cases t <;> cases u <;> simp_all [withNegative, isNegative, skeleton]

/-- The variable occurs as often in the skeleton as in the tree. -/
theorem occurrences_skeleton (t : Expr α) : t.skeleton.occurrences = t.occurrences := by
  induction t with
  | var | num => rfl
  | unary negative op s ih => exact ih
  | binary negative op l r ihl ihr => exact congrArg₂ (· + ·) ihl ihr

/-- The skeleton is constant exactly if the tree is. -/
theorem isConstant_skeleton (t : Expr α) : t.skeleton.isConstant = t.isConstant := by
  rw [Bool.eq_iff_iff, isConstant_iff, isConstant_iff, occurrences_skeleton]

/-- The way to the variable turns in the skeleton as often as in the tree. -/
theorem turns_skeleton (t : Expr α) : t.skeleton.turns = t.turns := by
  induction t with
  | var | num | unary => rfl
  | binary negative op l r ihl ihr =>
    rw [skeleton, turns, turns, isConstant_skeleton, ihl, ihr]

variable [Scalar α]

/-- A tree in which the variable occurs is not folded. -/
theorem folded_eq_self_of_occurrences {t : Expr α} (h : t.occurrences ≠ 0) : t.folded = t :=
  folded_eq_self (.inr (Bool.eq_false_iff.mpr (mt isConstant_iff.mp h)))

/-- An operand that is no leaf depends on the variable if constant operands are leaves. -/
theorem occurrences_ne_zero_of_folded {t : Expr α} (h : t.folded = t) (hleaf : t.isLeaf = false) :
    t.occurrences ≠ 0 := by
  intro hconstant
  obtain ⟨negative, magnitude, hnumber⟩ := exists_folded_eq (isConstant_iff.mpr hconstant)
  rw [← h, hnumber] at hleaf
  cases hleaf

/-- Folding a tree keeps the occurrences of the variable. -/
@[simp] theorem occurrences_folded (t : Expr α) : t.folded.occurrences = t.occurrences := by
  by_cases h : t.occurrences = 0
  · rw [h, ← isConstant_iff, isConstant_folded, isConstant_iff, h]
  · rw [folded_eq_self_of_occurrences h]

/-- The variable occurs in an operation as often as in its operands together. -/
theorem occurrences_apply2 (op : BinaryOp) (l r : Expr α) :
    (apply2 op l r).occurrences = l.occurrences + r.occurrences :=
  congrArg₂ (· + ·) l.occurrences_folded r.occurrences_folded

/-- The way to the variable does not turn at an operation whose left operand has it. -/
theorem turns_apply2_left (op : BinaryOp) {l : Expr α} (r : Expr α) (h : l.occurrences ≠ 0) :
    (apply2 op l r).turns = l.turns := by
  have hl : l.folded.isConstant = false := by
    rw [isConstant_folded]
    exact Bool.eq_false_iff.mpr (mt isConstant_iff.mp h)
  rw [apply2, turns, hl, folded_eq_self_of_occurrences h]
  rfl

/-- The way to the variable turns at an operation whose left operand is constant. -/
theorem turns_apply2_right (op : BinaryOp) {l r : Expr α} (hl : l.occurrences = 0)
    (hr : r.occurrences ≠ 0) : (apply2 op l r).turns = r.turns + 1 := by
  rw [apply2, turns, isConstant_folded, isConstant_iff.mpr hl, if_pos rfl,
    folded_eq_self_of_occurrences hr]

/-- Only the occurrences and the turns of a left operand matter to the turns of an operation. -/
theorem turns_apply2_congr {op op' : BinaryOp} {l l' r : Expr α}
    (hoccurrences : l.occurrences = l'.occurrences) (hturns : l.turns = l'.turns) :
    (apply2 op l r).turns = (apply2 op' l' r).turns := by
  by_cases h : l.occurrences = 0
  · have h' : l'.occurrences = 0 := hoccurrences ▸ h
    simp only [apply2, turns, isConstant_folded, isConstant_iff.mpr h, isConstant_iff.mpr h',
      if_true]
  · rw [turns_apply2_left op r h, turns_apply2_left op' r (hoccurrences ▸ h), hturns]

/-- Trees that are folded to the same skeleton have the same occurrences of the variable. -/
theorem occurrences_eq_of_folded {s t : Expr α} (h : s.folded.skeleton = t.folded.skeleton) :
    s.occurrences = t.occurrences := by
  rw [← s.occurrences_folded, ← t.occurrences_folded, ← occurrences_skeleton, h,
    occurrences_skeleton]

/-- Folding does not hide a difference between operands that depend on the variable. -/
theorem skeleton_eq_of_folded {s t : Expr α} (h : s.folded.skeleton = t.folded.skeleton)
    (hs : s.occurrences ≠ 0) : s.skeleton = t.skeleton := by
  have ht : t.occurrences ≠ 0 := occurrences_eq_of_folded h ▸ hs
  rwa [folded_eq_self_of_occurrences hs, folded_eq_self_of_occurrences ht] at h

/-- The skeleton of an operation with a sign. -/
theorem skeleton_negateIf_apply2 (negate : Bool) (op : BinaryOp) (l r : Expr α) :
    ((apply2 op l r).negateIf negate).skeleton =
      .binary negate op l.folded.skeleton r.folded.skeleton := by
  rw [negateIf_eq]
  exact congrArg (Expr.binary · op _ _) (Bool.false_bne negate)

/-- Operations have the same skeleton only if they are the same operation with the same sign, on
operands with the same skeletons. -/
theorem eq_of_skeleton_apply2 {m n : Bool} {op o : BinaryOp} {l r l' r' : Expr α}
    (h : ((apply2 op l r).negateIf m).skeleton = ((apply2 o l' r').negateIf n).skeleton) :
    m = n ∧ op = o ∧ l.folded.skeleton = l'.folded.skeleton ∧
      r.folded.skeleton = r'.folded.skeleton := by
  rw [skeleton_negateIf_apply2, skeleton_negateIf_apply2] at h
  exact Expr.binary.inj h

/-- Operations on left operands with different skeletons have different skeletons. -/
theorem skeleton_ne_of_left {m n : Bool} {op o : BinaryOp} {l r l' r' : Expr α}
    (h : l.skeleton ≠ l'.skeleton) (hl : l.occurrences ≠ 0) :
    ((apply2 op l r).negateIf m).skeleton ≠ ((apply2 o l' r').negateIf n).skeleton := by
  intro heq
  obtain ⟨-, -, hleft, -⟩ := eq_of_skeleton_apply2 heq
  exact h (skeleton_eq_of_folded hleft hl)

/-- Operations on right operands with different skeletons have different skeletons. -/
theorem skeleton_ne_of_right {m n : Bool} {op o : BinaryOp} {l r l' r' : Expr α}
    (h : r.skeleton ≠ r'.skeleton) (hr : r.occurrences ≠ 0) :
    ((apply2 op l r).negateIf m).skeleton ≠ ((apply2 o l' r').negateIf n).skeleton := by
  intro heq
  obtain ⟨-, -, -, hright⟩ := eq_of_skeleton_apply2 heq
  exact h (skeleton_eq_of_folded hright hr)

/-- Operations have different skeletons if the variable stands more often on the left of the one, or
is reached on another way on its right. -/
theorem skeleton_ne_of_turns {m n : Bool} {op o : BinaryOp} {l r l' r' : Expr α}
    (h : l.occurrences = l'.occurrences → r.turns ≠ r'.turns) (hr : r.occurrences ≠ 0) :
    ((apply2 op l r).negateIf m).skeleton ≠ ((apply2 o l' r').negateIf n).skeleton := by
  intro heq
  obtain ⟨-, -, hleft, hright⟩ := eq_of_skeleton_apply2 heq
  have hsame := skeleton_eq_of_folded hright hr
  exact h (occurrences_eq_of_folded hleft) (by rw [← turns_skeleton, hsame, turns_skeleton])

/-- A constant operand that is stored as a leaf is a number. -/
theorem skeleton_of_folded {t : Expr α} (h : t.folded = t) (hconstant : t.isConstant = true) :
    t.skeleton = .num false () := by
  obtain ⟨negative, magnitude, hnumber⟩ := exists_folded_eq hconstant
  rw [← h, hnumber]
  rfl

/-- A tree is constant exactly if it has a constant. -/
theorem isConstant_eq_isSome (t : Expr α) : t.isConstant = t.constant?.isSome := by
  unfold constant?
  cases t.isConstant <;> rfl

/-- Of trees that compare equal, both are constant or neither is. -/
theorem Equal.isConstant_eq {s t : Expr α} (h : Equal s t) : s.isConstant = t.isConstant := by
  rw [isConstant_eq_isSome, isConstant_eq_isSome]
  cases h with
  | constant hs ht _ => rw [hs, ht]; rfl
  | var => rfl
  | unary hs ht _ | binary hs ht _ _ => rw [hs, ht]

/-- Trees that depend on the variable and compare equal have the same skeleton, if their constant
operands are leaves. -/
theorem Equal.skeleton_eq {s t : Expr α} (h : Equal s t) (hs : s.HasFoldedOperands)
    (ht : t.HasFoldedOperands) (hconstant : s.isConstant = false) : s.skeleton = t.skeleton := by
  have hoperand {a b : Expr α} (h : Equal a b) (ha : a.folded = a) (hb : b.folded = b)
      (ih : a.isConstant = false → a.skeleton = b.skeleton) : a.skeleton = b.skeleton := by
    cases hconstant : a.isConstant with
    | false => exact ih hconstant
    | true =>
      rw [skeleton_of_folded ha hconstant, skeleton_of_folded hb (h.isConstant_eq ▸ hconstant)]
  induction h with
  | constant hvalue _ _ =>
    rw [isConstant_eq_isSome, hvalue] at hconstant
    cases hconstant
  | var => rfl
  | @unary negative op _ _ _ _ _ ih =>
    exact congrArg (Expr.unary negative op) (ih hs ht hconstant)
  | @binary negative op _ _ _ _ _ _ hl hr ihl ihr =>
    exact congrArg₂ (Expr.binary negative op) (hoperand hl hs.1 ht.1 (ihl hs.2.2.1 ht.2.2.1))
      (hoperand hr hs.2.1 ht.2.1 (ihr hs.2.2.2 ht.2.2.2))

end Univariate.Expr
