import Univariate.Decimals

/-!
# Laws of comparison and of signs

What the theory of simplification takes for granted about numbers besides their sign after rounding:
how equality behaves, how a magnitude, a sign and a negation fit together, and which precisions are
stable. Nothing is said about the results of the operations, and equality need not be reflexive.
-/

namespace Univariate

/-- Comparing for equality is symmetric and transitive, and zero is not one. -/
class LawfulComparison (α : Type) [Scalar α] : Prop where
  equal_symm : ∀ {a b : α}, Scalar.equal a b = true → Scalar.equal b a = true
  equal_trans : ∀ {a b c : α}, Scalar.equal a b = true → Scalar.equal b c = true →
    Scalar.equal a c = true
  zero_ne_one : Scalar.equal (0 : α) 1 = false

/-- A magnitude is the number or its negation, numbers that compare equal have the same sign, and
Euler's number and `π` are their own magnitudes. -/
class LawfulSign (α : Type) [Scalar α] : Prop extends LawfulComparison α where
  neg_neg : ∀ a : α, -(-a) = a
  abs_neg : ∀ a : α, Scalar.abs (-a) = Scalar.abs a
  abs_eq : ∀ a : α, Scalar.abs a = a ∨ Scalar.abs a = -a
  isNegative_congr : ∀ {a b : α}, Scalar.equal a b = true →
    Scalar.isNegative a = Scalar.isNegative b
  equal_neg : ∀ {a b : α}, Scalar.equal a b = true → Scalar.equal (-a) (-b) = true
  equal_abs : ∀ {a b : α}, Scalar.equal a b = true →
    Scalar.equal (Scalar.abs a) (Scalar.abs b) = true
  abs_euler : Scalar.abs (Scalar.euler : α) = Scalar.euler
  abs_pi : Scalar.abs (Scalar.pi : α) = Scalar.pi

/-- Rounding is odd. Of a number other than zero and its negation one is below zero, while zero and
undefined values are below zero with neither sign. Euler's number and `π` are numbers other than
zero at every precision. -/
class LawfulNegation (α : Type) [Scalar α] : Prop extends LawfulSign α where
  roundTo_neg : ∀ (n : Nat) (a : α), Scalar.roundTo n (-a) = -Scalar.roundTo n a
  isNegative_neg : ∀ {a : α}, Scalar.isNegative a = false → Scalar.equal a a = true →
    Scalar.equal a 0 = false → Scalar.isNegative (-a) = true
  isNegative_zero : Scalar.isNegative (0 : α) = false
  isNegative_neg_zero : Scalar.isNegative (-0 : α) = false
  equal_self_of_isNegative : ∀ {a : α}, Scalar.isNegative a = true → Scalar.equal a a = true
  undefined_ne_self : Scalar.equal (Scalar.undefined : α) Scalar.undefined = false
  round_constant : ∀ c ∈ [Scalar.euler, (Scalar.pi : α)], ∀ d : Decimals,
    Scalar.equal (d.round c) (d.round c) = true ∧ Scalar.equal (d.round c) 0 = false

namespace Scalar

variable {α : Type} [Scalar α]

/-- Numbers that compare equal compare alike with all others. -/
theorem equal_congr [LawfulComparison α] {a b : α} (h : equal a b = true) (c : α) :
    equal a c = equal b c := by
  rw [Bool.eq_iff_iff]
  exact ⟨fun hac => LawfulComparison.equal_trans (LawfulComparison.equal_symm h) hac,
    fun hbc => LawfulComparison.equal_trans h hbc⟩

/-- No number is both zero and one. -/
theorem equal_one_of_equal_zero [LawfulComparison α] {a : α} (h : equal a 0 = true) :
    equal a 1 = false := by
  rw [equal_congr h, LawfulComparison.zero_ne_one]

variable [LawfulSign α]

/-- A magnitude is its own magnitude. -/
theorem abs_abs (a : α) : abs (abs a) = abs a := by
  rcases LawfulSign.abs_eq a with h | h
  · rw [h, h]
  · rw [h, LawfulSign.abs_neg, h]

/-- The magnitude of a number below zero is its negation. -/
theorem abs_of_isNegative [LawfulScalar α] {a : α} (h : isNegative a = true) : abs a = -a := by
  refine (LawfulSign.abs_eq a).resolve_left fun habs => ?_
  have hnot := LawfulScalar.abs_not_negative a
  rw [habs, h] at hnot
  cases hnot

/-- A number is its magnitude with its sign. -/
theorem neg_abs_of_isNegative [LawfulScalar α] {a : α} (h : isNegative a = true) :
    -abs a = a := by
  rw [abs_of_isNegative h, LawfulSign.neg_neg]

end Scalar

/-- Rounding to the precision is idempotent and odd. -/
structure Decimals.IsStable (d : Decimals) (α : Type) [Scalar α] : Prop where
  round_round : ∀ a : α, d.round (d.round a) = d.round a
  round_neg : ∀ a : α, d.round (-a) = -d.round a

end Univariate
