import Mathlib.Analysis.SpecialFunctions.Pow.Real
import Mathlib.Analysis.SpecialFunctions.Trigonometric.Basic
import Univariate.Expr.Basic

/-!
# Exact numbers

Trees can be read on the real numbers with partial operations. An exact number is a real number or
undefined, and an operation outside its domain, or on an operand that is undefined, is undefined.
The tangent is a parameter, because no rule of simplification depends on it.
-/

namespace Univariate

/-- A real number, or the result of an operation that has none. -/
inductive Exact (tg : ℝ → Option ℝ) where
  /-- A real number. -/
  | real (a : ℝ)
  /-- No number. -/
  | undefined

namespace Exact

variable {tg : ℝ → Option ℝ}

/-- The result of a partial function on the reals. -/
def ofOption : Option ℝ → Exact tg
  | some a => real a
  | none => undefined

/-- A partial function on exact numbers. -/
def bind (f : ℝ → Option ℝ) : Exact tg → Exact tg
  | real a => ofOption (f a)
  | undefined => undefined

open Classical in
/-- An operation on exact numbers, with a value for the operands in its domain. -/
noncomputable def combine (domain : ℝ → ℝ → Prop) (f : ℝ → ℝ → ℝ) :
    Exact tg → Exact tg → Exact tg
  | real a, real b => if domain a b then real (f a b) else undefined
  | _, _ => undefined

open Classical in
/-- A relation of exact numbers, which holds for no undefined one. -/
noncomputable def compare (relation : ℝ → ℝ → Prop) : Exact tg → Exact tg → Bool
  | real a, real b => decide (relation a b)
  | _, _ => false

end Exact

/-- The tangent on its domain. -/
noncomputable def tangent? (a : ℝ) : Option ℝ :=
  if Real.cos a = 0 then none else some (Real.tan a)

/-- A whole number next to a real number, the even one if there are two. -/
noncomputable def roundEven (a : ℝ) : ℤ :=
  if Int.fract a < 1 / 2 ∨ (Int.fract a = 1 / 2 ∧ Even ⌊a⌋) then ⌊a⌋ else ⌊a⌋ + 1

/-- A number that is not negative is not rounded below zero. -/
theorem roundEven_nonneg {a : ℝ} (ha : 0 ≤ a) : 0 ≤ roundEven a := by
  have hfloor : 0 ≤ ⌊a⌋ := Int.floor_nonneg.mpr ha
  unfold roundEven
  split <;> omega

/-- The operands for which an operation on real numbers has a value. The base of a power or root is
positive, or, unless it must be, any number but zero with a whole exponent. -/
def BinaryOp.Domain (positive : Prop) : BinaryOp → ℝ → ℝ → Prop
  | addition, _, _ | subtraction, _, _ | multiplication, _, _ => True
  | division, _, b => b ≠ 0
  | power, a, b => 0 < a ∨ (¬positive ∧ a ≠ 0 ∧ ∃ n : ℤ, b = n)
  | logarithm, a, b => 0 < a ∧ 0 < b ∧ b ≠ 1
  | root, a, b => b ≠ 0 ∧ (0 < a ∨ (¬positive ∧ a ≠ 0 ∧ ∃ n : ℤ, 1 / b = n))

/-- The domain of an operation grows if bases need not be positive. -/
theorem BinaryOp.domain_mono {op : BinaryOp} {p q : Prop} {a b : ℝ} (hpq : q → p)
    (h : op.Domain p a b) : op.Domain q a b := by
  cases op with
  | power => exact h.imp_right fun ⟨hp, hrest⟩ => ⟨fun hq => hp (hpq hq), hrest⟩
  | root => exact ⟨h.1, h.2.imp_right fun ⟨hp, hrest⟩ => ⟨fun hq => hp (hpq hq), hrest⟩⟩
  | _ => exact h

/-- The operations on real numbers. -/
noncomputable def BinaryOp.real : BinaryOp → ℝ → ℝ → ℝ
  | addition, a, b => a + b
  | subtraction, a, b => a - b
  | multiplication, a, b => a * b
  | division, a, b => a / b
  | power, a, b => a ^ b
  | logarithm, a, b => Real.log a / Real.log b
  | root, a, b => a ^ (1 / b)

/-- The functions of one argument on real numbers. -/
noncomputable def UnaryOp.real? (tg : ℝ → Option ℝ) : UnaryOp → ℝ → Option ℝ
  | sine, a => some (Real.sin a)
  | cosine, a => some (Real.cos a)
  | tangent, a => tg a

namespace Exact

variable {tg : ℝ → Option ℝ}

noncomputable instance : Scalar (Exact tg) where
  zero := real 0
  one := real 1
  neg := bind fun a => some (-a)
  add := combine (BinaryOp.Domain False .addition) (BinaryOp.real .addition)
  sub := combine (BinaryOp.Domain False .subtraction) (BinaryOp.real .subtraction)
  mul := combine (BinaryOp.Domain False .multiplication) (BinaryOp.real .multiplication)
  div := combine (BinaryOp.Domain False .division) (BinaryOp.real .division)
  pow := combine (BinaryOp.Domain False .power) (BinaryOp.real .power)
  log := combine (BinaryOp.Domain False .logarithm) (BinaryOp.real .logarithm)
  sin := bind (UnaryOp.real? tg .sine)
  cos := bind (UnaryOp.real? tg .cosine)
  tan := bind (UnaryOp.real? tg .tangent)
  abs := bind fun a => some |a|
  euler := real (Real.exp 1)
  pi := real Real.pi
  undefined := undefined
  less := compare (· < ·)
  equal := compare (· = ·)
  roundTo n := bind fun a => some (roundEven (a * 10 ^ n) / 10 ^ n)

noncomputable instance : DecidableEq (Exact tg) := Classical.decEq _

/-- The exact number one is the real number. -/
@[simp] theorem one_def : (1 : Exact tg) = real 1 := rfl

/-- The magnitude of an exact number is that of the real number. -/
@[simp] theorem abs_real (a : ℝ) : Scalar.abs (real a : Exact tg) = real |a| := rfl

/-- Exact numbers are ordered like the real numbers. -/
theorem less_real {a b : ℝ} : Scalar.less (real a : Exact tg) (real b) = true ↔ a < b := by
  simp [Scalar.less, compare]

/-- Exact numbers are equal exactly if the real numbers are. -/
theorem equal_real {a b : ℝ} : Scalar.equal (real a : Exact tg) (real b) = true ↔ a = b := by
  simp [Scalar.equal, compare]

/-- An exact number is negative exactly if the real number is. -/
theorem isNegative_real {a : ℝ} : Scalar.isNegative (real a : Exact tg) = true ↔ a < 0 :=
  less_real

/-- An operation has a real result exactly if its operands are real and in its domain. -/
theorem combine_eq_real_iff {domain : ℝ → ℝ → Prop} {f : ℝ → ℝ → ℝ} {m n : Exact tg} {c : ℝ} :
    combine domain f m n = real c ↔
      ∃ a b, m = real a ∧ n = real b ∧ domain a b ∧ f a b = c := by
  constructor
  · intro h
    cases m with
    | undefined => cases h
    | real a =>
      cases n with
      | undefined => cases h
      | real b =>
        rw [combine] at h
        split at h
        · next hdomain => exact ⟨a, b, rfl, rfl, hdomain, real.inj h⟩
        · cases h
  · rintro ⟨a, b, rfl, rfl, hdomain, rfl⟩
    rw [combine, if_pos hdomain]

/-- A partial function has a real result exactly if its argument is real and has a value. -/
theorem bind_eq_real_iff {f : ℝ → Option ℝ} {m : Exact tg} {c : ℝ} :
    bind f m = real c ↔ ∃ a, m = real a ∧ f a = some c := by
  constructor
  · intro h
    cases m with
    | undefined => cases h
    | real a =>
      rw [bind] at h
      cases hf : f a with
      | none => rw [hf] at h; cases h
      | some b =>
        rw [hf] at h
        cases real.inj h
        exact ⟨a, rfl, hf⟩
  · rintro ⟨a, rfl, hf⟩
    rw [bind, hf]
    rfl

/-- A function of one argument has a value exactly where the function of the reals has it. -/
theorem unary_eq_real_iff {op : UnaryOp} {m : Exact tg} {c : ℝ} :
    op.apply m = real c ↔ ∃ a, m = real a ∧ op.real? tg a = some c := by
  cases op <;> exact bind_eq_real_iff

/-- An operation has a value exactly for operands in its domain. -/
theorem binary_eq_real_iff {op : BinaryOp} {m n : Exact tg} {c : ℝ} :
    op.apply m n = real c ↔
      ∃ a b, m = real a ∧ n = real b ∧ op.Domain False a b ∧ op.real a b = c := by
  cases op with
  | root =>
    have hinverse {d : ℝ} : (1 / n : Exact tg) = real d ↔
        ∃ e b, (1 : Exact tg) = real e ∧ n = real b ∧ b ≠ 0 ∧ e / b = d := combine_eq_real_iff
    constructor
    · intro h
      obtain ⟨a, d, rfl, hd, hdomain, rfl⟩ := combine_eq_real_iff.mp h
      obtain ⟨e, b, he, rfl, hb, rfl⟩ := hinverse.mp hd
      cases real.inj he
      exact ⟨a, b, rfl, rfl, ⟨hb, hdomain⟩, rfl⟩
    · rintro ⟨a, b, rfl, rfl, ⟨hb, hdomain⟩, rfl⟩
      exact combine_eq_real_iff.mpr
        ⟨a, 1 / b, rfl, hinverse.mpr ⟨1, b, rfl, rfl, hb, rfl⟩, hdomain, rfl⟩
  | _ => exact combine_eq_real_iff

/-- The negation of an exact number is that of the real number. -/
theorem neg_real (a : ℝ) : (-real a : Exact tg) = real (-a) := rfl

/-- The sum of exact numbers is that of the real numbers. -/
theorem add_real (a b : ℝ) : (real a + real b : Exact tg) = real (a + b) :=
  combine_eq_real_iff.mpr ⟨a, b, rfl, rfl, trivial, rfl⟩

/-- The difference of exact numbers is that of the real numbers. -/
theorem sub_real (a b : ℝ) : (real a - real b : Exact tg) = real (a - b) :=
  combine_eq_real_iff.mpr ⟨a, b, rfl, rfl, trivial, rfl⟩

/-- The product of exact numbers is that of the real numbers. -/
theorem mul_real (a b : ℝ) : (real a * real b : Exact tg) = real (a * b) :=
  combine_eq_real_iff.mpr ⟨a, b, rfl, rfl, trivial, rfl⟩

/-- The quotient of exact numbers is that of the real numbers, unless the divisor is zero. -/
theorem div_real {b : ℝ} (hb : b ≠ 0) (a : ℝ) : (real a / real b : Exact tg) = real (a / b) :=
  combine_eq_real_iff.mpr ⟨a, b, rfl, rfl, hb, rfl⟩

/-- A quotient by zero is undefined. -/
theorem div_zero (a : ℝ) : (real a / real 0 : Exact tg) = undefined :=
  if_neg fun h => h rfl

/-- A magnitude is not negative, and rounding keeps a number that is not. -/
instance : LawfulScalar (Exact tg) where
  abs_not_negative a := by
    cases a with
    | undefined => rfl
    | real a => exact Bool.eq_false_iff.mpr fun h => (abs_nonneg a).not_gt (isNegative_real.mp h)
  roundTo_not_negative n a := by
    cases a with
    | undefined => exact fun _ => rfl
    | real a =>
      intro ha
      refine Bool.eq_false_iff.mpr fun h => ?_
      have hround : (roundEven (a * 10 ^ n) : ℝ) / 10 ^ n < 0 := isNegative_real.mp h
      have ha : 0 ≤ a := by
        by_contra hneg
        rw [isNegative_real.mpr (not_le.mp hneg)] at ha
        cases ha
      have hnonneg : (0 : ℝ) ≤ roundEven (a * 10 ^ n) :=
        Int.cast_nonneg (roundEven_nonneg (by positivity))
      exact hround.not_ge (by positivity)

end Exact

end Univariate
