import Mathlib.Order.Bounds.Basic
import Univariate.Formula
import Univariate.Proofs.Values

/-!
# Combinations of formulas

Formulas combine by the arithmetic operators and by composition, with any letters and precisions. A
combination is evaluated by combining the unrounded values of its parts and rounding the result
once, at the least precision of all its parts. Numbers need few laws for this: the leaf of a number
has its value, and signs move through sums, products and quotients.
-/

namespace Univariate

/-- The laws of an arithmetic in which signs move freely through sums, products and quotients. -/
structure SignLaws (α : Type) [Scalar α] : Prop where
  /-- The leaf of a number has that number as its value. -/
  eval_ofNumber : ∀ a x : α, (Expr.ofNumber a).eval x = a
  neg_neg : ∀ a : α, - -a = a
  add_neg : ∀ a b : α, a + -b = a - b
  sub_neg : ∀ a b : α, a - -b = a + b
  neg_mul : ∀ a b : α, -a * b = -(a * b)
  mul_neg : ∀ a b : α, a * -b = -(a * b)
  neg_div : ∀ a b : α, -a / b = -(a / b)
  div_neg : ∀ a b : α, a / -b = -(a / b)

namespace SignLaws

variable {α : Type} [Scalar α] (laws : SignLaws α)

include laws

/-- Two signs combine into one. -/
theorem negateNumberIf_bne (m n : Bool) (a : α) :
    negateNumberIf (m != n) a = negateNumberIf m (negateNumberIf n a) := by
  cases m with
  | false => rw [Bool.false_bne]; rfl
  | true =>
    rw [Bool.true_bne]
    exact negateNumberIf_not laws.neg_neg n a

/-- The signs of the operands of a product or quotient are the sign of the result. -/
theorem apply_negateNumberIf {op : BinaryOp} (hop : op = .multiplication ∨ op = .division)
    (m n : Bool) (a b : α) : op.apply (negateNumberIf m a) (negateNumberIf n b) =
      negateNumberIf (m != n) (op.apply a b) := by
  have hleft (b : α) : op.apply (negateNumberIf m a) b = negateNumberIf m (op.apply a b) := by
    cases m with
    | false => rfl
    | true =>
      obtain rfl | rfl := hop
      · exact laws.neg_mul a b
      · exact laws.neg_div a b
  have hright : op.apply a (negateNumberIf n b) = negateNumberIf n (op.apply a b) := by
    cases n with
    | false => rfl
    | true =>
      obtain rfl | rfl := hop
      · exact laws.mul_neg a b
      · exact laws.div_neg a b
  rw [hleft, hright, laws.negateNumberIf_bne]

/-- A negated tree has the negated value. -/
theorem eval_neg (t : Expr α) (x : α) : (-t).eval x = -t.eval x :=
  Expr.eval_neg laws.neg_neg t x

/-- An operation has the value of the operation on the values of its operands. -/
theorem eval_apply2 (op : BinaryOp) (s t : Expr α) (x : α) :
    (Expr.apply2 op s t).eval x = op.apply (s.eval x) (t.eval x) :=
  Expr.eval_apply2 laws.eval_ofNumber op s t x

/-- A sum has the sum of the values. -/
theorem eval_add (s t : Expr α) (x : α) : (s + t).eval x = s.eval x + t.eval x := by
  rw [Expr.add_def]
  split
  · rw [laws.eval_apply2, laws.eval_neg]
    exact laws.sub_neg _ _
  · exact laws.eval_apply2 .addition s t x

/-- A difference has the difference of the values. -/
theorem eval_sub (s t : Expr α) (x : α) : (s - t).eval x = s.eval x - t.eval x := by
  rw [Expr.sub_def]
  split
  · rw [laws.eval_apply2, laws.eval_neg]
    exact laws.add_neg _ _
  · exact laws.eval_apply2 .subtraction s t x

omit laws in
/-- Setting the flag of a tree puts a sign before the value of the unsigned tree. -/
theorem eval_withNegative (negative : Bool) (t : Expr α) (x : α) :
    (t.withNegative negative).eval x = negateNumberIf negative (t.unsigned.eval x) := by
  cases t <;> rfl

/-- Signs that are hoisted out of a product or quotient change nothing. -/
theorem eval_hoistSigns {op : BinaryOp} (hop : op = .multiplication ∨ op = .division)
    (s t : Expr α) (x : α) :
    (Expr.hoistSigns op s t).eval x = op.apply (s.eval x) (t.eval x) := by
  have hsigned (u : Expr α) : u.eval x = negateNumberIf u.isNegative (u.unsigned.eval x) := by
    rw [← eval_withNegative, Expr.withNegative_isNegative]
  have hunsigned : (Expr.apply2 op s.unsigned t.unsigned).unsigned =
      Expr.apply2 op s.unsigned t.unsigned := rfl
  rw [Expr.hoistSigns, eval_withNegative, hunsigned, laws.eval_apply2, hsigned s, hsigned t,
    laws.apply_negateNumberIf hop]

/-- A product has the product of the values. -/
theorem eval_mul (s t : Expr α) (x : α) : (s * t).eval x = s.eval x * t.eval x :=
  laws.eval_hoistSigns (.inl rfl) s t x

/-- A quotient has the quotient of the values. -/
theorem eval_div (s t : Expr α) (x : α) : (s / t).eval x = s.eval x / t.eval x :=
  laws.eval_hoistSigns (.inr rfl) s t x

/-- What is substituted for the variable is where the outer tree is evaluated. -/
theorem eval_substitute (s t : Expr α) (x : α) : (s.substitute t).eval x = s.eval (t.eval x) := by
  induction s with
  | var negative =>
    cases negative with
    | false => rfl
    | true => exact laws.eval_neg t x
  | num negative magnitude => rfl
  | unary negative op a ih =>
    rw [Expr.substitute, eval_withNegative, Expr.eval, ← ih]
    rfl
  | binary negative op a b iha ihb =>
    rw [Expr.substitute, eval_withNegative, Expr.eval, ← iha, ← ihb]
    exact congrArg _ (laws.eval_apply2 op _ _ x)

end SignLaws

namespace Decimals

/-- The place of a precision in their order: results that are left as they are come before all digit
counts. -/
def rank : Decimals → WithBot ℕ
  | unrounded => ⊥
  | digits n => n

instance : Preorder Decimals := Preorder.lift rank

/-- The lesser of two precisions is one of them. -/
theorem least_eq (d e : Decimals) : d.least e = d ∨ d.least e = e := by
  cases d with
  | unrounded => exact .inl rfl
  | digits m =>
    cases e with
    | unrounded => exact .inr rfl
    | digits n =>
      rcases Nat.le_total m n with h | h
      · exact .inl (congrArg digits (Nat.min_eq_left h))
      · exact .inr (congrArg digits (Nat.min_eq_right h))

/-- Leaving results as they are is the least precision. -/
theorem unrounded_le (d : Decimals) : unrounded ≤ d := show (⊥ : WithBot ℕ) ≤ d.rank from bot_le

/-- The lesser of two precisions is no greater than either. -/
theorem least_le (d e : Decimals) : d.least e ≤ d ∧ d.least e ≤ e := by
  cases d with
  | unrounded => exact ⟨unrounded_le _, unrounded_le _⟩
  | digits m =>
    cases e with
    | unrounded => exact ⟨unrounded_le _, unrounded_le _⟩
    | digits n =>
      exact ⟨WithBot.coe_le_coe.mpr (Nat.min_le_left m n),
        WithBot.coe_le_coe.mpr (Nat.min_le_right m n)⟩

/-- The least of two precisions that are the least of some is the least of all of these. -/
theorem isLeast_least {S T : Set Decimals} {d e : Decimals} (hd : IsLeast S d) (he : IsLeast T e) :
    IsLeast (S ∪ T) (d.least e) := by
  obtain ⟨hled, hlee⟩ := least_le d e
  constructor
  · rcases least_eq d e with h | h
    · rw [h]
      exact .inl hd.1
    · rw [h]
      exact .inr he.1
  · rintro c (hc | hc)
    · exact le_trans hled (hd.2 hc)
    · exact le_trans hlee (he.2 hc)

end Decimals

/-- A combination of formulas by the operations on formulas. -/
inductive Combination (α : Type) where
  | formula (f : Formula α)
  | neg (c : Combination α)
  | add (c d : Combination α)
  | sub (c d : Combination α)
  | mul (c d : Combination α)
  | div (c d : Combination α)
  | substituteInto (inner outer : Combination α)

namespace Combination

variable {α : Type}

/-- The precisions of the formulas that are combined. -/
def precisions : Combination α → Set Decimals
  | formula f => {f.decimals}
  | neg c => c.precisions
  | add c d | sub c d | mul c d | div c d => c.precisions ∪ d.precisions
  | substituteInto inner outer => inner.precisions ∪ outer.precisions

/-- The letter of the leftmost formula, or of the outermost one of a composition. -/
def letter : Combination α → Letter
  | formula f => f.letter
  | neg c => c.letter
  | add c _ | sub c _ | mul c _ | div c _ => c.letter
  | substituteInto _ outer => outer.letter

variable [Scalar α]

/-- The formula that the operations on formulas make of a combination. -/
def toFormula : Combination α → Formula α
  | formula f => f
  | neg c => -c.toFormula
  | add c d => c.toFormula + d.toFormula
  | sub c d => c.toFormula - d.toFormula
  | mul c d => c.toFormula * d.toFormula
  | div c d => c.toFormula / d.toFormula
  | substituteInto inner outer => inner.toFormula.substituteInto outer.toFormula

/-- The operations applied point by point to the unrounded values of the formulas. -/
def value (x : α) : Combination α → α
  | formula f => f.expr.eval x
  | neg c => -c.value x
  | add c d => c.value x + d.value x
  | sub c d => c.value x - d.value x
  | mul c d => c.value x * d.value x
  | div c d => c.value x / d.value x
  | substituteInto inner outer => outer.value (inner.value x)

/-- A combination has the least precision of its formulas. -/
theorem isLeast_decimals_toFormula (c : Combination α) :
    IsLeast c.precisions c.toFormula.decimals := by
  induction c with
  | formula f => exact isLeast_singleton
  | neg c ih => exact ih
  | add c d ihc ihd | sub c d ihc ihd | mul c d ihc ihd | div c d ihc ihd =>
    exact Decimals.isLeast_least ihc ihd
  | substituteInto inner outer ihi iho => exact Decimals.isLeast_least ihi iho

/-- A combination has the letter of its leftmost or outermost formula. -/
theorem letter_toFormula (c : Combination α) : c.toFormula.letter = c.letter := by
  induction c with
  | formula f => rfl
  | neg c ih => exact ih
  | add c d ihc | sub c d ihc | mul c d ihc | div c d ihc => exact ihc
  | substituteInto inner outer _ iho => exact iho

/-- The tree of a combination has the value that the operations make of the values of the formulas.
-/
theorem eval_toFormula (laws : SignLaws α) (c : Combination α) (x : α) :
    c.toFormula.expr.eval x = c.value x := by
  induction c generalizing x with
  | formula f => rfl
  | neg c ih => exact (laws.eval_neg _ x).trans (congrArg Neg.neg (ih x))
  | add c d ihc ihd =>
    exact (laws.eval_add _ _ x).trans (congrArg₂ (· + ·) (ihc x) (ihd x))
  | sub c d ihc ihd =>
    exact (laws.eval_sub _ _ x).trans (congrArg₂ (· - ·) (ihc x) (ihd x))
  | mul c d ihc ihd =>
    exact (laws.eval_mul _ _ x).trans (congrArg₂ (· * ·) (ihc x) (ihd x))
  | div c d ihc ihd =>
    exact (laws.eval_div _ _ x).trans (congrArg₂ (· / ·) (ihc x) (ihd x))
  | substituteInto inner outer ihi iho =>
    have hcompose : (substituteInto inner outer).toFormula.expr.eval x =
        outer.toFormula.expr.eval (inner.toFormula.expr.eval x) := laws.eval_substitute _ _ x
    rw [hcompose, ihi, iho]
    rfl

/-- A combination has the combined value of its parts, rounded once at the least of all precisions,
and is written with the letter of its leftmost or outermost part. -/
theorem evaluate_toFormula (laws : SignLaws α) (c : Combination α) (x : α) :
    (∃ d, IsLeast c.precisions d ∧ c.toFormula.evaluate x = d.round (c.value x)) ∧
      c.toFormula.letter = c.letter :=
  ⟨⟨c.toFormula.decimals, c.isLeast_decimals_toFormula,
    congrArg _ (c.eval_toFormula laws x)⟩, c.letter_toFormula⟩

end Combination

namespace Exact

variable {tg : ℝ → Option ℝ}

/-- Signs move freely through sums, products and quotients of exact numbers. -/
theorem signLaws : SignLaws (Exact tg) where
  eval_ofNumber
    | real a, _ => by
      obtain ⟨b, hb, hvalue⟩ : (Expr.ofNumber (real a : Exact tg)).HasValue False 0 a :=
        Expr.hasValue_ofNumber a
      exact negateNumberIf_eq_real_iff.mpr ⟨b, hb, hvalue⟩
    | undefined, _ => rfl
  neg_neg
    | real a => by rw [neg_real, neg_real, neg_neg]
    | undefined => rfl
  add_neg
    | real a, real b => by rw [neg_real, add_real, sub_real, sub_eq_add_neg]
    | real _, undefined => rfl
    | undefined, _ => rfl
  sub_neg
    | real a, real b => by rw [neg_real, add_real, sub_real, sub_neg_eq_add]
    | real _, undefined => rfl
    | undefined, _ => rfl
  neg_mul
    | real a, real b => by rw [neg_real, mul_real, mul_real, neg_real, neg_mul]
    | real _, undefined => rfl
    | undefined, _ => rfl
  mul_neg
    | real a, real b => by rw [neg_real, mul_real, mul_real, neg_real, mul_neg]
    | real _, undefined => rfl
    | undefined, _ => rfl
  neg_div
    | real a, real b => by
      by_cases hb : b = 0
      · rw [hb, neg_real, div_zero, div_zero]
        rfl
      · rw [neg_real, div_real hb, div_real hb, neg_real, neg_div]
    | real _, undefined => rfl
    | undefined, _ => rfl
  div_neg
    | real a, real b => by
      by_cases hb : b = 0
      · rw [hb, neg_real, neg_zero, div_zero]
        rfl
      · rw [neg_real, div_real (neg_ne_zero.mpr hb), div_real hb, neg_real, div_neg]
    | real _, undefined => rfl
    | undefined, _ => rfl

/-- The product of the formulas `-x` and `t + 1` is put into the quotient of `-(t + 1)` and `-x`,
which is written with the letter `t`. -/
theorem evaluate_toFormula_composition :
    let f : Combination (Exact tangent?) :=
      .formula ⟨.var true, ⟨'x', isLetter_of_isAlpha rfl⟩, .digits 4⟩
    let g : Combination (Exact tangent?) := .formula
      ⟨.binary false .addition (.var false) (.num false (real 1)), ⟨'t', isLetter_of_isAlpha rfl⟩,
        .digits 2⟩
    let c := Combination.substituteInto (.mul f g) (.div (.neg g) f)
    SignLaws (Exact tangent?) ∧
      (∃ d, IsLeast c.precisions d ∧ c.toFormula.evaluate (real 2) = d.round (real (5 / 6))) ∧
      c.toFormula.letter.char = 't' := by
  intro f g c
  have hinner : (-real 2 * (real 2 + real 1) : Exact tangent?) = real (-6) := by
    rw [neg_real, add_real, mul_real]
    norm_num
  have hvalue : c.value (real 2) = real (5 / 6) := by
    show -(-real 2 * (real 2 + real 1) + real 1) / -(-real 2 * (real 2 + real 1)) = real (5 / 6)
    rw [hinner, add_real, neg_real, neg_real, div_real (by norm_num)]
    norm_num
  obtain ⟨hround, hletter⟩ := c.evaluate_toFormula signLaws (real 2)
  rw [hvalue] at hround
  exact ⟨signLaws, hround, by rw [hletter]; rfl⟩

end Exact

end Univariate
