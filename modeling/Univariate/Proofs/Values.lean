import Mathlib.Tactic.Ring
import Univariate.Expr.Arithmetic
import Univariate.Expr.Equality
import Univariate.Proofs.Exact

/-!
# Values of trees

A tree has a value at a point if every subtree has one and every operation is applied in its domain.
The operators on trees keep values: folding a constant operand or moving a sign changes none.
-/

namespace Univariate

/-- A number whose sign is kept is the number. -/
@[simp] theorem negateNumberIf_false {α : Type} [Neg α] (a : α) : negateNumberIf false a = a := rfl

/-- Changing the flag of a number from `n` to `m` changes its sign if the flags differ. -/
theorem negateNumberIf_withNegative (m n : Bool) (a : ℝ) :
    negateNumberIf (m != n) (negateNumberIf n a) = negateNumberIf m a := by
  cases m <;> cases n <;> simp [negateNumberIf]

/-- Changing a sign twice keeps the number. -/
theorem negateNumberIf_twice (negative : Bool) (a : ℝ) :
    negateNumberIf negative (negateNumberIf negative a) = a := by
  cases negative <;> simp [negateNumberIf]

/-- Changing its sign makes no number zero. -/
theorem negateNumberIf_ne_zero {negative : Bool} {a : ℝ} (ha : a ≠ 0) :
    negateNumberIf negative a ≠ 0 := by
  cases negative <;> simpa [negateNumberIf] using ha

/-- The sign of an exact number is changed like that of the real number. -/
theorem negateNumberIf_real {tg : ℝ → Option ℝ} (negative : Bool) (a : ℝ) :
    negateNumberIf negative (Exact.real a : Exact tg) = .real (negateNumberIf negative a) := by
  cases negative <;> rfl

/-- Only a real number has a real number as its negation. -/
theorem negateNumberIf_eq_real_iff {tg : ℝ → Option ℝ} {negative : Bool} {m : Exact tg} {c : ℝ} :
    negateNumberIf negative m = .real c ↔ ∃ a, m = .real a ∧ negateNumberIf negative a = c := by
  cases m with
  | undefined => cases negative <;> simp [negateNumberIf, Neg.neg, Exact.bind]
  | real a => simp [negateNumberIf_real]

namespace Expr

section HasValue

variable {tg : ℝ → Option ℝ} {positive : Prop} {x a b c : ℝ} {s t l r : Expr (Exact tg)}

/-- A tree has a value at a point: every subtree of it has one there, and every operation has its
operands in its domain. -/
def HasValue (positive : Prop) (x : ℝ) : Expr (Exact tg) → ℝ → Prop
  | .var negative, c => negateNumberIf negative x = c
  | .num negative magnitude, c => ∃ a, magnitude = .real a ∧ negateNumberIf negative a = c
  | .unary negative op operand, c => ∃ a b, operand.HasValue positive x a ∧
      op.real? tg a = some b ∧ negateNumberIf negative b = c
  | .binary negative op left right, c => ∃ a b, left.HasValue positive x a ∧
      right.HasValue positive x b ∧ op.Domain positive a b ∧
      negateNumberIf negative (op.real a b) = c

/-- A tree whose bases may be negative has a value exactly if it evaluates to a number. -/
theorem hasValue_iff_eval : t.HasValue False x c ↔ t.eval (.real x) = .real c := by
  induction t generalizing c with
  | var negative => simp [HasValue, eval, negateNumberIf_real]
  | num negative magnitude => simp only [HasValue, eval, negateNumberIf_eq_real_iff]
  | unary negative op operand ih =>
    simp only [HasValue, eval, negateNumberIf_eq_real_iff, Exact.unary_eq_real_iff, ih]
    constructor
    · rintro ⟨a, b, ha, hb, hc⟩
      exact ⟨b, ⟨a, ha, hb⟩, hc⟩
    · rintro ⟨b, ⟨a, ha, hb⟩, hc⟩
      exact ⟨a, b, ha, hb, hc⟩
  | binary negative op left right ihl ihr =>
    simp only [HasValue, eval, negateNumberIf_eq_real_iff, Exact.binary_eq_real_iff, ihl, ihr]
    constructor
    · rintro ⟨a, b, ha, hb, hdomain, hc⟩
      exact ⟨_, ⟨a, b, ha, hb, hdomain, rfl⟩, hc⟩
    · rintro ⟨_, ⟨a, b, ha, hb, hdomain, rfl⟩, hc⟩
      exact ⟨a, b, ha, hb, hdomain, hc⟩

/-- Asking for less of the bases keeps values. -/
theorem HasValue.mono {p q : Prop} (hpq : q → p) (h : t.HasValue p x c) : t.HasValue q x c := by
  induction t generalizing c with
  | var negative => exact h
  | num negative magnitude => exact h
  | unary negative op operand ih =>
    obtain ⟨a, b, ha, hb, hc⟩ := h
    exact ⟨a, b, ih ha, hb, hc⟩
  | binary negative op left right ihl ihr =>
    obtain ⟨a, b, ha, hb, hdomain, hc⟩ := h
    exact ⟨a, b, ihl ha, ihr hb, BinaryOp.domain_mono hpq hdomain, hc⟩

/-- A tree with a value evaluates to it. -/
theorem HasValue.eval_eq (h : t.HasValue positive x c) : t.eval (.real x) = .real c :=
  hasValue_iff_eval.mp (h.mono False.elim)

/-- A tree has every number that equals its value as its value. -/
theorem HasValue.congr (h : t.HasValue positive x a) (hab : a = b) : t.HasValue positive x b :=
  hab ▸ h

/-- A tree has at most one value. -/
theorem HasValue.unique (ha : t.HasValue positive x a) (hb : t.HasValue positive x b) : a = b :=
  Exact.real.inj (ha.eval_eq.symm.trans hb.eval_eq)

/-- The value of a constant tree is the same everywhere. -/
theorem HasValue.of_isConstant (ht : t.isConstant = true) (h : t.HasValue positive x c) (y : ℝ) :
    t.HasValue positive y c := by
  induction t generalizing c with
  | var negative => cases ht
  | num negative magnitude => exact h
  | unary negative op operand ih =>
    obtain ⟨a, b, ha, hb, hc⟩ := h
    exact ⟨a, b, ih ht ha, hb, hc⟩
  | binary negative op left right ihl ihr =>
    obtain ⟨a, b, ha, hb, hdomain, hc⟩ := h
    rw [isConstant, Bool.and_eq_true] at ht
    exact ⟨a, b, ihl ht.1 ha, ihr ht.2 hb, hdomain, hc⟩

/-- A constant tree with a value has that value as its constant. -/
theorem HasValue.constant?_eq (h : t.HasValue positive x c) (ht : t.isConstant = true) :
    t.constant? = some (.real c) := by
  rw [constant?, if_pos ht, eval_of_isConstant ht _ (.real x), h.eval_eq]

/-- A tree that is recognised as a number has that number as its value. -/
theorem HasValue.eq_of_isNumber (h : t.HasValue positive x c) (ht : t.isNumber (.real a) = true) :
    c = a := by
  cases hconstant : t.isConstant with
  | false => simp [isNumber, constant?_eq_none hconstant] at ht
  | true =>
    rw [isNumber, h.constant?_eq hconstant] at ht
    exact Exact.equal_real.mp ht

/-- With a new flag, a tree has its value with the sign that the flags make of it. -/
theorem HasValue.withNegative (h : t.HasValue positive x c) (negative : Bool) :
    (t.withNegative negative).HasValue positive x
      (negateNumberIf (negative != t.isNegative) c) := by
  cases t with
  | var n =>
    cases h
    exact (negateNumberIf_withNegative negative n x).symm
  | num n magnitude =>
    obtain ⟨a, rfl, rfl⟩ := h
    exact ⟨a, rfl, (negateNumberIf_withNegative negative n a).symm⟩
  | unary n op operand =>
    obtain ⟨a, b, ha, hb, rfl⟩ := h
    exact ⟨a, b, ha, hb, (negateNumberIf_withNegative negative n b).symm⟩
  | binary n op left right =>
    obtain ⟨a, b, ha, hb, hdomain, rfl⟩ := h
    exact ⟨a, b, ha, hb, hdomain, (negateNumberIf_withNegative negative n _).symm⟩

/-- The negation of a tree has the negated value. -/
theorem HasValue.neg (h : t.HasValue positive x c) : (-t).HasValue positive x (-c) := by
  have hflag := h.withNegative (!t.isNegative)
  rwa [Bool.not_bne_self] at hflag

/-- A tree with its sign changed or kept has its value with the sign changed or kept. -/
theorem HasValue.negateIf (h : t.HasValue positive x c) (negate : Bool) :
    (t.negateIf negate).HasValue positive x (negateNumberIf negate c) := by
  cases negate with
  | false => exact h
  | true => exact h.neg

/-- A tree without its sign has its value with the sign taken off. -/
theorem HasValue.unsigned (h : t.HasValue positive x c) :
    t.unsigned.HasValue positive x (negateNumberIf t.isNegative c) := by
  have hflag := h.withNegative false
  rwa [Bool.false_bne] at hflag

/-- A number has itself as its value. -/
theorem hasValue_ofNumber (a : ℝ) : (ofNumber (.real a : Exact tg)).HasValue positive x a := by
  refine ⟨|a|, rfl, ?_⟩
  by_cases ha : a < 0
  · rw [Exact.isNegative_real.mpr ha, abs_of_neg ha]
    exact neg_neg a
  · rw [Bool.eq_false_iff.mpr (mt Exact.isNegative_real.mp ha), abs_of_nonneg (not_lt.mp ha)]
    rfl

/-- Folding a constant tree keeps its value. -/
theorem HasValue.folded (h : t.HasValue positive x c) : t.folded.HasValue positive x c := by
  unfold Expr.folded
  cases t.isLeaf with
  | true => exact h
  | false =>
    cases hconstant : t.isConstant with
    | false =>
      rw [constant?_eq_none hconstant]
      exact h
    | true =>
      rw [h.constant?_eq hconstant]
      exact hasValue_ofNumber c

/-- An operation on one operand has the value of the operation on the value of the operand. -/
theorem HasValue.apply1 (op : UnaryOp) (h : t.HasValue positive x a) (hop : op.real? tg a = some b) :
    (Expr.apply1 op t).HasValue positive x b :=
  ⟨a, b, h, hop, rfl⟩

/-- An operation has the value of the operation on the values of its operands, in its domain. -/
theorem HasValue.apply2 (op : BinaryOp) (hl : l.HasValue positive x a) (hr : r.HasValue positive x b)
    (hop : op.Domain positive a b) : (Expr.apply2 op l r).HasValue positive x (op.real a b) :=
  ⟨a, b, hl.folded, hr.folded, hop, rfl⟩

/-- A sum has the sum of the values as its value. -/
theorem HasValue.add (hs : s.HasValue positive x a) (ht : t.HasValue positive x b) :
    (s + t).HasValue positive x (a + b) := by
  rw [add_def]
  split
  · have hdifference := hs.apply2 .subtraction ht.neg trivial
    rwa [BinaryOp.real, sub_neg_eq_add] at hdifference
  · exact hs.apply2 .addition ht trivial

/-- A difference has the difference of the values as its value. -/
theorem HasValue.sub (hs : s.HasValue positive x a) (ht : t.HasValue positive x b) :
    (s - t).HasValue positive x (a - b) := by
  rw [sub_def]
  split
  · have hsum := hs.apply2 .addition ht.neg trivial
    rwa [BinaryOp.real, ← sub_eq_add_neg] at hsum
  · exact hs.apply2 .subtraction ht trivial

/-- The signs of the operands of a product or quotient can be applied to the result. -/
theorem HasValue.hoistSigns {op : BinaryOp} (hop : op = .multiplication ∨ op = .division)
    (hs : s.HasValue positive x a) (ht : t.HasValue positive x b) (hdomain : op.Domain positive a b) :
    (Expr.hoistSigns op s t).HasValue positive x (op.real a b) := by
  have hunsigned : op.Domain positive (negateNumberIf s.isNegative a)
      (negateNumberIf t.isNegative b) := by
    obtain rfl | rfl := hop
    · trivial
    · exact negateNumberIf_ne_zero hdomain
  have hflag := (hs.unsigned.apply2 op ht.unsigned hunsigned).withNegative
    (s.isNegative != t.isNegative)
  have hvalue : negateNumberIf ((s.isNegative != t.isNegative) != false)
      (op.real (negateNumberIf s.isNegative a) (negateNumberIf t.isNegative b)) =
      op.real a b := by
    obtain rfl | rfl := hop <;> cases s.isNegative <;> cases t.isNegative <;>
      simp [negateNumberIf, BinaryOp.real, neg_div, div_neg]
  exact hflag.congr hvalue

/-- A product has the product of the values as its value. -/
theorem HasValue.mul (hs : s.HasValue positive x a) (ht : t.HasValue positive x b) :
    (s * t).HasValue positive x (a * b) :=
  hs.hoistSigns (.inl rfl) ht trivial

/-- A quotient has the quotient of the values as its value, unless the divisor is zero. -/
theorem HasValue.div (hs : s.HasValue positive x a) (ht : t.HasValue positive x b) (hb : b ≠ 0) :
    (s / t).HasValue positive x (a / b) :=
  hs.hoistSigns (.inr rfl) ht hb

/-- A power has the power of the values as its value, in its domain. -/
theorem HasValue.pow (hs : s.HasValue positive x a) (ht : t.HasValue positive x b)
    (hdomain : BinaryOp.power.Domain positive a b) : (s.pow t).HasValue positive x (a ^ b) :=
  hs.apply2 .power ht hdomain

/-- A logarithm has the quotient of the natural logarithms of the values as its value. -/
theorem HasValue.log (hs : s.HasValue positive x a) (ht : t.HasValue positive x b) (ha : 0 < a)
    (hb : 0 < b) (hb' : b ≠ 1) :
    (s.log t).HasValue positive x (Real.log a / Real.log b) :=
  hs.apply2 .logarithm ht ⟨ha, hb, hb'⟩

/-- Euler's number has the real number of that name as its value. -/
theorem hasValue_euler : (euler : Expr (Exact tg)).HasValue positive x (Real.exp 1) :=
  hasValue_ofNumber (Real.exp 1)

/-- A natural logarithm has the natural logarithm of the value as its value. -/
theorem HasValue.ln (hs : s.HasValue positive x a) (ha : 0 < a) :
    s.ln.HasValue positive x (Real.log a) := by
  have hbase : Real.exp 1 ≠ 1 := by simp
  have heuler : (euler : Expr (Exact tg)).HasValue positive x (Real.exp 1) := hasValue_euler
  have hlog := hs.log heuler ha (Real.exp_pos 1) hbase
  rwa [Real.log_exp, div_one] at hlog

end HasValue

end Expr

end Univariate
