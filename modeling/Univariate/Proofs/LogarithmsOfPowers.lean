import Univariate.Proofs.Combinations
import Univariate.Proofs.SimplificationRuns
import Univariate.Proofs.SimplificationSoundness

/-!
# Logarithms of powers

Moving the exponent of a power out of a logarithm leaves a logarithm of the base, or to the base, of
the power. A power with a whole exponent has a value for a negative base too, where that logarithm
has none. The tree that is built has therefore the value of the logarithm exactly where the base of
the power is positive. That tree is simplified again, which keeps its value there. Elsewhere the
part without a value may be dropped: `log(x^0; 4)` becomes a multiple of zero and then zero.
-/

namespace Univariate

variable {tg : ℝ → Option ℝ}

/-- A rule that moves an exponent out of a logarithm, with a tree that it applies to and the base of
the power in it. -/
inductive Rule.MovesExponent {α : Type} [Scalar α] : Rule α → Expr α → Expr α → Prop
  | argument (negative : Bool) (a b c : Expr α) : MovesExponent logPowerArgument
      (.binary negative .logarithm (.binary false .power a b) c) a
  | base (negative : Bool) (c a b : Expr α) : MovesExponent logPowerBase
      (.binary negative .logarithm c (.binary false .power a b)) a

namespace Exact

/-- Outside of its domain an operation has no value. -/
theorem apply_eq_undefined {op : BinaryOp} {m n : Exact tg}
    (h : ∀ p q, m = real p → n = real q → ¬op.Domain False p q) : op.apply m n = undefined := by
  cases hresult : op.apply m n with
  | undefined => rfl
  | real r =>
    obtain ⟨p, q, hp, hq, hdomain, -⟩ := binary_eq_real_iff.mp hresult
    exact absurd hdomain (h p q hp hq)

/-- A product with an undefined factor is undefined. -/
theorem mul_undefined (m : Exact tg) : m * undefined = undefined := by
  cases m <;> rfl

/-- A quotient of what is undefined is undefined. -/
theorem undefined_div (m : Exact tg) : undefined / m = undefined := rfl

end Exact

namespace Expr

variable {positive : Prop} {x p : ℝ} {a : Expr (Exact tg)}

/-- The logarithm of a number that is not positive is undefined. -/
theorem HasValue.eval_log_of_not_pos (ha : a.HasValue positive x p) (hp : ¬0 < p)
    (c : Expr (Exact tg)) : (a.log c).eval (.real x) = .undefined := by
  rw [Expr.log, Exact.signLaws.eval_apply2, ha.eval_eq]
  refine Exact.apply_eq_undefined fun p' q hp' _ hdomain => hp ?_
  rw [Exact.real.inj hp']
  exact hdomain.1

/-- The logarithm to a base that is not positive is undefined. -/
theorem HasValue.eval_log_of_base_not_pos (ha : a.HasValue positive x p) (hp : ¬0 < p)
    (c : Expr (Exact tg)) : (c.log a).eval (.real x) = .undefined := by
  rw [Expr.log, Exact.signLaws.eval_apply2, ha.eval_eq]
  refine Exact.apply_eq_undefined fun q p' _ hp' hdomain => hp ?_
  rw [Exact.real.inj hp']
  exact hdomain.2.1

/-- A sign gives no value to a tree that has none. -/
theorem eval_negateIf_of_undefined (negative : Bool) (h : a.eval (.real x) = .undefined) :
    (a.negateIf negative).eval (.real x) = .undefined := by
  cases negative with
  | false => exact h
  | true =>
    have hneg := Exact.signLaws.eval_neg a (.real x)
    rw [h] at hneg
    exact hneg

end Expr

namespace Rule.MovesExponent

variable {positive : Prop} {x v p : ℝ} {rule : Rule (Exact tg)} {t a : Expr (Exact tg)}
  {reduct : Reduct (Exact tg)}

/-- A rule that moves an exponent out of a logarithm applies, and its tree is simplified again. -/
theorem exists_reduct (h : rule.MovesExponent t a) :
    ∃ reduct, rule t = some reduct ∧ reduct.step.isRebuilding = true := by
  cases h with
  | argument => exact ⟨_, rfl, rfl⟩
  | base => exact ⟨_, rfl, rfl⟩

/-- Where the base of the power is positive, the tree that the rule builds has the same value. -/
theorem hasValue_reduct (h : rule.MovesExponent t a) (hreduct : rule t = some reduct)
    (ha : a.HasValue False x p) (hp : 0 < p) (ht : t.HasValue positive x v) :
    reduct.tree.HasValue positive x v := by
  cases h with
  | argument negative a b c =>
    cases hreduct
    obtain ⟨w, q, ⟨p', n, hbase, hn, -, rfl⟩, hc, hlog, rfl⟩ := ht
    obtain rfl : p' = p := (hbase.mono False.elim).unique ha
    exact (hn.mul_log hbase hc hp hlog).negateIf negative
  | base negative c a b =>
    cases hreduct
    obtain ⟨q, w, hc, ⟨p', n, hbase, hn, -, rfl⟩, hlog, rfl⟩ := ht
    obtain rfl : p' = p := (hbase.mono False.elim).unique ha
    exact (hc.log_div hbase hn hp hlog).negateIf negative

/-- Where the base of the power is not positive, the tree that the rule builds has no value. -/
theorem eval_reduct_of_not_pos (h : rule.MovesExponent t a) (hreduct : rule t = some reduct)
    (ha : a.HasValue positive x p) (hp : ¬0 < p) : reduct.tree.eval (.real x) = .undefined := by
  cases h with
  | argument negative a b c =>
    cases hreduct
    refine Expr.eval_negateIf_of_undefined negative ?_
    rw [Exact.signLaws.eval_mul, ha.eval_log_of_not_pos hp, Exact.mul_undefined]
  | base negative c a b =>
    cases hreduct
    refine Expr.eval_negateIf_of_undefined negative ?_
    rw [Exact.signLaws.eval_div, ha.eval_log_of_base_not_pos hp, Exact.undefined_div]

end Rule.MovesExponent

namespace Rule

/-- A logarithm of a power, or to a power, is always rewritten. The tree that the rule builds has the
value of the logarithm where the base of the power is positive, and none elsewhere. The result is
that tree simplified again: where the base is positive it has the value of the logarithm too, if the
steps that follow keep values. -/
theorem value_of_moved_exponent {rule : Rule (Exact tg)} {t a : Expr (Exact tg)} {x v p : ℝ}
    (hmoves : rule.MovesExponent t a) (ht : t.HasValue False x v) (ha : a.HasValue False x p) :
    ∃ reduct r more, rule t = some reduct ∧ rule.run? t = some (r, reduct.step :: more) ∧
      (0 < p → reduct.tree.HasValue False x v) ∧
      (¬0 < p → reduct.tree.eval (.real x) = .undefined) ∧
      ∀ positive : Prop, (∀ step ∈ more, step.Keeps positive) → t.HasValue positive x v →
        0 < p → r.HasValue positive x v := by
  obtain ⟨reduct, hreduct, hrebuilding⟩ := hmoves.exists_reduct
  have hrun : rule.run? t = some ((reduct.tree.simplifyWithSteps .unrounded).1,
      reduct.step :: (reduct.tree.simplifyWithSteps .unrounded).2) := by
    rw [run?, hreduct, Option.map_some, if_pos hrebuilding]
    rfl
  refine ⟨reduct, _, _, hreduct, hrun, fun hp => hmoves.hasValue_reduct hreduct ha hp ht,
    fun hp => hmoves.eval_reduct_of_not_pos hreduct ha hp, ?_⟩
  intro positive hsteps ht hp
  exact reduct.tree.preserved hsteps v (hmoves.hasValue_reduct hreduct ha hp ht)

/-- The logarithm of `x ^ n` to the base `b`. -/
def logOfPower (n b : ℝ) : Expr (Exact tg) :=
  .binary false .logarithm (.binary false .power (.var false) (.num false (.real n)))
    (.num false (.real b))

/-- The product of `n` and the logarithm of `x` to the base `b`. -/
def multipleOfLog (n b : ℝ) : Expr (Exact tg) :=
  .binary false .multiplication (.num false (.real n))
    (.binary false .logarithm (.var false) (.num false (.real b)))

/-- The exponent of a power of the variable becomes a factor of the logarithm. -/
theorem logPowerArgument_logOfPower (n b : ℝ) :
    logPowerArgument (logOfPower n b : Expr (Exact tg)) =
      some ⟨.logPowerArgument, multipleOfLog n b⟩ := rfl

/-- The leaf of a number is no other number. -/
theorem isNumber_num_of_ne {a b : ℝ} (h : a ≠ b) :
    (Expr.num false (.real a) : Expr (Exact tg)).isNumber (.real b) = false :=
  Bool.eq_false_iff.mpr fun hequal => h (Exact.equal_real.mp hequal)

/-- No rule applies to the tree that takes the place of the logarithm. -/
theorem simplifies_multipleOfLog {n b : ℝ} (hn : 1 < n) (hb : 1 < b) :
    Simplifies .unrounded (multipleOfLog n b : Expr (Exact tg)) (multipleOfLog n b) [] := by
  have hnum {a : ℝ} (ha : 1 < a) : Simplifies .unrounded
      (.num false (.real a) : Expr (Exact tg)) (.num false (.real a)) [] :=
    simplifies_iff.mpr (Expr.simplifyWithSteps_num (by linarith))
  have hzero {a : ℝ} (ha : 1 < a) :
      (Expr.num false (.real a) : Expr (Exact tg)).isNumber 0 = false :=
    isNumber_num_of_ne (by linarith)
  have hone {a : ℝ} (ha : 1 < a) :
      (Expr.num false (.real a) : Expr (Exact tg)).isNumber 1 = false :=
    isNumber_num_of_ne ha.ne'
  have hlogRule : Rule.all (.binary false .logarithm (.var false) (.num false (.real b)) :
      Expr (Exact tg)) = none := by
    have hsign : (Expr.num false (.real b) : Expr (Exact tg)).isNegativeConstant = false :=
      Bool.eq_false_iff.mpr fun h => (Exact.isNegative_real.mp h).not_ge (by linarith)
    simp only [all, firstOf, log, logNegative, logBaseZero, logBaseOne, List.findSome?_cons,
      hzero hb, hone hb, hsign]
    rfl
  have hrule : Rule.all (multipleOfLog n b : Expr (Exact tg)) = none := by
    have hminus : (Expr.num false (.real n) : Expr (Exact tg)).isNumber (-1) = false :=
      isNumber_num_of_ne (by linarith)
    simp only [all, firstOf, multiply, multiplyZero, multiplyOne, multiplyMinusOne, multipleOfLog,
      List.findSome?_cons, hzero hn, hone hn, hminus]
    rfl
  have hlog : Simplifies .unrounded
      (.binary false .logarithm (.var false) (.num false (.real b)) : Expr (Exact tg))
      (.binary false .logarithm (.var false) (.num false (.real b))) [] :=
    .binary rfl (.var _ false) (hnum hb) rfl hlogRule
  exact .binary rfl (hnum hn) hlog rfl hrule

/-- The logarithm of a power becomes a multiple of a logarithm, which is not simplified further. -/
theorem run?_logOfPower {n b : ℝ} (hn : 1 < n) (hb : 1 < b) :
    logPowerArgument.run? (logOfPower n b : Expr (Exact tg)) =
      some (multipleOfLog n b, [.logPowerArgument]) := by
  have hsimplified : (simplifyBounded .unrounded (multipleOfLog n b : Expr (Exact tg))).1 =
      (multipleOfLog n b, []) := (simplifies_multipleOfLog hn hb).eq_simplifyWithSteps
  rw [run?, logPowerArgument_logOfPower]
  simp [Step.isRebuilding, hsimplified]

/-- A square that is the base has the logarithm one, whatever the sign of its root. -/
theorem hasValue_logOfSquare {x b : ℝ} (hx : x ^ 2 = b) (hb : 1 < b) :
    (logOfPower 2 b : Expr (Exact tg)).HasValue False x 1 := by
  have hne : x ≠ 0 := by
    rintro rfl
    linarith
  have hpower : x ^ (2 : ℝ) = b := by
    rw [Real.rpow_two, hx]
  have hpos : 0 < b := by linarith
  refine ⟨b, b, ⟨x, 2, rfl, ⟨2, rfl, rfl⟩, .inr ⟨not_false, hne, 2, by norm_num⟩, hpower⟩,
    ⟨b, rfl, rfl⟩, ⟨hpos, hpos, hb.ne'⟩, ?_⟩
  exact div_self (Real.log_pos hb).ne'

/-- The logarithm of `x ^ 2` keeps its value at two. -/
theorem value_of_moved_exponent_square :
    let square : Expr (Exact tangent?) := logOfPower 2 4
    logPowerArgument.MovesExponent square (.var false) ∧ square.HasValue False 2 1 ∧
      (Expr.var false : Expr (Exact tangent?)).HasValue False 2 2 ∧
      logPowerArgument.run? square = some (multipleOfLog 2 4, [.logPowerArgument]) ∧
      (multipleOfLog 2 4 : Expr (Exact tangent?)).HasValue False 2 1 := by
  intro square
  have hmoves : logPowerArgument.MovesExponent square (.var false) := .argument ..
  have hvalue : square.HasValue False 2 1 := hasValue_logOfSquare (by norm_num) (by norm_num)
  have hbase : (Expr.var false : Expr (Exact tangent?)).HasValue False 2 2 := rfl
  have hresult : logPowerArgument.run? square =
      some (multipleOfLog 2 4, [.logPowerArgument]) := run?_logOfPower (by norm_num) (by norm_num)
  obtain ⟨reduct, r, more, -, hrun, -, -, hkept⟩ := value_of_moved_exponent hmoves hvalue hbase
  obtain ⟨hr, hsteps⟩ := Prod.mk.inj (Option.some.inj (hrun.symm.trans hresult))
  obtain ⟨-, rfl⟩ := List.cons.inj hsteps
  exact ⟨hmoves, hvalue, hbase, hresult, hr ▸ hkept False nofun hvalue two_pos⟩

/-- The logarithm of `x ^ 2` has a value at minus two, and what it is rewritten to has none. -/
theorem value_lost_by_moved_exponent :
    let square : Expr (Exact tangent?) := logOfPower 2 4
    square.HasValue False (-2) 1 ∧
      logPowerArgument.run? square = some (multipleOfLog 2 4, [.logPowerArgument]) ∧
      (multipleOfLog 2 4 : Expr (Exact tangent?)).eval (.real (-2)) = .undefined := by
  intro square
  have hmoves : logPowerArgument.MovesExponent square (.var false) := .argument ..
  have hbase : (Expr.var false : Expr (Exact tangent?)).HasValue False (-2) (-2) := rfl
  exact ⟨hasValue_logOfSquare (by norm_num) (by norm_num),
    run?_logOfPower (by norm_num) (by norm_num),
    hmoves.eval_reduct_of_not_pos (logPowerArgument_logOfPower 2 4) hbase (by norm_num)⟩

end Rule

end Univariate
