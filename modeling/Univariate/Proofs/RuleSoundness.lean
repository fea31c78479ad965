import Univariate.Proofs.Values
import Univariate.Simplify.Rule

/-!
# Soundness of the rules

A rule that applies to a tree with a value builds a tree with the same value. One rule is an
exception: a power with exponent zero is taken to be zero. The rules that move an exponent out of a
logarithm need positive bases.
-/

namespace Univariate

variable {tg : ℝ → Option ℝ} {positive : Prop} {x a b c : ℝ}

/-- A step keeps values if it is not the one for the exponent zero, and if bases are positive when it
moves an exponent out of a logarithm. -/
structure Step.Keeps (positive : Prop) (s : Step) : Prop where
  ne_powerZero : s ≠ .powerZero
  positive_of_logPower : s = .logPowerArgument ∨ s = .logPowerBase → positive

namespace Expr

variable {s t : Expr (Exact tg)}

/-- A tree that is a negative constant has a value below zero. -/
theorem HasValue.lt_zero_of_isNegativeConstant (h : t.HasValue positive x c)
    (ht : t.isNegativeConstant = true) : c < 0 := by
  cases hconstant : t.isConstant with
  | false => simp [isNegativeConstant, constant?_eq_none hconstant] at ht
  | true =>
    rw [isNegativeConstant, h.constant?_eq hconstant] at ht
    exact Exact.isNegative_real.mp ht

/-- The value of a constant tree is its constant. -/
theorem HasValue.eq_of_constant? (h : t.HasValue positive x c) {m : Exact tg}
    (ht : t.constant? = some m) : m = .real c := by
  cases hconstant : t.isConstant with
  | false =>
    rw [constant?_eq_none hconstant] at ht
    cases ht
  | true =>
    rw [h.constant?_eq hconstant] at ht
    exact (Option.some.inj ht).symm

/-- Equal trees have the same value. -/
theorem HasValue.eq_of_equal (hs : s.HasValue positive x a) (ht : t.HasValue positive x b)
    (h : s.equal t = true) : a = b := by
  induction equal_iff.mp h generalizing a b with
  | constant hm hn hequal =>
    rw [hs.eq_of_constant? hm, ht.eq_of_constant? hn] at hequal
    exact Exact.equal_real.mp hequal
  | var negative => exact hs.symm.trans ht
  | unary _ _ hst ih =>
    obtain ⟨a, b, ha, hb, rfl⟩ := hs
    obtain ⟨a', b', ha', hb', rfl⟩ := ht
    rw [ih ha ha' (equal_iff.mpr hst), hb'] at hb
    rw [Option.some.inj hb]
  | binary _ _ hl hr ihl ihr =>
    obtain ⟨a, b, ha, hb, -, rfl⟩ := hs
    obtain ⟨a', b', ha', hb', -, rfl⟩ := ht
    rw [ihl ha ha' (equal_iff.mpr hl), ihr hb hb' (equal_iff.mpr hr)]

/-- A factor is moved into a logarithm as the exponent of a positive argument. -/
theorem HasValue.mul_log {e u : Expr (Exact tg)} {n : ℝ} (he : e.HasValue positive x n)
    (hs : s.HasValue positive x a) (hu : u.HasValue positive x b) (ha : 0 < a)
    (hlog : BinaryOp.logarithm.Domain positive (a ^ n) b) :
    (e * s.log u).HasValue positive x (BinaryOp.logarithm.real (a ^ n) b) := by
  obtain ⟨-, hbpos, hbone⟩ := hlog
  refine (he.mul (hs.log hu ha hbpos hbone)).congr ?_
  rw [BinaryOp.real, Real.log_rpow ha, mul_div_assoc]

/-- A divisor is moved into a logarithm as the exponent of a positive base. -/
theorem HasValue.log_div {e u : Expr (Exact tg)} {n : ℝ} (hu : u.HasValue positive x b)
    (hs : s.HasValue positive x a) (he : e.HasValue positive x n) (ha : 0 < a)
    (hlog : BinaryOp.logarithm.Domain positive b (a ^ n)) :
    (u.log s / e).HasValue positive x (BinaryOp.logarithm.real b (a ^ n)) := by
  obtain ⟨hbpos, -, hpone⟩ := hlog
  have haone : a ≠ 1 := by
    rintro rfl
    exact hpone (Real.one_rpow n)
  have hne : n ≠ 0 := by
    rintro rfl
    exact hpone (Real.rpow_zero a)
  refine ((hu.log hs hbpos ha haone).div he hne).congr ?_
  rw [BinaryOp.real, Real.log_rpow ha, div_div, mul_comm n]

end Expr

namespace Rule

/-- Every tree that the rule builds by a step that keeps values has the value of the one that it
replaces. -/
def Sound (positive : Prop) (x : ℝ) (rule : Rule (Exact tg)) : Prop :=
  ∀ t r, rule t = some r → r.step.Keeps positive →
    ∀ c, t.HasValue positive x c → r.tree.HasValue positive x c

/-- Rules that are tried in turn are sound if each of them is. -/
theorem sound_firstOf {rules : List (Rule (Exact tg))} (h : ∀ rule ∈ rules, Sound positive x rule) :
    Sound positive x (firstOf rules) := by
  intro t r hr
  obtain ⟨rule, hmem, hrule⟩ := List.exists_of_findSome?_eq_some hr
  exact h rule hmem t r hrule

/-- Leaving out a zero operand of a sum or a difference keeps the value. -/
theorem addZero_sound : Sound positive x (addZero (α := Exact tg)) := by
  intro t r h hstep c hc
  unfold addZero at h
  split at h
  · obtain ⟨a, b, ha, hb, -, rfl⟩ := hc
    split at h
    · next hzero =>
      cases h
      refine (hb.negateIf _).congr ?_
      rw [ha.eq_of_isNumber (a := 0) hzero, BinaryOp.real, zero_add]
    · split at h
      · next hzero =>
        cases h
        refine (ha.negateIf _).congr ?_
        rw [hb.eq_of_isNumber (a := 0) hzero, BinaryOp.real, add_zero]
      · cases h
  · obtain ⟨a, b, ha, hb, -, rfl⟩ := hc
    split at h
    · next hzero =>
      cases h
      refine (ha.negateIf _).congr ?_
      rw [hb.eq_of_isNumber (a := 0) hzero, BinaryOp.real, sub_zero]
    · cases h
  · cases h

/-- The negated subtrahend has the value of its difference from zero. -/
theorem subtractFromZero_sound : Sound positive x (subtractFromZero (α := Exact tg)) := by
  intro t r h hstep c hc
  unfold subtractFromZero at h
  split at h
  · obtain ⟨a, b, ha, hb, -, rfl⟩ := hc
    split at h
    · next hzero =>
      cases h
      refine (hb.neg.negateIf _).congr ?_
      rw [ha.eq_of_isNumber (a := 0) hzero, BinaryOp.real, zero_sub]
    · cases h
  · cases h

/-- A product with a zero operand has the value zero. -/
theorem multiplyZero_sound : Sound positive x (multiplyZero (α := Exact tg)) := by
  intro t r h hstep c hc
  unfold multiplyZero at h
  split at h
  · next negative l r =>
    obtain ⟨a, b, ha, hb, -, rfl⟩ := hc
    split at h
    · next hzero =>
      cases h
      refine (Expr.hasValue_ofNumber 0).congr ?_
      have hproduct : a * b = 0 := by
        rcases (Bool.or_eq_true _ _).mp hzero with hzero | hzero
        · rw [ha.eq_of_isNumber (a := 0) hzero, zero_mul]
        · rw [hb.eq_of_isNumber (a := 0) hzero, mul_zero]
      rw [BinaryOp.real, hproduct]
      cases negative <;> simp [negateNumberIf]
    · cases h
  · cases h

/-- Leaving out an operand one of a product keeps the value. -/
theorem multiplyOne_sound : Sound positive x (multiplyOne (α := Exact tg)) := by
  intro t r h hstep c hc
  unfold multiplyOne at h
  split at h
  · obtain ⟨a, b, ha, hb, -, rfl⟩ := hc
    split at h
    · next hone =>
      cases h
      refine (hb.negateIf _).congr ?_
      rw [ha.eq_of_isNumber (a := 1) hone, BinaryOp.real, one_mul]
    · split at h
      · next hone =>
        cases h
        refine (ha.negateIf _).congr ?_
        rw [hb.eq_of_isNumber (a := 1) hone, BinaryOp.real, mul_one]
      · cases h
  · cases h

/-- The negated operand has the value of its product with minus one. -/
theorem multiplyMinusOne_sound : Sound positive x (multiplyMinusOne (α := Exact tg)) := by
  intro t r h hstep c hc
  unfold multiplyMinusOne at h
  split at h
  · obtain ⟨a, b, ha, hb, -, rfl⟩ := hc
    split at h
    · next hone =>
      cases h
      refine (hb.neg.negateIf _).congr ?_
      rw [ha.eq_of_isNumber (a := -1) hone, BinaryOp.real, neg_one_mul]
    · split at h
      · next hone =>
        cases h
        refine (ha.neg.negateIf _).congr ?_
        rw [hb.eq_of_isNumber (a := -1) hone, BinaryOp.real, mul_neg_one]
      · cases h
  · cases h

/-- A quotient by zero has no value that could be lost. -/
theorem divideByZero_sound : Sound positive x (divideByZero (α := Exact tg)) := by
  intro t r h hstep c hc
  unfold divideByZero at h
  split at h
  · obtain ⟨a, b, ha, hb, hdomain, rfl⟩ := hc
    split at h
    · next hzero => exact absurd (hb.eq_of_isNumber (a := 0) hzero) hdomain
    · cases h
  · cases h

/-- A quotient of zero has the value zero. -/
theorem divideZero_sound : Sound positive x (divideZero (α := Exact tg)) := by
  intro t r h hstep c hc
  unfold divideZero at h
  split at h
  · next negative l r =>
    obtain ⟨a, b, ha, hb, hdomain, rfl⟩ := hc
    split at h
    · next hzero =>
      cases h
      refine (Expr.hasValue_ofNumber 0).congr ?_
      rw [ha.eq_of_isNumber (a := 0) hzero, BinaryOp.real, zero_div]
      cases negative <;> simp [negateNumberIf]
    · cases h
  · cases h

/-- A quotient of equal trees has the value one. -/
theorem divideSelf_sound : Sound positive x (divideSelf (α := Exact tg)) := by
  intro t r h hstep c hc
  unfold divideSelf at h
  split at h
  · obtain ⟨a, b, ha, hb, hdomain, rfl⟩ := hc
    split at h
    · next hequal =>
      cases h
      refine ((Expr.hasValue_ofNumber 1).negateIf _).congr ?_
      rw [ha.eq_of_equal hb hequal, BinaryOp.real, div_self hdomain]
    · cases h
  · cases h

/-- Leaving out a divisor one keeps the value. -/
theorem divideOne_sound : Sound positive x (divideOne (α := Exact tg)) := by
  intro t r h hstep c hc
  unfold divideOne at h
  split at h
  · obtain ⟨a, b, ha, hb, hdomain, rfl⟩ := hc
    split at h
    · next hone =>
      cases h
      refine (ha.negateIf _).congr ?_
      rw [hb.eq_of_isNumber (a := 1) hone, BinaryOp.real, div_one]
    · cases h
  · cases h

/-- The negated dividend has the value of its quotient by minus one. -/
theorem divideMinusOne_sound : Sound positive x (divideMinusOne (α := Exact tg)) := by
  intro t r h hstep c hc
  unfold divideMinusOne at h
  split at h
  · obtain ⟨a, b, ha, hb, hdomain, rfl⟩ := hc
    split at h
    · next hone =>
      cases h
      refine (ha.neg.negateIf _).congr ?_
      rw [hb.eq_of_isNumber (a := -1) hone, BinaryOp.real, div_neg, div_one]
    · cases h
  · cases h

/-- The sign of a quotient is the combined sign of its operands. -/
theorem divideHoistSign_sound : Sound positive x (divideHoistSign (α := Exact tg)) := by
  intro t r h hstep c hc
  unfold divideHoistSign at h
  split at h
  · next negative l r =>
    obtain ⟨a, b, ha, hb, hdomain, rfl⟩ := hc
    split at h
    · cases h
      rw [← Expr.negateIf_div]
      exact (ha.div hb hdomain).negateIf negative
    · cases h
  · cases h

/-- A base with a power is not zero. -/
theorem base_ne_zero (h : BinaryOp.power.Domain positive a b) : a ≠ 0 := by
  obtain hpos | ⟨-, hne, -⟩ := h
  · exact hpos.ne'
  · exact hne

/-- No power of zero is in its domain. -/
theorem powerZeroLeft_sound : Sound positive x (powerZeroLeft (α := Exact tg)) := by
  intro t r h hstep c hc
  unfold powerZeroLeft at h
  split at h
  · obtain ⟨a, b, ha, hb, hdomain, rfl⟩ := hc
    split at h
    · next hzero => exact absurd (ha.eq_of_isNumber (a := 0) hzero) (base_ne_zero hdomain)
    · cases h
  · cases h

/-- A power of one has the value one. -/
theorem powerOneLeft_sound : Sound positive x (powerOneLeft (α := Exact tg)) := by
  intro t r h hstep c hc
  unfold powerOneLeft at h
  split at h
  · obtain ⟨a, b, ha, hb, hdomain, rfl⟩ := hc
    split at h
    · next hone =>
      cases h
      refine ((Expr.hasValue_ofNumber 1).negateIf _).congr ?_
      rw [ha.eq_of_isNumber (a := 1) hone, BinaryOp.real, Real.one_rpow]
    · cases h
  · cases h

/-- The rule for the exponent zero is the one that does not keep values. -/
theorem powerZero_sound : Sound positive x (powerZero (α := Exact tg)) := by
  intro t r h hstep c hc
  unfold powerZero at h
  split at h
  · split at h
    · cases h
      exact absurd rfl hstep.ne_powerZero
    · cases h
  · cases h

/-- Leaving out an exponent one keeps the value. -/
theorem powerOne_sound : Sound positive x (powerOne (α := Exact tg)) := by
  intro t r h hstep c hc
  unfold powerOne at h
  split at h
  · obtain ⟨a, b, ha, hb, hdomain, rfl⟩ := hc
    split at h
    · next hone =>
      cases h
      refine (ha.negateIf _).congr ?_
      rw [hb.eq_of_isNumber (a := 1) hone, BinaryOp.real, Real.rpow_one]
    · cases h
  · cases h

/-- The inverse of the base has the value of its power with exponent minus one. -/
theorem powerMinusOne_sound : Sound positive x (powerMinusOne (α := Exact tg)) := by
  intro t r h hstep c hc
  unfold powerMinusOne at h
  split at h
  · obtain ⟨a, b, ha, hb, hdomain, rfl⟩ := hc
    split at h
    · next hone =>
      cases h
      have hinverse := (Expr.hasValue_ofNumber 1).div ha (base_ne_zero hdomain)
      refine (hinverse.negateIf _).congr ?_
      rw [hb.eq_of_isNumber (a := -1) hone, BinaryOp.real, Real.rpow_neg_one, one_div]
    · cases h
  · cases h

/-- A logarithm with a negative argument or base has no value that could be lost. -/
theorem logNegative_sound : Sound positive x (logNegative (α := Exact tg)) := by
  intro t r h hstep c hc
  unfold logNegative at h
  split at h
  · obtain ⟨a, b, ha, hb, ⟨hapos, hbpos, -⟩, rfl⟩ := hc
    split at h
    · next hnegative =>
      rcases (Bool.or_eq_true _ _).mp hnegative with hnegative | hnegative
      · exact absurd (ha.lt_zero_of_isNegativeConstant hnegative) hapos.not_gt
      · exact absurd (hb.lt_zero_of_isNegativeConstant hnegative) hbpos.not_gt
    · cases h
  · cases h

/-- A logarithm to the base zero has no value that could be lost. -/
theorem logBaseZero_sound : Sound positive x (logBaseZero (α := Exact tg)) := by
  intro t r h hstep c hc
  unfold logBaseZero at h
  split at h
  · obtain ⟨a, b, ha, hb, ⟨-, hbpos, -⟩, rfl⟩ := hc
    split at h
    · next hzero => exact absurd (hb.eq_of_isNumber (a := 0) hzero) hbpos.ne'
    · cases h
  · cases h

/-- A logarithm to the base one has no value that could be lost. -/
theorem logBaseOne_sound : Sound positive x (logBaseOne (α := Exact tg)) := by
  intro t r h hstep c hc
  unfold logBaseOne at h
  split at h
  · obtain ⟨a, b, ha, hb, ⟨-, -, hbone⟩, rfl⟩ := hc
    split at h
    · next hone => exact absurd (hb.eq_of_isNumber (a := 1) hone) hbone
    · cases h
  · cases h

/-- The logarithm of the base has the value one. -/
theorem logSelf_sound : Sound positive x (logSelf (α := Exact tg)) := by
  intro t r h hstep c hc
  unfold logSelf at h
  split at h
  · obtain ⟨a, b, ha, hb, ⟨-, hbpos, hbone⟩, rfl⟩ := hc
    split at h
    · next hequal =>
      cases h
      refine ((Expr.hasValue_ofNumber 1).negateIf _).congr ?_
      rw [ha.eq_of_equal hb hequal, BinaryOp.real,
        div_self (Real.log_ne_zero_of_pos_of_ne_one hbpos hbone)]
    · cases h
  · cases h

/-- Where bases must be positive, a base with a power is positive. -/
theorem base_pos (hpositive : positive) (h : BinaryOp.power.Domain positive a b) : 0 < a := by
  obtain hpos | ⟨hnot, -⟩ := h
  · exact hpos
  · exact absurd hpositive hnot

/-- The exponent of an argument is a factor of the logarithm, because the base is positive. -/
theorem logPowerArgument_sound : Sound positive x (logPowerArgument (α := Exact tg)) := by
  intro t r h hstep c hc
  unfold logPowerArgument at h
  split at h
  · next negative s e base =>
    cases h
    obtain ⟨p, b, hpower, hb, hlog, rfl⟩ := hc
    obtain ⟨a, n, ha, hn, hdomain, rfl⟩ := hpower
    have hapos := base_pos (hstep.positive_of_logPower (.inl rfl)) hdomain
    exact (hn.mul_log ha hb hapos hlog).negateIf negative
  · cases h

/-- The exponent of a base is a divisor of the logarithm, because the base of the power is
positive. -/
theorem logPowerBase_sound : Sound positive x (logPowerBase (α := Exact tg)) := by
  intro t r h hstep c hc
  unfold logPowerBase at h
  split at h
  · next negative l s e =>
    cases h
    obtain ⟨b, p, hb, hpower, hlog, rfl⟩ := hc
    obtain ⟨a, n, ha, hn, hdomain, rfl⟩ := hpower
    have hapos := base_pos (hstep.positive_of_logPower (.inr rfl)) hdomain
    exact (hb.log_div ha hn hapos hlog).negateIf negative
  · cases h

/-- A root is in its domain exactly if the power is. -/
theorem rootAsPower_sound : Sound positive x (rootAsPower (α := Exact tg)) := by
  intro t r h hstep c hc
  unfold rootAsPower at h
  split at h
  · next negative l r =>
    cases h
    obtain ⟨a, b, ha, hb, ⟨hne, hdomain⟩, rfl⟩ := hc
    exact (ha.pow ((Expr.hasValue_ofNumber 1).div hb hne) hdomain).negateIf negative
  · cases h

/-- The rules for sums and differences keep values. -/
theorem add_sound : Sound positive x (add (α := Exact tg)) :=
  sound_firstOf (by
    simp only [List.forall_mem_cons]
    exact ⟨addZero_sound, subtractFromZero_sound, by simp⟩)

/-- The rules for products keep values. -/
theorem multiply_sound : Sound positive x (multiply (α := Exact tg)) :=
  sound_firstOf (by
    simp only [List.forall_mem_cons]
    exact ⟨multiplyZero_sound, multiplyOne_sound, multiplyMinusOne_sound, by simp⟩)

/-- The rules for quotients keep values. -/
theorem divide_sound : Sound positive x (divide (α := Exact tg)) :=
  sound_firstOf (by
    simp only [List.forall_mem_cons]
    exact ⟨divideByZero_sound, divideZero_sound, divideSelf_sound, divideOne_sound,
      divideMinusOne_sound, divideHoistSign_sound, by simp⟩)

/-- The rules for powers of anything but zero keep values, but for the exponent zero. -/
theorem powerOfNonzero_sound : Sound positive x (powerOfNonzero (α := Exact tg)) :=
  sound_firstOf (by
    simp only [List.forall_mem_cons]
    exact ⟨powerOneLeft_sound, powerZero_sound, powerOne_sound, powerMinusOne_sound, by simp⟩)

/-- The rules for powers keep values, but for the exponent zero. -/
theorem power_sound : Sound positive x (power (α := Exact tg)) := by
  intro t r h
  unfold power at h
  split at h
  · exact powerZeroLeft_sound t r h
  · exact powerOfNonzero_sound t r h

/-- The rules for logarithms keep values where the bases of powers are positive. -/
theorem log_sound : Sound positive x (log (α := Exact tg)) :=
  sound_firstOf (by
    simp only [List.forall_mem_cons]
    exact ⟨logNegative_sound, logBaseZero_sound, logBaseOne_sound, logSelf_sound,
      logPowerArgument_sound, logPowerBase_sound, by simp⟩)

/-- Every rule keeps values when its step does. -/
theorem all_sound : Sound positive x (all (α := Exact tg)) :=
  sound_firstOf (by
    simp only [List.forall_mem_cons]
    exact ⟨add_sound, multiply_sound, divide_sound, power_sound, log_sound, rootAsPower_sound,
      by simp⟩)

end Rule

end Univariate
