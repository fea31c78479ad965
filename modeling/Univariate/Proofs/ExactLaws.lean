import Univariate.Proofs.Exact
import Univariate.Proofs.NumberLaws

/-!
# The laws of numbers on exact numbers

Exact numbers obey the laws of comparison and of signs, and rounding them to any precision is
idempotent and odd.
-/

namespace Univariate

/-- A number below the middle of two whole ones is rounded down. -/
theorem roundEven_of_lt {a : ℝ} (ha : Int.fract a < 1 / 2) : roundEven a = ⌊a⌋ :=
  if_pos (.inl ha)

/-- A number above the middle of two whole ones is rounded up. -/
theorem roundEven_of_gt {a : ℝ} (ha : 1 / 2 < Int.fract a) : roundEven a = ⌊a⌋ + 1 := by
  refine if_neg ?_
  rintro (h | ⟨h, -⟩)
  · exact ha.not_gt h
  · exact ha.ne' h

/-- A number in the middle of two whole ones is rounded to the even one. -/
theorem roundEven_of_tie {a : ℝ} (ha : Int.fract a = 1 / 2) :
    roundEven a = if Even ⌊a⌋ then ⌊a⌋ else ⌊a⌋ + 1 := by
  simp only [roundEven, ha, lt_irrefl, false_or, true_and]

/-- A whole number is rounded to itself. -/
theorem roundEven_intCast (n : ℤ) : roundEven n = n := by
  rw [roundEven_of_lt (by rw [Int.fract_intCast]; norm_num), Int.floor_intCast]

/-- Negation swaps the distances of a number to its whole neighbours. -/
theorem floor_neg_of_fract_ne_zero {a : ℝ} (ha : Int.fract a ≠ 0) : ⌊-a⌋ = -⌊a⌋ - 1 := by
  have hfloor : (⌊-a⌋ : ℝ) = -⌊a⌋ - 1 := by
    have hneg := Int.self_sub_fract (-a)
    have hself := Int.self_sub_fract a
    rw [Int.fract_neg ha] at hneg
    linarith
  exact_mod_cast hfloor

/-- Rounding is odd: a tie is broken by the parity of the neighbours, not by their order. -/
theorem roundEven_neg (a : ℝ) : roundEven (-a) = -roundEven a := by
  by_cases hwhole : Int.fract a = 0
  · obtain ⟨n, rfl⟩ : ∃ n : ℤ, (n : ℝ) = a := Int.fract_eq_zero_iff.mp hwhole
    rw [← Int.cast_neg, roundEven_intCast, roundEven_intCast]
  · have hfloor := floor_neg_of_fract_ne_zero hwhole
    have hfract := Int.fract_neg hwhole
    rcases lt_trichotomy (Int.fract a) (1 / 2) with hlt | htie | hgt
    · rw [roundEven_of_lt hlt, roundEven_of_gt (by linarith), hfloor]
      omega
    · have hparity : Even ⌊-a⌋ ↔ ¬Even ⌊a⌋ := by
        rw [hfloor, Int.even_sub_one, even_neg]
      rw [roundEven_of_tie htie, roundEven_of_tie (by linarith)]
      by_cases heven : Even ⌊a⌋
      · rw [if_pos heven, if_neg (not_not_intro heven ∘ hparity.mp), hfloor]
        omega
      · rw [if_neg heven, if_pos (hparity.mpr heven), hfloor]
        omega
    · rw [roundEven_of_gt hgt, roundEven_of_lt (by linarith), hfloor]
      omega

namespace Exact

variable {tg : ℝ → Option ℝ}

/-- Exact numbers are equal exactly if they are the same real number. -/
theorem equal_iff {m n : Exact tg} :
    Scalar.equal m n = true ↔ ∃ a, m = real a ∧ n = real a := by
  cases m with
  | undefined => exact ⟨fun h => Bool.noConfusion h, fun ⟨a, h, _⟩ => nomatch h⟩
  | real a =>
    cases n with
    | undefined => exact ⟨fun h => Bool.noConfusion h, fun ⟨a, _, h⟩ => nomatch h⟩
    | real b =>
      rw [equal_real]
      constructor
      · rintro rfl
        exact ⟨a, rfl, rfl⟩
      · rintro ⟨c, ha, hb⟩
        rw [real.inj ha, real.inj hb]

instance : LawfulComparison (Exact tg) where
  equal_symm h := by
    obtain ⟨a, ha, hb⟩ := equal_iff.mp h
    exact equal_iff.mpr ⟨a, hb, ha⟩
  equal_trans hab hbc := by
    obtain ⟨a, ha, hb⟩ := equal_iff.mp hab
    obtain ⟨b, hb', hc⟩ := equal_iff.mp hbc
    cases hb.symm.trans hb'
    exact equal_iff.mpr ⟨a, ha, hc⟩
  zero_ne_one := Bool.eq_false_iff.mpr fun h => zero_ne_one (equal_real.mp h)

instance : LawfulSign (Exact tg) where
  neg_neg
    | undefined => rfl
    | real a => by rw [neg_real, neg_real, neg_neg]
  abs_neg
    | undefined => rfl
    | real a => by rw [neg_real, abs_real, abs_real, abs_neg]
  abs_eq
    | undefined => .inl rfl
    | real a => by
      rw [abs_real, neg_real]
      exact (abs_choice a).imp (congrArg real) (congrArg real)
  isNegative_congr h := by
    obtain ⟨a, rfl, rfl⟩ := equal_iff.mp h
    rfl
  equal_neg h := by
    obtain ⟨a, rfl, rfl⟩ := equal_iff.mp h
    exact equal_real.mpr rfl
  equal_abs h := by
    obtain ⟨a, rfl, rfl⟩ := equal_iff.mp h
    exact equal_real.mpr rfl
  abs_euler := congrArg real (abs_of_pos (Real.exp_pos 1))
  abs_pi := congrArg real (abs_of_pos Real.pi_pos)

/-- Rounding exact numbers is stable for every digit count. -/
theorem isStable (d : Decimals) : d.IsStable (Exact tg) where
  round_round a := by
    cases d with
    | unrounded => rfl
    | digits n =>
      cases a with
      | undefined => rfl
      | real a =>
        have hscale : (10 : ℝ) ^ n ≠ 0 := by positivity
        show real (roundEven (roundEven (a * 10 ^ n) / 10 ^ n * 10 ^ n) / 10 ^ n) =
          real (roundEven (a * 10 ^ n) / 10 ^ n)
        rw [div_mul_cancel₀ _ hscale, roundEven_intCast]
  round_neg a := by
    cases d with
    | unrounded => rfl
    | digits n =>
      cases a with
      | undefined => rfl
      | real a =>
        show real (roundEven (-a * 10 ^ n) / 10 ^ n) = real (-(roundEven (a * 10 ^ n) / 10 ^ n))
        rw [neg_mul, roundEven_neg, Int.cast_neg, neg_div]

end Exact

end Univariate
