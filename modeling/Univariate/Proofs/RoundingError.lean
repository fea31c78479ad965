import Univariate.Proofs.DoubleRounding

/-!
# The error of a rounding

A double in the normal range is a rational, and a product or a quotient of two such doubles differs
from the exact one by a small part of it. From 17 digits on, rounding a constant only scales it by a
power of ten and back, which leaves it almost where it was. Euler's number and `π` are too far apart
to be rounded to the same double then; for fewer digits both are computed, and they agree at zero
digits only.
-/

namespace Univariate.Double

open Float.Model Float.Model.UnpackedFloat

/-- A number differs from `a` by at most the part `ε` of it. -/
def IsNear (ε a v : ℚ) : Prop := |v - a| ≤ a * ε

section IsNear

variable {a v w δ ε : ℚ}

/-- A number is near another if it lies between the two bounds. -/
theorem isNear_iff : IsNear ε a v ↔ a * (1 - ε) ≤ v ∧ v ≤ a * (1 + ε) := by
  rw [IsNear, abs_le]
  constructor <;> rintro ⟨hlow, hhigh⟩ <;> constructor <;> linarith

/-- A number that is near another is so for a larger part of it. -/
theorem IsNear.mono (h : IsNear δ a v) (ha : 0 ≤ a) (hδ : δ ≤ ε) : IsNear ε a v :=
  le_trans h (by gcongr)

/-- Scaling two numbers that are near each other keeps them so. -/
theorem IsNear.mul_right {s : ℚ} (h : IsNear ε a v) (hs : 0 ≤ s) : IsNear ε (a * s) (v * s) := by
  rw [isNear_iff] at h ⊢
  constructor
  · calc a * s * (1 - ε) = a * (1 - ε) * s := by ring
      _ ≤ v * s := by gcongr; exact h.1
  · calc v * s ≤ a * (1 + ε) * s := by gcongr; exact h.2
      _ = a * s * (1 + ε) := by ring

/-- The errors of two steps add up, and the second one also applies to the first. -/
theorem IsNear.trans (hw : IsNear δ a w) (hv : IsNear ε w v) (hε : 0 ≤ ε) :
    IsNear (δ + ε + δ * ε) a v := by
  have hw' := (isNear_iff.mp hw).2
  calc |v - a| = |v - w + (w - a)| := by ring_nf
    _ ≤ |v - w| + |w - a| := abs_add_le _ _
    _ ≤ w * ε + a * δ := add_le_add hv hw
    _ ≤ a * (1 + δ) * ε + a * δ := by gcongr
    _ = a * (δ + ε + δ * ε) := by ring

end IsNear

variable {v w a b c : ℚ} {u : UnpackedFloat} {x y : Float} {m n q r : Nat} {e f k : Int}

/-- `v` is the value of an unpacked double, which is a positive normal number. -/
def IsValueOf (v : ℚ) (u : UnpackedFloat) : Prop :=
  ∃ m e hpos, u = .finite .positive m e hpos ∧ m.log2 = 52 ∧ -1074 ≤ e ∧ v = m * 2 ^ e

/-- The part of a normal number that one unit in its last place is, at most. -/
def lastPlace : ℚ := 1 / 2 ^ 52

/-- A mantissa of 53 bits lies between two powers of two. -/
theorem mantissa_bounds (hm : m.log2 = 52) : (2 : ℚ) ^ 52 ≤ m ∧ (m : ℚ) < 2 ^ 53 := by
  have hne : m ≠ 0 := by
    rintro rfl
    simp at hm
  obtain ⟨hlow, hhigh⟩ := (Nat.log2_eq_iff hne).mp hm
  exact ⟨by exact_mod_cast hlow, by exact_mod_cast hhigh⟩

/-- The magnitude of a double has the value of the double. -/
theorem IsValueOf.abs (h : IsValueOf v u) : IsValueOf v u.abs := by
  obtain ⟨m, e, hpos, rfl, hvalue⟩ := h
  exact ⟨m, e, hpos, rfl, hvalue⟩

/-- Doubles that compare equal have the same value. -/
theorem IsValueOf.eq_of_equal (hv : IsValueOf v x.toModel.unpack)
    (hw : IsValueOf w y.toModel.unpack) (h : Scalar.equal x y = true) : v = w := by
  obtain ⟨m, e, hpos, hx, -, -, rfl⟩ := hv
  obtain ⟨m', e', hpos', hy, -, -, rfl⟩ := hw
  rw [equal_iff, hx, hy] at h
  rcases h with ⟨h, -⟩ | ⟨s, -, h, -⟩
  · cases h
    rfl
  · cases h

/-- A finite double with a lower bound has a value from the bound on. -/
theorem AtLeast.exists_value (h : AtLeast k u)
    (hfinite : u.isFinite = true) (hnormal : -1022 ≤ k) : ∃ v, IsValueOf v u ∧ 2 ^ k ≤ v := by
  cases u with
  | notANumber | zero => exact h.elim
  | infinity s => cases hfinite
  | finite s m e hpos =>
    obtain ⟨rfl, hm, hk⟩ := h
    refine ⟨_, ⟨m, e, hpos, rfl, hm, by omega, rfl⟩, ?_⟩
    calc (2 : ℚ) ^ k ≤ 2 ^ ((52 : Nat) + e) := zpow_le_zpow_right₀ one_le_two (by omega)
      _ = 2 ^ 52 * 2 ^ e := by rw [zpow_add₀ two_ne_zero, zpow_natCast]
      _ ≤ m * 2 ^ e := by gcongr; exact (mantissa_bounds hm).1

/-- Shifting a mantissa to 53 bits moves it by at most one in the last place that is kept. -/
theorem isNear_shifted (hbits : 52 ≤ m.log2) (hlow : m / 2 ^ (m.log2 - 52) ≤ q)
    (hhigh : q ≤ m / 2 ^ (m.log2 - 52) + 1) : IsNear lastPlace m (q * 2 ^ (m.log2 - 52)) := by
  have hne : m ≠ 0 := by
    rintro rfl
    simp at hbits
  have hfirst := Nat.log2_self_le hne
  have hsplit : 2 ^ m.log2 = 2 ^ 52 * 2 ^ (m.log2 - 52) := by
    rw [← Nat.pow_add]
    congr 1
    omega
  rw [hsplit] at hfirst
  generalize m.log2 - 52 = s at *
  have hbelow : m < q * 2 ^ s + 2 ^ s := by
    have hfloor := Nat.mul_le_mul_right (2 ^ s) hlow
    have hrest := Nat.lt_div_mul_add (a := m) (Nat.two_pow_pos s)
    omega
  have habove : q * 2 ^ s ≤ m + 2 ^ s := by
    have hceil := Nat.mul_le_mul_right (2 ^ s) hhigh
    have hrest := Nat.div_mul_le_self m (2 ^ s)
    rw [Nat.add_mul, Nat.one_mul] at hceil
    omega
  have hbelow : (m : ℚ) < q * 2 ^ s + 2 ^ s := by exact_mod_cast hbelow
  have habove : (q : ℚ) * 2 ^ s ≤ m + 2 ^ s := by exact_mod_cast habove
  have hfirst : (2 : ℚ) ^ 52 * 2 ^ s ≤ m := by exact_mod_cast hfirst
  rw [isNear_iff, lastPlace]
  constructor <;> linarith

/-- A mantissa of at least 53 bits is rounded to a value that is at most one unit in the last place
away. -/
theorem exists_value_roundWithAccuracy (accuracy : Accuracy) (hbits : 52 ≤ m.log2)
    (hnormal : -1022 ≤ m.log2 + e) :
    ∃ v, IsValueOf v (roundWithAccuracy Format.binary64 .positive m e accuracy) ∧
      IsNear lastPlace (m * 2 ^ e) v := by
  obtain ⟨q, carry, hpos, hround, hq, hlow, hhigh⟩ :=
    exists_roundWithAccuracy accuracy hbits hnormal
  rw [hround]
  refine ⟨_, ⟨q, _, hpos, rfl, hq, by omega, rfl⟩, ?_⟩
  have hvalue : (q : ℚ) * 2 ^ (e + (m.log2 - 52 : Nat) + carry) =
      (q * 2 ^ carry : Nat) * 2 ^ (m.log2 - 52) * 2 ^ e := by
    rw [zpow_add₀ two_ne_zero, zpow_add₀ two_ne_zero, zpow_natCast, zpow_natCast]
    push_cast
    ring
  rw [hvalue]
  exact (isNear_shifted hbits hlow hhigh).mul_right (by positivity)

/-- Packing keeps a value that leaves the double finite. -/
theorem IsValueOf.pack (h : IsValueOf v u)
    (hfinite : (Float.Model.pack u).unpack.isFinite = true) :
    IsValueOf v (Float.Model.pack u).unpack := by
  obtain ⟨m, e, hpos, rfl, hm, he, rfl⟩ := h
  rw [unpack_pack_normal hpos hm he] at hfinite ⊢
  split at hfinite
  · next hfits =>
    rw [if_pos hfits]
    exact ⟨m, e, hpos, rfl, hm, he, rfl⟩
  · cases hfinite

/-- A value in the range of doubles leaves the double finite. -/
theorem IsValueOf.isFinite_pack (h : IsValueOf v u)
    (hv : v < 2 ^ (1023 : Int)) : (Float.Model.pack u).unpack.isFinite = true := by
  obtain ⟨m, e, hpos, rfl, hm, he, rfl⟩ := h
  have hbelow : (2 : ℚ) ^ (52 + e) < 2 ^ (1023 : Int) := by
    refine lt_of_le_of_lt ?_ hv
    rw [zpow_add₀ two_ne_zero]
    gcongr
    exact_mod_cast (mantissa_bounds hm).1
  have hfits := (zpow_lt_zpow_iff_right₀ one_lt_two).mp hbelow
  rw [unpack_pack_normal hpos hm he, if_pos (by omega)]
  rfl

/-- The exponent of a number is from `k` on if the number is from `2 ^ k` on. -/
theorem le_log2_add (h : (2 : ℚ) ^ k ≤ m * 2 ^ e) : k ≤ m.log2 + e := by
  have hmantissa : (m : ℚ) < 2 ^ (m.log2 + 1) := by exact_mod_cast Nat.lt_log2_self
  have hbelow : (2 : ℚ) ^ k < 2 ^ ((m.log2 + 1 : Nat) + e) := by
    refine lt_of_le_of_lt h ?_
    rw [zpow_add₀ two_ne_zero, zpow_natCast]
    gcongr
  have hexponent := (zpow_lt_zpow_iff_right₀ one_lt_two).mp hbelow
  omega

/-- A finite product is at most one unit in the last place away from the exact one. -/
theorem exists_value_mul (hx : IsValueOf a x.toModel.unpack)
    (hy : IsValueOf b y.toModel.unpack) (hnormal : (2 : ℚ) ^ (-1022 : Int) ≤ a * b)
    (hfinite : (x * y).toModel.unpack.isFinite = true) :
    ∃ v, IsValueOf v (x * y).toModel.unpack ∧ IsNear lastPlace (a * b) v := by
  have hmul : (x * y).toModel.unpack = (Float.Model.pack (UnpackedFloat.mul Format.binary64
      x.toModel.unpack y.toModel.unpack)).unpack := rfl
  rw [hmul] at hfinite ⊢
  obtain ⟨m, e, hm, hxu, hmbits, -, rfl⟩ := hx
  obtain ⟨n, f, hn, hyu, hnbits, -, rfl⟩ := hy
  rw [hxu, hyu] at hfinite ⊢
  have hproduct : (m : ℚ) * 2 ^ e * (n * 2 ^ f) = (m * n : Nat) * 2 ^ (e + f) := by
    rw [zpow_add₀ two_ne_zero]
    push_cast
    ring
  rw [hproduct] at hnormal ⊢
  have hbits := le_log2_mul hmbits hnbits
  obtain ⟨v, hv, hnear⟩ := exists_value_roundWithAccuracy (e := e + f) .exact
    (Nat.le_trans (by decide) hbits) (le_log2_add hnormal)
  exact ⟨v, IsValueOf.pack hv hfinite, hnear⟩

/-- Dividing mantissas drops less than one in the last place that is kept. -/
theorem isNear_quotient (hm : m.log2 = 52) (hn : n.log2 = 52) :
    IsNear lastPlace (m * 2 ^ 53 / n) (m <<< 53 / n : Nat) := by
  have hlow : (2 : ℚ) ^ 52 ≤ (m <<< 53 / n : Nat) := by exact_mod_cast le_quotient hm hn
  rw [Nat.shiftLeft_eq] at hlow ⊢
  have hfloor : ((m * 2 ^ 53 / n : Nat) : ℚ) ≤ m * 2 ^ 53 / n := by
    exact_mod_cast @Nat.cast_div_le ℚ _ _ _ (m * 2 ^ 53) n
  have hceil : (m * 2 ^ 53 / n : ℚ) < (m * 2 ^ 53 / n : Nat) + 1 := by
    have hnpos : (0 : ℚ) < n := by linarith [(mantissa_bounds hn).1]
    rw [div_lt_iff₀ hnpos]
    exact_mod_cast Nat.lt_mul_of_div_lt (Nat.lt_succ_self _) (by exact_mod_cast hnpos)
  rw [isNear_iff, lastPlace]
  constructor <;> linarith

/-- The exponents of normal numbers differ by at least `k` if their quotient is from `2 ^ k` on. -/
theorem le_exponent_sub (hm : m.log2 = 52) (hn : n.log2 = 52)
    (h : (2 : ℚ) ^ k ≤ m * 2 ^ 53 / n * 2 ^ (e - f - 53)) : k ≤ e - f := by
  have hquotient : (m : ℚ) * 2 ^ 53 / n < 2 ^ 54 := by
    obtain ⟨-, hmhigh⟩ := mantissa_bounds hm
    obtain ⟨hnlow, -⟩ := mantissa_bounds hn
    rw [div_lt_iff₀ (by linarith)]
    linarith
  have hbelow : (2 : ℚ) ^ k < 2 ^ ((54 : Nat) + (e - f - 53)) := by
    refine lt_of_le_of_lt h ?_
    rw [zpow_add₀ two_ne_zero, zpow_natCast]
    gcongr
  have hexponent := (zpow_lt_zpow_iff_right₀ one_lt_two).mp hbelow
  omega

/-- The quotient of two mantissas is rounded to a value near it, although the division drops digits
before. -/
theorem exists_value_quotient (hm : m.log2 = 52) (hn : n.log2 = 52)
    (hexponent : -1021 ≤ e - f) : ∃ v,
      IsValueOf v (roundWithAccuracy Format.binary64 .positive (m <<< 53 / n) (e - f - 53)
        (accuracyOfFraction (m <<< 53 % n) n)) ∧
      IsNear (3 * lastPlace) (m * 2 ^ 53 / n * 2 ^ (e - f - 53)) v := by
  have hbits := le_log2_quotient hm hn
  obtain ⟨v, hv, hround⟩ := exists_value_roundWithAccuracy (e := e - f - 53)
    (accuracyOfFraction (m <<< 53 % n) n) hbits (by omega)
  have hscale : (0 : ℚ) ≤ 2 ^ (e - f - 53) := by positivity
  have hdropped := (isNear_quotient hm hn).mul_right hscale
  have hnear := hdropped.trans hround (by norm_num [lastPlace])
  exact ⟨v, hv, hnear.mono (by positivity) (by norm_num [lastPlace])⟩

/-- A quotient in the normal range is near the exact one. -/
theorem exists_value_div (hx : IsValueOf a x.toModel.unpack)
    (hy : IsValueOf b y.toModel.unpack) (hlow : (2 : ℚ) ^ (-1021 : Int) ≤ a / b)
    (hhigh : a / b < 2 ^ (1022 : Int)) :
    ∃ v, IsValueOf v (x / y).toModel.unpack ∧ IsNear (3 * lastPlace) (a / b) v := by
  have hdiv : (x / y).toModel.unpack = (Float.Model.pack (UnpackedFloat.div Format.binary64
      x.toModel.unpack y.toModel.unpack)).unpack := rfl
  obtain ⟨m, e, hm, hxu, hmbits, -, rfl⟩ := hx
  obtain ⟨n, f, hn, hyu, hnbits, -, rfl⟩ := hy
  have hquotient : (m : ℚ) * 2 ^ e / (n * 2 ^ f) = m * 2 ^ 53 / n * 2 ^ (e - f - 53) := by
    have hnpos : (0 : ℚ) < n := by exact_mod_cast hn
    rw [zpow_sub₀ two_ne_zero, zpow_sub₀ two_ne_zero]
    field_simp
  rw [hquotient] at hlow hhigh ⊢
  have hexponent := le_exponent_sub hmbits hnbits hlow
  obtain ⟨v, hv, hnear⟩ := exists_value_quotient hmbits hnbits hexponent
  have hbound : v < 2 ^ (1023 : Int) := by
    calc v ≤ m * 2 ^ 53 / n * 2 ^ (e - f - 53) * (1 + 3 * lastPlace) := (isNear_iff.mp hnear).2
      _ ≤ m * 2 ^ 53 / n * 2 ^ (e - f - 53) * 2 := by gcongr; norm_num [lastPlace]
      _ < 2 ^ (1022 : Int) * 2 := by gcongr
      _ = 2 ^ (1023 : Int) := (zpow_add_one₀ two_ne_zero 1022).symm
  rw [hdiv, hxu, hyu, div_normal hm hn hmbits hnbits hexponent]
  exact ⟨v, hv.pack (hv.isFinite_pack hbound), hnear⟩

/-- From 17 digits on, a number from 1 to 4 is rounded to one near it. -/
theorem exists_value_roundMagnitude (hx : IsValueOf c x.toModel.unpack)
    (hbound : AtLeast 1 x.toModel.unpack) (hlow : 1 ≤ c) (hhigh : c ≤ 4) (hn : 17 ≤ n) :
    ∃ v, IsValueOf v (roundMagnitude n x).toModel.unpack ∧ IsNear (5 * lastPlace) c v := by
  have hpower := atLeast_tenPower n
  have hscaled : AtLeast 52 (x * tenPower n).toModel.unpack :=
    (atLeast_mul hbound hpower (by omega)).mono (by omega)
  rw [roundMagnitude]
  split
  · next hfinite =>
    obtain ⟨p, hp, hple⟩ := hpower.exists_value (isFinite_of_mul hbound hpower hfinite) (by omega)
    have hppos : 0 < p := lt_of_lt_of_le (by positivity) hple
    have hnormal : (2 : ℚ) ^ (-1022 : Int) ≤ c * p := by
      calc (2 : ℚ) ^ (-1022 : Int) ≤ 2 ^ ((3 * n : Nat) : Int) :=
            zpow_le_zpow_right₀ one_le_two (by omega)
        _ ≤ 1 * p := by rw [one_mul]; exact hple
        _ ≤ c * p := by gcongr
    obtain ⟨a, ha, hproduct⟩ := exists_value_mul hx hp hnormal hfinite
    have hback : IsNear lastPlace c (a / p) := by
      have hscale := hproduct.mul_right (inv_nonneg.mpr hppos.le)
      rw [mul_assoc, mul_inv_cancel₀ hppos.ne', mul_one] at hscale
      exact hscale
    obtain ⟨v, hv, hquotient⟩ : ∃ v, IsValueOf v (x * tenPower n / tenPower n).toModel.unpack ∧
        IsNear (3 * lastPlace) (a / p) v := by
      obtain ⟨hbacklow, hbackhigh⟩ := isNear_iff.mp hback
      refine exists_value_div ha hp (le_trans ?_ hbacklow) (lt_of_le_of_lt hbackhigh ?_)
      · calc (2 : ℚ) ^ (-1021 : Int) ≤ 2 ^ (-1 : Int) :=
              zpow_le_zpow_right₀ one_le_two (by decide)
          _ ≤ c * (1 - lastPlace) := by norm_num [lastPlace]; linarith
      · calc c * (1 + lastPlace) < 2 ^ (3 : Int) := by norm_num [lastPlace]; linarith
          _ < 2 ^ (1022 : Int) := zpow_lt_zpow_right₀ one_lt_two (by decide)
    rw [nearestWhole_eq_self hscaled, unpack_abs]
    exact ⟨v, hv.abs, (hback.trans hquotient (by norm_num [lastPlace])).mono (by linarith)
      (by norm_num [lastPlace])⟩
  · exact ⟨c, hx, isNear_iff.mpr (by constructor <;> norm_num [lastPlace] <;> linarith)⟩

/-- The value of Euler's number as a double. -/
theorem isValueOf_euler :
    IsValueOf (6121026514868073 * 2 ^ (-51 : Int)) (Scalar.euler : Float).toModel.unpack :=
  ⟨6121026514868073, -51, by decide, rfl, by decide, by decide, by norm_num⟩

/-- The value of `π` as a double. -/
theorem isValueOf_pi :
    IsValueOf (7074237752028440 * 2 ^ (-51 : Int)) (Scalar.pi : Float).toModel.unpack :=
  ⟨7074237752028440, -51, by decide, rfl, by decide, by decide, by norm_num⟩

/-- Below seventeen digits, the two constants are rounded to the same double at zero digits only. -/
theorem not_equal_roundTo_small : ∀ n < 17, n ≠ 0 →
    Scalar.equal (roundTo n (Scalar.pi : Float)) (roundTo n Scalar.euler) = false := by
  decide +kernel

/-- At one digit or more, Euler's number and `π` are not rounded to the same double. -/
theorem not_equal_roundTo (hn : n ≠ 0) :
    Scalar.equal (roundTo n (Scalar.pi : Float)) (roundTo n Scalar.euler) = false := by
  by_cases hsmall : n < 17
  · exact not_equal_roundTo_small n hsmall hn
  · have heuler : AtLeast 1 (Scalar.euler : Float).toModel.unpack :=
      atLeast_constant _ List.mem_cons_self
    have hpi : AtLeast 1 (Scalar.pi : Float).toModel.unpack :=
      atLeast_constant _ (List.mem_cons_of_mem _ List.mem_cons_self)
    obtain ⟨v, hv, hvnear⟩ := exists_value_roundMagnitude isValueOf_euler heuler (by norm_num)
      (by norm_num) (Nat.le_of_not_lt hsmall)
    obtain ⟨w, hw, hwnear⟩ := exists_value_roundMagnitude isValueOf_pi hpi (by norm_num)
      (by norm_num) (Nat.le_of_not_lt hsmall)
    rw [heuler.roundTo, hpi.roundTo]
    refine Bool.eq_false_iff.mpr fun hequal => ?_
    have hsame := hw.eq_of_equal hv hequal
    have hbelow : v < 3 := lt_of_le_of_lt (isNear_iff.mp hvnear).2 (by norm_num [lastPlace])
    have habove : 3 < w := lt_of_lt_of_le (by norm_num [lastPlace]) (isNear_iff.mp hwnear).1
    linarith

end Univariate.Double
