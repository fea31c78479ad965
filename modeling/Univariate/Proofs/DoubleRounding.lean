import Univariate.Proofs.DoubleLaws

/-!
# Rounding of doubles

Rounding is odd, since the magnitude is rounded and the sign is kept. No precision rounds Euler's
number or `π` to zero: for a small digit count the rounded constant is computed; for a large one the
scaled constant is at least `2 ^ 52` and therefore whole, and dividing it by the power of ten again
leaves a number that is far from zero. The bounds are on the exponents of unpacked doubles, which no
rounding of a product or a quotient lowers.
-/

namespace Univariate.Double

open Float.Model Float.Model.UnpackedFloat

/-- Shifting an extended mantissa to the right halves the mantissa each time. -/
theorem mantissa_shiftRight (em : ExtendedMantissa) (n : Nat) :
    (em >>> n).mantissa = em.mantissa / 2 ^ n := by
  induction n with
  | zero => exact (Nat.div_one _).symm
  | succ n ih =>
    have hstep : (em >>> (n + 1)).mantissa = (em >>> n).mantissa / 2 := rfl
    rw [hstep, ih, Nat.div_div_eq_div_mul, Nat.pow_succ]

/-- The mantissa of an extended mantissa is the one that it is made of. -/
theorem mantissa_ofMantissaAndAccuracy (m : Nat) (accuracy : Accuracy) :
    (ExtendedMantissa.ofMantissaAndAccuracy m accuracy).mantissa = m := by
  rcases accuracy with _ | (_ | _ | _) <;> rfl

/-- Rounding does not lower a mantissa. -/
theorem le_roundedMantissa (em : ExtendedMantissa) : em.mantissa ≤ em.roundedMantissa := by
  obtain ⟨m, roundBit, stickyBit⟩ := em
  cases roundBit <;> cases stickyBit <;>
    simp [ExtendedMantissa.roundedMantissa, ExtendedMantissa.accuracy, Accuracy.roundToNearestEven]

/-- Rounding raises a mantissa by at most one. -/
theorem roundedMantissa_le (em : ExtendedMantissa) : em.roundedMantissa ≤ em.mantissa + 1 := by
  obtain ⟨m, roundBit, stickyBit⟩ := em
  cases roundBit <;> cases stickyBit <;>
    simp [ExtendedMantissa.roundedMantissa, ExtendedMantissa.accuracy, Accuracy.roundToNearestEven]
  omega

/-- A mantissa of 53 bits has the binary logarithm 52. -/
theorem log2_eq_of_bounds {m : Nat} (hlow : 2 ^ 52 ≤ m) (hhigh : m < 2 ^ 53) : m.log2 = 52 :=
  (Nat.log2_eq_iff (by omega)).mpr ⟨hlow, hhigh⟩

/-- A mantissa of at least 53 bits is shifted by the bits that are too many, and the exponent grows
by their number. -/
theorem shiftToTargetExponent_eq {m : Nat} {e : Int} (accuracy : Accuracy) (hbits : 52 ≤ m.log2)
    (hexponent : -1022 ≤ m.log2 + e) :
    (shiftToTargetExponent Format.binary64 m e accuracy).1.mantissa = m / 2 ^ (m.log2 - 52) ∧
      (shiftToTargetExponent Format.binary64 m e accuracy).2 = e + (m.log2 - 52 : Nat) := by
  have htarget : Format.binary64.targetExponent (totalExponent m e) - e = (m.log2 - 52 : Nat) := by
    have hmin : Format.binary64.minExponent = -1074 := rfl
    have hmantissa : (Format.binary64.mantissaBits : Int) = 53 := rfl
    unfold Format.targetExponent totalExponent
    rw [hmin, hmantissa]
    omega
  unfold shiftToTargetExponent shiftToExponent
  dsimp only
  rw [htarget, Int.toNat_natCast, mantissa_shiftRight, mantissa_ofMantissaAndAccuracy]
  exact ⟨rfl, rfl⟩

/-- A mantissa of at least 53 bits is shifted to 53 bits, and the exponent grows by what is shifted
out. -/
theorem shiftToTargetExponent_normal {m : Nat} {e : Int} (accuracy : Accuracy)
    (hbits : 52 ≤ m.log2) (hexponent : -1022 ≤ m.log2 + e) :
    (shiftToTargetExponent Format.binary64 m e accuracy).1.mantissa.log2 = 52 ∧
      (shiftToTargetExponent Format.binary64 m e accuracy).2 + 52 = m.log2 + e := by
  obtain ⟨hmantissa, hshifted⟩ := shiftToTargetExponent_eq accuracy hbits hexponent
  rw [hmantissa, hshifted]
  refine ⟨?_, by omega⟩
  have hne : m ≠ 0 := by
    rintro rfl
    simp at hbits
  have hlow := Nat.log2_self_le hne
  have hhigh := Nat.lt_log2_self (n := m)
  have hsplit : 2 ^ m.log2 = 2 ^ 52 * 2 ^ (m.log2 - 52) := by
    rw [← Nat.pow_add]
    congr 1
    omega
  refine log2_eq_of_bounds ?_ ?_
  · rw [Nat.le_div_iff_mul_le (Nat.two_pow_pos _), ← hsplit]
    exact hlow
  · rw [Nat.div_lt_iff_lt_mul (Nat.two_pow_pos _)]
    rw [Nat.pow_succ, hsplit] at hhigh
    omega

/-- A mantissa of 53 bits and the carry out of it are shifted without a loss. -/
theorem shifted_eq {r : Nat} (hlow : 2 ^ 52 ≤ r) (hhigh : r ≤ 2 ^ 53) :
    r / 2 ^ (r.log2 - 52) * 2 ^ (r.log2 - 52) = r := by
  rcases Nat.lt_or_eq_of_le hhigh with hlt | rfl
  · rw [log2_eq_of_bounds hlow hlt]
    simp
  · decide

/-- A mantissa of at least 53 bits is shifted to 53 bits and rounded to one of its two neighbours. A
carry out of the 53 bits is shifted out again. -/
theorem exists_roundWithAccuracy {m : Nat} {e : Int} (accuracy : Accuracy) (hbits : 52 ≤ m.log2)
    (hnormal : -1022 ≤ m.log2 + e) : ∃ (q carry : Nat) (hpos : 0 < q),
      roundWithAccuracy Format.binary64 .positive m e accuracy =
        .finite .positive q (e + (m.log2 - 52 : Nat) + carry) hpos ∧ q.log2 = 52 ∧
      m / 2 ^ (m.log2 - 52) ≤ q * 2 ^ carry ∧ q * 2 ^ carry ≤ m / 2 ^ (m.log2 - 52) + 1 := by
  unfold roundWithAccuracy
  obtain ⟨hmantissa₁, hexponent₁⟩ := shiftToTargetExponent_eq (e := e) accuracy hbits hnormal
  obtain ⟨hbits₁, htotal₁⟩ := shiftToTargetExponent_normal (e := e) accuracy hbits hnormal
  generalize shiftToTargetExponent Format.binary64 m e accuracy = first at *
  obtain ⟨em, e₁⟩ := first
  dsimp only at *
  have hlow := le_roundedMantissa em
  have hhigh := roundedMantissa_le em
  have hfirst : 2 ^ 52 ≤ em.mantissa ∧ em.mantissa < 2 ^ 53 :=
    (Nat.log2_eq_iff (by rintro hzero; simp [hzero] at hbits₁)).mp hbits₁
  generalize em.roundedMantissa = r at *
  have hrounded : 52 ≤ r.log2 := (Nat.le_log2 (by omega)).mpr (by omega)
  obtain ⟨hmantissa₂, hexponent₂⟩ := shiftToTargetExponent_eq (e := e₁) .exact hrounded (by omega)
  obtain ⟨hbits₂, -⟩ := shiftToTargetExponent_normal (e := e₁) .exact hrounded (by omega)
  have hexact := shifted_eq (r := r) (by omega) (by omega)
  generalize shiftToTargetExponent Format.binary64 r e₁ .exact = second at *
  obtain ⟨em₂, e₂⟩ := second
  dsimp only at *
  subst hexponent₁ hexponent₂
  rw [← hmantissa₂] at hexact
  rw [← hmantissa₁]
  split
  · next hzero =>
    rw [hzero] at hbits₂
    simp at hbits₂
  · next hne =>
    exact ⟨_, _, Nat.pos_of_ne_zero hne, rfl, hbits₂, by omega, by omega⟩

/-- An unpacked double is infinite or a normal number of at least `2 ^ k`. -/
def AtLeast (k : Int) : UnpackedFloat → Prop
  | .infinity sign => sign = .positive
  | .finite sign mantissa exponent _ => sign = .positive ∧ mantissa.log2 = 52 ∧ k ≤ exponent + 52
  | _ => False

/-- Rounding a mantissa of at least 53 bits lowers no bound. -/
theorem atLeast_roundWithAccuracy {m : Nat} {e k : Int} (accuracy : Accuracy)
    (hbits : 52 ≤ m.log2) (hk : k ≤ m.log2 + e) (hnormal : -1022 ≤ k) :
    AtLeast k (roundWithAccuracy Format.binary64 .positive m e accuracy) := by
  obtain ⟨q, t, hpos, hround, hq, -⟩ := exists_roundWithAccuracy (e := e) accuracy hbits (by omega)
  rw [hround]
  exact ⟨rfl, hq, by omega⟩

/-- The components of a normal number are unpacked to its mantissa and exponent. -/
theorem ofComponents_normal {m biased : Nat} (hpos : 0 < m) (hm : m.log2 = 52)
    (hlow : 1 ≤ biased) (hhigh : biased ≤ 2046) :
    ofComponents .positive (BitVec.ofNat 11 biased) (BitVec.ofNat 52 m) =
      .finite .positive m (biased - 1075) hpos := by
  obtain ⟨hmlow, hmhigh⟩ := (Nat.log2_eq_iff (Nat.ne_of_gt hpos)).mp hm
  have hexponent : (BitVec.ofNat 11 biased).toNat = biased := by
    rw [BitVec.toNat_ofNat]
    omega
  have hmantissa : (1#1 ++ BitVec.ofNat 52 m).toNat = m := by
    rw [toNat_leading_append, BitVec.toNat_ofNat]
    omega
  have hinfinite : BitVec.ofNat 11 biased ≠ -1#11 := by
    intro h
    have htop := congrArg BitVec.toNat h
    rw [hexponent] at htop
    have hlast : (-1#11).toNat = 2047 := rfl
    omega
  have hsubnormal : BitVec.ofNat 11 biased ≠ 0#11 := by
    intro h
    have hzero := congrArg BitVec.toNat h
    rw [hexponent] at hzero
    have hfirst : (0#11).toNat = 0 := rfl
    omega
  rw [ofComponents, if_neg hinfinite, if_neg hsubnormal]
  congr 1
  rw [hexponent]

/-- Packing loses nothing of a normal number, unless it is out of range and becomes infinite. -/
theorem unpack_pack_normal {m : Nat} {e : Int} (hpos : 0 < m) (hm : m.log2 = 52)
    (he : -1074 ≤ e) :
    (Float.Model.pack (.finite .positive m e hpos)).unpack =
      if e ≤ 971 then .finite .positive m e hpos else .infinity .positive := by
  have hbias : ((Format.binary64.exponentBias : Nat) : Int) = 1023 := rfl
  have hbits : Format.binary64.mantissaBits = 53 := rfl
  have hpack : (Float.Model.pack (.finite .positive m e hpos)).unpack =
      UnpackedFloat.unpack Format.binary64
        (UnpackedFloat.pack Format.binary64 (.finite .positive m e hpos)) := rfl
  rw [hpack, UnpackedFloat.pack]
  dsimp only
  rw [hbias, hm, hbits, if_pos rfl]
  obtain ⟨biased, hbiased⟩ : ∃ biased : Nat, (biased : Int) = e + 1075 :=
    ⟨(e + 1075).toNat, by omega⟩
  have hexponent : e = biased - 1075 := by omega
  have htoNat : (e + 1023 + ((52 : Nat) : Int)).toNat = biased := by omega
  rw [htoNat]
  split
  · next hlarge =>
    rw [if_neg (by omega)]
    exact unpack_packComponents _ _ _
  · next hfits =>
    subst hexponent
    rw [if_pos (by omega), unpack_packComponents]
    exact ofComponents_normal hpos hm (by omega) (by omega)

/-- Packing lowers no bound. -/
theorem AtLeast.pack {k : Int} {u : UnpackedFloat} (h : AtLeast k u) (hnormal : -1022 ≤ k) :
    AtLeast k (Float.Model.pack u).unpack := by
  cases u with
  | notANumber | zero => exact h.elim
  | infinity sign =>
    cases h
    exact rfl
  | finite sign m e hpos =>
    obtain ⟨rfl, hm, hk⟩ := h
    rw [unpack_pack_normal hpos hm (by omega)]
    split
    · exact ⟨rfl, hm, hk⟩
    · exact rfl

/-- A product of mantissas of 53 bits has at least 105 bits. -/
theorem le_log2_mul {m n : Nat} (hm : m.log2 = 52) (hn : n.log2 = 52) : 104 ≤ (m * n).log2 := by
  have hmlow := Nat.log2_self_le (n := m) (by rintro rfl; simp at hm)
  have hnlow := Nat.log2_self_le (n := n) (by rintro rfl; simp at hn)
  rw [hm] at hmlow
  rw [hn] at hnlow
  have hproduct := Nat.mul_le_mul hmlow hnlow
  exact (Nat.le_log2 (by omega)).mpr hproduct

/-- Multiplication adds lower bounds. -/
theorem atLeast_mul {x y : Float} {j k : Int} (hx : AtLeast j x.toModel.unpack)
    (hy : AtLeast k y.toModel.unpack) (hnormal : -1022 ≤ j + k) :
    AtLeast (j + k) (x * y).toModel.unpack := by
  have hmul : (x * y).toModel.unpack = (Float.Model.pack (UnpackedFloat.mul Format.binary64
      x.toModel.unpack y.toModel.unpack)).unpack := rfl
  rw [hmul]
  refine AtLeast.pack ?_ hnormal
  generalize x.toModel.unpack = u at hx
  generalize y.toModel.unpack = v at hy
  cases u with
  | notANumber | zero => exact hx.elim
  | infinity s =>
    cases hx
    cases v with
    | notANumber | zero => exact hy.elim
    | infinity s' =>
      cases hy
      exact rfl
    | finite s' m e hm =>
      obtain ⟨rfl, -, -⟩ := hy
      exact rfl
  | finite s m e hm =>
    obtain ⟨rfl, hmbits, hj⟩ := hx
    cases v with
    | notANumber | zero => exact hy.elim
    | infinity s' =>
      cases hy
      exact rfl
    | finite s' n f hn =>
      obtain ⟨rfl, hnbits, hk⟩ := hy
      have hbits := le_log2_mul hmbits hnbits
      exact atLeast_roundWithAccuracy .exact (by omega) (by omega) hnormal

/-- A product with a power of a base is at least the product of the bounds. -/
theorem atLeast_timesPower {product base : Float} {j k : Nat} (n : Nat)
    (hproduct : AtLeast j product.toModel.unpack) (hbase : AtLeast k base.toModel.unpack) :
    AtLeast (j + k * n : Nat) (timesPower product base n).toModel.unpack := by
  induction n using Nat.strongRecOn generalizing product base j k with
  | ind n ih =>
    have hnext : AtLeast (j + k * (n % 2) : Nat)
        (if n % 2 = 1 then product * base else product).toModel.unpack := by
      split
      · next hodd =>
        rw [hodd, Nat.mul_one, Int.natCast_add]
        exact atLeast_mul hproduct hbase (by omega)
      · next heven =>
        have hzero : n % 2 = 0 := by omega
        rw [hzero]
        exact hproduct
    rw [timesPower]
    split
    · next hsmall =>
      rw [Nat.mod_eq_of_lt hsmall] at hnext ⊢
      exact hnext
    · next hlarge =>
      have hsquare : AtLeast (2 * k : Nat) (base * base).toModel.unpack := by
        rw [Nat.two_mul, Int.natCast_add]
        exact atLeast_mul hbase hbase (by omega)
      have hrest := ih (n / 2) (by omega) hnext hsquare
      have hsum : j + k * (n % 2) + 2 * k * (n / 2) = j + k * n := by
        conv_rhs => rw [← Nat.mod_add_div n 2]
        ring
      rw [hsum] at hrest
      exact hrest

/-- The power of ten with exponent `n` is at least `2 ^ (3 * n)`. -/
theorem atLeast_tenPower (n : Nat) : AtLeast (3 * n : Nat) (tenPower n).toModel.unpack := by
  have hone : AtLeast (0 : Nat) (1 : Float).toModel.unpack := by
    have hunpack : (1 : Float).toModel.unpack = .finite .positive (2 ^ 52) (-52) (by decide) := rfl
    rw [hunpack]
    exact ⟨rfl, by decide, by decide⟩
  have hten : AtLeast (3 : Nat) (10 : Float).toModel.unpack := by
    have hunpack : (10 : Float).toModel.unpack =
        .finite .positive 5629499534213120 (-49) (by decide) := rfl
    rw [hunpack]
    exact ⟨rfl, by decide, by decide⟩
  have h := atLeast_timesPower n hone hten
  rw [Nat.zero_add] at h
  exact h

/-- A double of at least `2 ^ 52` is whole. -/
theorem nearestWhole_eq_self {x : Float} (h : AtLeast 52 x.toModel.unpack) :
    nearestWhole x = x := by
  have hbound : (4503599627370496 : Float).toModel.unpack =
      .finite .positive (2 ^ 52) 0 (by decide) := rfl
  have hcompare : UnpackedFloat.lt x.toModel.unpack
      (4503599627370496 : Float).toModel.unpack = false := by
    rw [hbound]
    generalize x.toModel.unpack = u at h
    cases u with
    | notANumber | zero => exact h.elim
    | infinity s =>
      cases h
      exact rfl
    | finite s m e hm =>
      obtain ⟨rfl, hbits, he⟩ := h
      have hlow := Nat.log2_self_le (Nat.ne_of_gt hm)
      rw [hbits] at hlow
      have hnot : (compare e 0).then (compare m (2 ^ 52)) ≠ .lt := by
        rw [Ne, Ordering.then_eq_lt, compare_lt_iff_lt, compare_eq_iff_eq, compare_lt_iff_lt]
        omega
      exact Bool.eq_false_iff.mpr fun hlt => hnot (Option.some.inj (beq_iff_eq.mp hlt))
  have hlarge : ¬x < 4503599627370496 := by
    intro hlt
    have hmodel : x.toModel < (4503599627370496 : Float).toModel := of_decide_eq_true hlt
    have htrue : UnpackedFloat.lt x.toModel.unpack
      (4503599627370496 : Float).toModel.unpack = true := hmodel
    rw [hcompare] at htrue
    cases htrue
  rw [nearestWhole]
  exact if_neg hlarge

/-- The exponent of a double is at most 971. -/
theorem exponent_le_of_ofComponents {s s' : Sign} {b : BitVec 11} {c : BitVec 52} {m : Nat}
    {e : Int} {hm : 0 < m} (h : ofComponents s b c = .finite s' m e hm) : e ≤ 971 := by
  unfold ofComponents at h
  have hb := b.isLt
  split at h
  · split at h <;> cases h
  · next htop =>
    have hlt : b.toNat ≠ 2047 := fun heq => htop (BitVec.eq_of_toNat_eq heq)
    split at h
    · next hzero =>
      split at h
      · cases h
      · cases h
        rw [hzero]
        decide
    · cases h
      omega

/-- The mantissas of normal numbers are divided to at least 53 bits, unless the quotient is too
small to be normal. -/
theorem divCore_eq {m n : Nat} {e f : Int} (hm : m.log2 = 52) (hn : n.log2 = 52)
    (hexponent : -1021 ≤ e - f) : divCore Format.binary64 m e n f =
      (m <<< 53 / n, e - f - 53, accuracyOfFraction (m <<< 53 % n) n) := by
  have htarget : min (e - f) (Format.binary64.targetExponent
      (totalExponent m e - totalExponent n f)) = e - f - 53 := by
    have hmin : Format.binary64.minExponent = -1074 := rfl
    have hmantissa : (Format.binary64.mantissaBits : Int) = 53 := rfl
    unfold Format.targetExponent totalExponent
    rw [hmin, hmantissa, hm, hn]
    omega
  have hshift : (e - f - (e - f - 53)).toNat = 53 := by omega
  rw [divCore, htarget, hshift]

/-- A quotient of mantissas of 53 bits has at least 53 bits. -/
theorem le_quotient {m n : Nat} (hm : m.log2 = 52) (hn : n.log2 = 52) :
    2 ^ 52 ≤ m <<< 53 / n := by
  have hmlow := Nat.log2_self_le (n := m) (by rintro rfl; simp at hm)
  have hnhigh := Nat.lt_log2_self (n := n)
  have hnpos : 0 < n := Nat.pos_of_ne_zero (by rintro rfl; simp at hn)
  rw [hm] at hmlow
  rw [hn] at hnhigh
  rw [Nat.le_div_iff_mul_le hnpos, Nat.shiftLeft_eq]
  omega

/-- The binary logarithm of a quotient of mantissas of 53 bits is at least 52. -/
theorem le_log2_quotient {m n : Nat} (hm : m.log2 = 52) (hn : n.log2 = 52) :
    52 ≤ (m <<< 53 / n).log2 := by
  have hlow := le_quotient hm hn
  exact (Nat.le_log2 (by omega)).mpr hlow

/-- The quotient of normal numbers is that of their mantissas, rounded. -/
theorem div_normal {m n : Nat} {e f : Int} (hmpos : 0 < m) (hnpos : 0 < n) (hm : m.log2 = 52)
    (hn : n.log2 = 52) (hexponent : -1021 ≤ e - f) :
    UnpackedFloat.div Format.binary64 (.finite .positive m e hmpos) (.finite .positive n f hnpos) =
      roundWithAccuracy Format.binary64 .positive (m <<< 53 / n) (e - f - 53)
        (accuracyOfFraction (m <<< 53 % n) n) := by
  rw [UnpackedFloat.div, divCore_eq hm hn hexponent]
  rfl

/-- A finite double of at least `2 ^ 52` is not divided to zero. -/
theorem atLeast_div {x y : Float} (hx : AtLeast 52 x.toModel.unpack)
    (hy : AtLeast 0 y.toModel.unpack) (hfinite : y.toModel.unpack.isFinite = true) :
    AtLeast (-1000) (x / y).toModel.unpack := by
  have hdiv : (x / y).toModel.unpack = (Float.Model.pack (UnpackedFloat.div Format.binary64
      x.toModel.unpack y.toModel.unpack)).unpack := rfl
  have hcomponents : y.toModel.unpack = ofComponents _ _ _ := unpack_eq y.toModel.toBits.toBitVec
  rw [hdiv]
  refine AtLeast.pack ?_ (by decide)
  generalize x.toModel.unpack = u at hx
  generalize y.toModel.unpack = v at hy hfinite hcomponents
  cases v with
  | notANumber | zero => exact hy.elim
  | infinity s => cases hfinite
  | finite s' n f hn =>
    obtain ⟨rfl, hnbits, hf⟩ := hy
    have hftop : f ≤ 971 := exponent_le_of_ofComponents hcomponents.symm
    cases u with
    | notANumber | zero => exact hx.elim
    | infinity s =>
      cases hx
      exact rfl
    | finite s m e hm =>
      obtain ⟨rfl, hmbits, he⟩ := hx
      have hquotient := le_log2_quotient hmbits hnbits
      rw [div_normal hm hn hmbits hnbits (by omega)]
      exact atLeast_roundWithAccuracy _ hquotient (by omega) (by decide)

/-- What is at least a power of two is at least every lower one. -/
theorem AtLeast.mono {j k : Int} {u : UnpackedFloat} (h : AtLeast k u) (hjk : j ≤ k) :
    AtLeast j u := by
  cases u with
  | notANumber | zero => exact h.elim
  | infinity s => exact h
  | finite s m e hm => exact ⟨h.1, h.2.1, Int.le_trans hjk h.2.2⟩

/-- A magnitude is at least what the double is. -/
theorem AtLeast.abs {k : Int} {u : UnpackedFloat} (h : AtLeast k u) : AtLeast k u.abs := by
  cases u with
  | notANumber | zero => exact h.elim
  | infinity s => exact rfl
  | finite s m e hm => exact ⟨rfl, h.2⟩

/-- A product that is finite has a finite right factor. -/
theorem isFinite_of_mul {x y : Float} {j k : Int} (hx : AtLeast j x.toModel.unpack)
    (hy : AtLeast k y.toModel.unpack) (h : (x * y).toModel.unpack.isFinite = true) :
    y.toModel.unpack.isFinite = true := by
  have hmul : (x * y).toModel.unpack = (Float.Model.pack (UnpackedFloat.mul Format.binary64
      x.toModel.unpack y.toModel.unpack)).unpack := rfl
  rw [hmul] at h
  generalize x.toModel.unpack = u at hx h
  generalize y.toModel.unpack = v at hy h ⊢
  cases v with
  | notANumber | zero => exact hy.elim
  | finite s m e hm => rfl
  | infinity s =>
    cases hy
    cases u with
    | notANumber | zero => exact hx.elim
    | infinity s' =>
      cases hx
      cases h
    | finite s' m e hm =>
      obtain ⟨rfl, -⟩ := hx
      have hproduct : UnpackedFloat.mul Format.binary64 (.finite .positive m e hm)
          (.infinity .positive) = .infinity .positive := rfl
      rw [hproduct] at h
      cases h

/-- A double equals itself exactly if it is a number. -/
theorem equal_self_iff {x : Float} :
    Scalar.equal x x = true ↔ x.toModel.unpack ≠ .notANumber := by
  rw [equal_iff]
  constructor
  · rintro (⟨-, h⟩ | ⟨s, s', h, -⟩)
    · exact h
    · rw [h]
      nofun
  · exact fun h => .inl ⟨rfl, h⟩

/-- A double with a lower bound is a number other than zero. -/
theorem AtLeast.number {x : Float} {k : Int} (h : AtLeast k x.toModel.unpack) :
    Scalar.equal x x = true ∧ Scalar.equal x 0 = false := by
  have hzero : (0 : Float).toModel.unpack = .zero .positive := rfl
  have hunpack : x.toModel.unpack ≠ .notANumber ∧ ∀ s, x.toModel.unpack ≠ .zero s := by
    generalize x.toModel.unpack = u at h
    cases u with
    | notANumber | zero => exact h.elim
    | infinity | finite => exact ⟨nofun, nofun⟩
  refine ⟨equal_self_iff.mpr hunpack.1, Bool.eq_false_iff.mpr fun hequal => ?_⟩
  rcases equal_iff.mp hequal with ⟨h, -⟩ | ⟨s, -, h, -⟩
  · exact hunpack.2 _ (h.trans hzero)
  · exact hunpack.2 s h

/-- A double of at least a power of two is not negative. -/
theorem AtLeast.not_negative {x : Float} {k : Int} (h : AtLeast k x.toModel.unpack) :
    Scalar.isNegative x = false := by
  rw [Bool.eq_false_iff, Ne, isNegative_iff]
  generalize x.toModel.unpack = u at h
  cases u with
  | notANumber | zero => exact h.elim
  | infinity s =>
    cases h
    exact Bool.false_ne_true
  | finite s m e hm =>
    obtain ⟨rfl, -⟩ := h
    exact Bool.false_ne_true

/-- From 17 digits on, a scaled constant is whole. -/
theorem atLeast_roundMagnitude {x : Float} {n : Nat} (hx : AtLeast 1 x.toModel.unpack)
    (hn : 17 ≤ n) : AtLeast (-1000) (roundMagnitude n x).toModel.unpack := by
  have hpower := atLeast_tenPower n
  have hscaled : AtLeast 52 (x * tenPower n).toModel.unpack :=
    (atLeast_mul hx hpower (by omega)).mono (by omega)
  rw [roundMagnitude]
  split
  · next hfinite =>
    rw [nearestWhole_eq_self hscaled, unpack_abs]
    exact (atLeast_div hscaled (hpower.mono (by omega)) (isFinite_of_mul hx hpower hfinite)).abs
  · exact hx.mono (by decide)

/-- Rounding keeps a zero, rounds the magnitude of any other number and restores its sign. -/
theorem roundTo_eq (n : Nat) (x : Float) : roundTo n x =
    if Scalar.equal x 0 then x
    else if Scalar.isNegative x then -roundMagnitude n (-x) else roundMagnitude n x := by
  have hless : (x < 0) ↔ Scalar.isNegative x = true := by
    rw [isNegative_eq, decide_eq_true_iff]
  simp only [roundTo, hless]
  rfl

/-- The magnitude of a positive number is the number itself. -/
theorem AtLeast.roundTo {x : Float} {k : Int} (h : AtLeast k x.toModel.unpack) (n : Nat) :
    roundTo n x = roundMagnitude n x := by
  rw [roundTo_eq, h.number.2, h.not_negative, if_neg Bool.false_ne_true, if_neg Bool.false_ne_true]

/-- A double that does not equal itself is no number. -/
theorem unpack_of_not_equal {x : Float} (h : Scalar.equal x x = false) :
    x.toModel.unpack = .notANumber := by
  by_contra hne
  rw [equal_self_iff.mpr hne] at h
  cases h

/-- An undefined value is rounded to itself, and is its own negation. -/
theorem roundTo_undefined {x : Float} (h : x.toModel.unpack = .notANumber) (n : Nat) :
    roundMagnitude n x = x ∧ -x = x := by
  constructor
  · have hscaled : (x * tenPower n).toModel.unpack = (Float.Model.pack (UnpackedFloat.mul
        Format.binary64 x.toModel.unpack (tenPower n).toModel.unpack)).unpack := rfl
    have hproduct : UnpackedFloat.mul Format.binary64 .notANumber
        (tenPower n).toModel.unpack = .notANumber := by
      cases (tenPower n).toModel.unpack <;> rfl
    have hinfinite : (x * tenPower n).isFinite = false := by
      show (x * tenPower n).toModel.unpack.isFinite = false
      rw [hscaled, h, hproduct]
      rfl
    rw [roundMagnitude]
    simp only [hinfinite]
    rfl
  · refine eq_of_unpack_eq ?_
    rw [unpack_neg, h]
    rfl

/-- Of a number other than zero that is not below zero the negation is. -/
theorem isNegative_neg {x : Float} (hsign : Scalar.isNegative x = false)
    (hself : Scalar.equal x x = true) (hzero : Scalar.equal x 0 = false) :
    Scalar.isNegative (-x) = true := by
  rw [isNegative_iff, unpack_neg]
  rw [equal_self_iff] at hself
  have hsign : UnpackedFloat.lt x.toModel.unpack (.zero .positive) ≠ true := fun hlt => by
    rw [isNegative_iff.mpr hlt] at hsign
    cases hsign
  have hzero (s : Sign) : x.toModel.unpack ≠ .zero s := fun h => by
    rw [equal_iff.mpr (.inr ⟨s, .positive, h, rfl⟩)] at hzero
    cases hzero
  generalize x.toModel.unpack = u at *
  cases u with
  | notANumber => exact absurd rfl hself
  | zero s => exact absurd rfl (hzero s)
  | infinity s | finite s m e hm =>
    cases s with
    | positive => rfl
    | negative => exact absurd rfl hsign

/-- Rounding is odd. -/
theorem roundTo_neg (n : Nat) (x : Float) : roundTo n (-x) = -roundTo n x := by
  have hneg : Scalar.equal (-x) 0 = Scalar.equal x 0 := by
    have hnegzero : Scalar.equal (-0 : Float) 0 = true := by decide
    have hswap {y : Float} (h : Scalar.equal y 0 = true) : Scalar.equal (-y) 0 = true :=
      LawfulComparison.equal_trans (LawfulSign.equal_neg h) hnegzero
    rw [Bool.eq_iff_iff]
    refine ⟨fun h => ?_, hswap⟩
    have htwice := hswap h
    rw [LawfulSign.neg_neg] at htwice
    exact htwice
  rw [roundTo_eq, roundTo_eq, hneg, LawfulSign.neg_neg]
  cases hzero : Scalar.equal x 0 with
  | true => rfl
  | false =>
    rw [if_neg Bool.false_ne_true, if_neg Bool.false_ne_true]
    cases hsign : Scalar.isNegative x with
    | true =>
      have hpositive : Scalar.isNegative (-x) = false := by
        rw [← Scalar.abs_of_isNegative hsign]
        exact LawfulScalar.abs_not_negative x
      rw [hpositive, if_neg Bool.false_ne_true, if_pos rfl, LawfulSign.neg_neg]
    | false =>
      cases hself : Scalar.equal x x with
      | true => rw [isNegative_neg hsign hself hzero, if_pos rfl, if_neg Bool.false_ne_true]
      | false =>
        obtain ⟨hround, hnegation⟩ := roundTo_undefined (unpack_of_not_equal hself) n
        rw [hnegation, hsign, if_neg Bool.false_ne_true, hround, hnegation]

/-- Euler's number and `π` are at least two. -/
theorem atLeast_constant : ∀ c ∈ [Scalar.euler, (Scalar.pi : Float)],
    AtLeast 1 c.toModel.unpack := by
  have heuler : (Scalar.euler : Float).toModel.unpack =
      .finite .positive 6121026514868073 (-51) (by decide) := rfl
  have hpi : (Scalar.pi : Float).toModel.unpack =
      .finite .positive 7074237752028440 (-51) (by decide) := rfl
  simp only [List.forall_mem_cons]
  refine ⟨?_, ?_, nofun⟩
  · rw [heuler]
    exact ⟨rfl, by decide, by decide⟩
  · rw [hpi]
    exact ⟨rfl, by decide, by decide⟩

/-- Below seventeen digits, the rounded constants are numbers other than zero. -/
theorem number_roundTo_small : ∀ c ∈ [Scalar.euler, (Scalar.pi : Float)], ∀ n < 17,
    Scalar.equal (roundTo n c) (roundTo n c) = true ∧ Scalar.equal (roundTo n c) 0 = false := by
  decide +kernel

/-- No digit count rounds Euler's number or `π` to zero. -/
theorem number_roundTo {c : Float} (hc : c ∈ [Scalar.euler, (Scalar.pi : Float)]) (n : Nat) :
    Scalar.equal (roundTo n c) (roundTo n c) = true ∧ Scalar.equal (roundTo n c) 0 = false := by
  by_cases hn : n < 17
  · exact number_roundTo_small c hc n hn
  · have hbound := atLeast_constant c hc
    rw [hbound.roundTo]
    exact (atLeast_roundMagnitude hbound (Nat.le_of_not_lt hn)).number

instance : LawfulNegation Float where
  roundTo_neg := roundTo_neg
  isNegative_neg := isNegative_neg
  isNegative_zero := by decide
  isNegative_neg_zero := by decide
  equal_self_of_isNegative {x} h := by
    rw [equal_self_iff]
    intro hundefined
    rw [isNegative_iff, hundefined] at h
    cases h
  undefined_ne_self := by decide
  round_constant c hc d := by
    cases d with
    | unrounded => exact (atLeast_constant c hc).number
    | digits n => exact number_roundTo hc n

end Univariate.Double
