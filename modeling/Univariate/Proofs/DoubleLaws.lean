import Mathlib
import Univariate.Double
import Univariate.Proofs.NumberLaws

/-!
# The laws of numbers on doubles

Doubles obey the laws of comparison and of signs. Negation and magnitude change nothing but the sign
of an unpacked double, and packing loses nothing of it, so that the laws are those of unpacked
doubles, where they hold case by case.
-/

namespace Univariate.Double

open Float.Model Float.Model.UnpackedFloat

/-- An unpacked double with another sign. -/
def withSign (sign : Sign) : UnpackedFloat → UnpackedFloat
  | .notANumber => .notANumber
  | .infinity _ => .infinity sign
  | .zero _ => .zero sign
  | .finite _ mantissa exponent hpos => .finite sign mantissa exponent hpos

/-- The bits of a mantissa are a positive number if one of them is set. -/
theorem toNat_pos_of_ne_zero {m : BitVec 52} (h : m ≠ 0#52) : 0 < m.toNat :=
  Nat.pos_of_ne_zero fun hzero => h (BitVec.eq_of_toNat_eq hzero)

/-- The mantissa of a normal number has a leading bit. -/
theorem toNat_leading_append (m : BitVec 52) : (1#1 ++ m).toNat = 2 ^ 52 + m.toNat := by
  have hor := Nat.two_pow_add_eq_or_of_lt m.isLt 1
  rw [Nat.mul_one] at hor
  rw [BitVec.toNat_append, hor]
  rfl

/-- With its leading bit, a mantissa is positive. -/
theorem toNat_leading_append_pos (m : BitVec 52) : 0 < (1#1 ++ m).toNat := by
  rw [toNat_leading_append]
  omega

/-- A number below the least normal one is packed by its mantissa. -/
theorem pack_subnormal (sign : Sign) {e : BitVec 11} {m : BitVec 52} (he : e = 0#11)
    (hpos : 0 < m.toNat) :
    UnpackedFloat.pack Format.binary64 (.finite sign m.toNat (e.toNat - 1075 + 1) hpos) =
      packComponents Format.binary64 sign e m := by
  subst he
  have hlog : m.toNat.log2 < 52 := (Nat.log2_lt (by omega)).mpr m.isLt
  have hbiased : (((0#11).toNat : Int) - 1075 + 1 + Format.binary64.exponentBias +
      (52 : Nat)).toNat = 1 := rfl
  have hbits : Format.binary64.mantissaBits = 53 := rfl
  unfold UnpackedFloat.pack
  dsimp only
  rw [hbiased, hbits, if_neg (by decide), if_neg (by omega), BitVec.ofNat_toNat, BitVec.setWidth_eq]

/-- A normal number is packed by its exponent and by its mantissa without the leading bit. -/
theorem pack_normal (sign : Sign) {e : BitVec 11} {m : BitVec 52} (he : e ≠ -1#11)
    (hpos : 0 < (1#1 ++ m).toNat) :
    UnpackedFloat.pack Format.binary64 (.finite sign (1#1 ++ m).toNat (e.toNat - 1075) hpos) =
      packComponents Format.binary64 sign e m := by
  have hm := m.isLt
  have hlt : e.toNat + 1 < 2 ^ 11 := by
    have hne : e.toNat ≠ 2 ^ 11 - 1 := fun h => he (BitVec.eq_of_toNat_eq h)
    omega
  have hmantissa := toNat_leading_append m
  have hlog : (1#1 ++ m).toNat.log2 = 52 :=
    (Nat.log2_eq_iff (by omega)).mpr ⟨by omega, by omega⟩
  have hbiased : ((e.toNat : Int) - 1075 + Format.binary64.exponentBias + (52 : Nat)).toNat =
      e.toNat := by
    have hbias : Format.binary64.exponentBias = 1023 := rfl
    omega
  have hbits : Format.binary64.mantissaBits = 53 := rfl
  have hlow : BitVec.ofNat 52 (1#1 ++ m).toNat = m := by
    apply BitVec.eq_of_toNat_eq
    rw [BitVec.toNat_ofNat, hmantissa]
    omega
  unfold UnpackedFloat.pack
  dsimp only
  rw [hbiased, hbits, if_neg (by omega), if_pos (by omega), hlow, BitVec.ofNat_toNat,
    BitVec.setWidth_eq]

/-- The unpacked double with a sign and with the bits of an exponent and of a mantissa. -/
def ofComponents (sign : Sign) (e : BitVec 11) (m : BitVec 52) : UnpackedFloat :=
  if e = -1#11 then
    if m = 0#52 then .infinity sign else .notANumber
  else if e = 0#11 then
    if h : m = 0#52 then .zero sign
    else .finite sign m.toNat (e.toNat - 1075 + 1) (toNat_pos_of_ne_zero h)
  else .finite sign (1#1 ++ m).toNat (e.toNat - 1075) (toNat_leading_append_pos m)

/-- Unpacking a double takes its sign, its exponent and its mantissa apart. -/
theorem unpack_eq (b : BitVec Format.binary64.numBits) :
    UnpackedFloat.unpack Format.binary64 b =
      ofComponents (.ofBitVec (unpackSign b)) (unpackExponent b) (unpackMantissa b) := rfl

/-- Giving a double another sign is giving its components that sign. -/
theorem withSign_ofComponents (sign sign' : Sign) (e : BitVec 11) (m : BitVec 52) :
    withSign sign (ofComponents sign' e m) = ofComponents sign e m := by
  unfold ofComponents
  split
  · split <;> rfl
  · split
    · split <;> rfl
    · rfl

/-- Components with the greatest exponent and a mantissa are no number. -/
theorem ofComponents_eq_notANumber {e : BitVec 11} {m : BitVec 52} (he : e = -1#11) (hm : m ≠ 0#52)
    (sign : Sign) : ofComponents sign e m = .notANumber := by
  rw [ofComponents, if_pos he, if_neg hm]

/-- A double that is a number is packed with the bits that it is made from. -/
theorem pack_ofComponents {e : BitVec 11} {m : BitVec 52} (hm : e = -1#11 → m = 0#52)
    (sign : Sign) : UnpackedFloat.pack Format.binary64 (ofComponents sign e m) =
      packComponents Format.binary64 sign e m := by
  unfold ofComponents
  split
  · next htop =>
    rw [if_pos (hm htop), htop, hm htop]
    rfl
  · next htop =>
    split
    · next hzero =>
      split
      · next hmantissa =>
        rw [hzero, hmantissa]
        rfl
      · next hmantissa => exact pack_subnormal sign hzero _
    · exact pack_normal sign htop _

/-- Packing loses nothing of the components of a double. -/
theorem unpack_packComponents (sign : Sign) (e : BitVec 11) (m : BitVec 52) :
    UnpackedFloat.unpack Format.binary64 (packComponents Format.binary64 sign e m) =
      ofComponents sign e m := by
  have hsign : Sign.ofBitVec sign.toBitVec = sign := by cases sign <;> rfl
  rw [unpack_eq, unpackSign_packComponents, hsign, unpackExponent_packComponents,
    unpackMantissa_packComponents]

/-- Unpacking undoes packing. -/
theorem unpack_pack_ofComponents (sign : Sign) (e : BitVec 11) (m : BitVec 52) :
    UnpackedFloat.unpack Format.binary64 (UnpackedFloat.pack Format.binary64
      (ofComponents sign e m)) = ofComponents sign e m := by
  by_cases hm : e = -1#11 → m = 0#52
  · rw [pack_ofComponents hm, unpack_packComponents]
  · obtain ⟨he, hm⟩ := Classical.not_imp.mp hm
    have hmantissa : (1#52 <<< 51 : BitVec 52) ≠ 0#52 := by decide
    rw [ofComponents_eq_notANumber he hm]
    exact (unpack_packComponents _ _ _).trans (ofComponents_eq_notANumber rfl hmantissa _)

/-- An unpacked double with another sign is found again when it has been packed. -/
theorem unpack_pack_withSign (sign : Sign) (b : BitVec Format.binary64.numBits) :
    UnpackedFloat.unpack Format.binary64 (UnpackedFloat.pack Format.binary64
      (withSign sign (UnpackedFloat.unpack Format.binary64 b))) =
      withSign sign (UnpackedFloat.unpack Format.binary64 b) := by
  rw [unpack_eq b, withSign_ofComponents, unpack_pack_ofComponents]

/-- A word of 64 bits is its first bit, the next eleven and the last 52. -/
theorem extractLsb'_append (x : BitVec 64) :
    x.extractLsb' 63 1 ++ x.extractLsb' 52 11 ++ x.extractLsb' 0 52 = x := by
  have hupper : x.extractLsb' 63 1 ++ x.extractLsb' 52 11 = x.extractLsb' 52 12 :=
    BitVec.extractLsb'_append_extractLsb'_eq_extractLsb' rfl
  have hwhole : x.extractLsb' 52 12 ++ x.extractLsb' 0 52 = x.extractLsb' 0 64 :=
    BitVec.extractLsb'_append_extractLsb'_eq_extractLsb' rfl
  rw [hupper]
  exact hwhole.trans BitVec.extractLsb'_eq_self

/-- A double is put together from its sign, its exponent and its mantissa. -/
theorem packComponents_unpack (b : BitVec Format.binary64.numBits) :
    packComponents Format.binary64 (.ofBitVec (unpackSign b)) (unpackExponent b)
      (unpackMantissa b) = b := by
  have hsign : (Sign.ofBitVec (unpackSign b)).toBitVec = unpackSign b := by
    unfold Sign.ofBitVec
    rcases BitVec.eq_zero_or_eq_one (unpackSign b) with h | h <;> rw [h] <;> rfl
  unfold packComponents
  rw [hsign]
  exact extractLsb'_append b

/-- Packing undoes unpacking. -/
theorem pack_unpack {b : BitVec Format.binary64.numBits} (hvalid : Format.binary64.Valid b) :
    UnpackedFloat.pack Format.binary64 (UnpackedFloat.unpack Format.binary64 b) = b := by
  rw [unpack_eq]
  by_cases hm : unpackExponent b = -1#11 → unpackMantissa b = 0#52
  · rw [pack_ofComponents hm, packComponents_unpack]
  · obtain ⟨he, hm⟩ := Classical.not_imp.mp hm
    rw [ofComponents_eq_notANumber he hm, hvalid.eq_packedNaN he hm]
    rfl

/-- A double is determined by what it is unpacked to. -/
theorem eq_of_unpack_eq {x y : Float} (h : x.toModel.unpack = y.toModel.unpack) : x = y := by
  obtain ⟨⟨x, hx⟩⟩ := x
  obtain ⟨⟨y, hy⟩⟩ := y
  have hbits : x.toBitVec = y.toBitVec := by
    rw [← pack_unpack hx, ← pack_unpack hy]
    exact congrArg (UnpackedFloat.pack Format.binary64) h
  cases UInt64.eq_of_toBitVec_eq hbits
  rfl

/-- The negation of an unpacked double has another sign and is otherwise the same. -/
theorem exists_neg_eq_withSign (u : UnpackedFloat) : ∃ sign, u.neg = withSign sign u := by
  cases u with
  | notANumber => exact ⟨.positive, rfl⟩
  | infinity sign | zero sign | finite sign => exact ⟨-sign, rfl⟩

/-- The magnitude of an unpacked double is the double with a positive sign. -/
theorem abs_eq_withSign (u : UnpackedFloat) : u.abs = withSign .positive u := by
  cases u <;> rfl

/-- Only what is no number has a negation that is no number. -/
theorem neg_eq_notANumber {u : UnpackedFloat} : u.neg = .notANumber ↔ u = .notANumber := by
  cases u with
  | notANumber => exact Iff.rfl
  | infinity | zero | finite => constructor <;> intro h <;> cases h

/-- Only what is no number has a magnitude that is no number. -/
theorem abs_eq_notANumber {u : UnpackedFloat} : u.abs = .notANumber ↔ u = .notANumber := by
  cases u with
  | notANumber => exact Iff.rfl
  | infinity | zero | finite => constructor <;> intro h <;> cases h

/-- Negation commutes with unpacking. -/
theorem unpack_neg (x : Float) : (-x).toModel.unpack = x.toModel.unpack.neg := by
  obtain ⟨sign, hsign⟩ := exists_neg_eq_withSign x.toModel.unpack
  have hpack := unpack_pack_withSign sign x.toModel.toBits.toBitVec
  rw [hsign]
  refine Eq.trans ?_ hpack
  exact congrArg (fun u => UnpackedFloat.unpack Format.binary64 (UnpackedFloat.pack _ u)) hsign

/-- The magnitude commutes with unpacking. -/
theorem unpack_abs (x : Float) : x.abs.toModel.unpack = x.toModel.unpack.abs := by
  have hpack := unpack_pack_withSign .positive x.toModel.toBits.toBitVec
  rw [abs_eq_withSign]
  refine Eq.trans ?_ hpack
  exact congrArg (fun u => UnpackedFloat.unpack Format.binary64 (UnpackedFloat.pack _ u))
    (abs_eq_withSign x.toModel.unpack)

/-- Finite doubles compare equal if they are the same number. -/
theorem finite_eq_of_compare_eq {m m' : Nat} {e e' : Int}
    (h : (compare e e').then (compare m m') = .eq) : m = m' ∧ e = e' := by
  rw [Ordering.then_eq_eq, compare_eq_iff_eq, compare_eq_iff_eq] at h
  exact h.symm

/-- Unpacked doubles that compare equal are the same number, or are both zero. -/
theorem eq_of_beq {u v : UnpackedFloat} (h : u.beq v = true) :
    (u = v ∧ u ≠ .notANumber) ∨ ∃ s s', u = .zero s ∧ v = .zero s' := by
  have hcompare : u.compare v = some .eq := beq_iff_eq.mp h
  cases u with
  | notANumber => cases hcompare
  | infinity s =>
    cases v with
    | infinity s' => cases s <;> cases s' <;> first | exact .inl ⟨rfl, nofun⟩ | cases hcompare
    | notANumber => cases hcompare
    | zero | finite => cases s <;> cases hcompare
  | zero s =>
    cases v with
    | zero s' => exact .inr ⟨s, s', rfl, rfl⟩
    | notANumber => cases hcompare
    | infinity s' | finite s' => cases s' <;> cases hcompare
  | finite s m e hm =>
    cases v with
    | notANumber => cases s <;> cases hcompare
    | zero => cases s <;> cases hcompare
    | infinity s' => cases s' <;> cases hcompare
    | finite s' m' e' hm' =>
      cases s with
      | positive =>
        cases s' with
        | positive =>
          obtain ⟨rfl, rfl⟩ := finite_eq_of_compare_eq (Option.some.inj hcompare)
          exact .inl ⟨rfl, nofun⟩
        | negative => cases hcompare
      | negative =>
        cases s' with
        | positive => cases hcompare
        | negative =>
          obtain ⟨rfl, rfl⟩ := finite_eq_of_compare_eq
            (Ordering.swap_eq_eq.mp (Option.some.inj hcompare))
          exact .inl ⟨rfl, nofun⟩

/-- Every number compares equal to itself. -/
theorem beq_self {u : UnpackedFloat} (hu : u ≠ .notANumber) : u.beq u = true := by
  refine beq_iff_eq.mpr ?_
  cases u with
  | notANumber => exact absurd rfl hu
  | infinity s => cases s <;> rfl
  | zero s => rfl
  | finite s m e hm =>
    have hsame : (compare e e).then (compare m m) = .eq := by
      rw [Ordering.then_eq_eq, compare_eq_iff_eq, compare_eq_iff_eq]
      exact ⟨rfl, rfl⟩
    cases s with
    | positive => exact congrArg some hsame
    | negative => exact congrArg some (congrArg Ordering.swap hsame)

/-- Unpacked doubles compare equal if they are the same number or both zero. -/
theorem beq_eq_true_iff {u v : UnpackedFloat} : u.beq v = true ↔
    (u = v ∧ u ≠ .notANumber) ∨ ∃ s s', u = .zero s ∧ v = .zero s' := by
  refine ⟨eq_of_beq, ?_⟩
  rintro (⟨rfl, hu⟩ | ⟨s, s', rfl, rfl⟩)
  · exact beq_self hu
  · rfl

/-- Doubles are equal exactly if they are the same number or are both zero. -/
theorem equal_iff {x y : Float} : Scalar.equal x y = true ↔
    (x.toModel.unpack = y.toModel.unpack ∧ x.toModel.unpack ≠ .notANumber) ∨
      ∃ s s', x.toModel.unpack = .zero s ∧ y.toModel.unpack = .zero s' :=
  beq_eq_true_iff

/-- A double is negative exactly if it is unpacked to less than zero. -/
theorem isNegative_iff {x : Float} : Scalar.isNegative x = true ↔
    UnpackedFloat.lt x.toModel.unpack (.zero .positive) = true := by
  have hzero : (0 : Float).toModel.unpack = .zero .positive := rfl
  have hlt : x.toModel < (0 : Float).toModel ↔
      UnpackedFloat.lt x.toModel.unpack (0 : Float).toModel.unpack = true := Iff.rfl
  rw [isNegative_eq, decide_eq_true_iff, ← hzero, ← hlt]
  exact decide_eq_true_iff

instance : LawfulComparison Float where
  equal_symm h := by
    rw [equal_iff] at h ⊢
    rcases h with ⟨h, hnumber⟩ | ⟨s, s', hx, hy⟩
    · exact .inl ⟨h.symm, h ▸ hnumber⟩
    · exact .inr ⟨s', s, hy, hx⟩
  equal_trans hab hbc := by
    rw [equal_iff] at hab hbc ⊢
    rcases hab with ⟨hab, hnumber⟩ | ⟨s, s', ha, hb⟩
    · rw [hab]
      exact hbc
    · rcases hbc with ⟨hbc, -⟩ | ⟨-, s'', -, hc⟩
      · exact .inr ⟨s, s', ha, hbc ▸ hb⟩
      · exact .inr ⟨s, s'', ha, hc⟩
  zero_ne_one := by decide

instance : LawfulSign Float where
  neg_neg a := by
    refine eq_of_unpack_eq ?_
    rw [unpack_neg, unpack_neg]
    cases a.toModel.unpack with
    | notANumber => rfl
    | infinity s | zero s | finite s => cases s <;> rfl
  abs_neg a := by
    refine eq_of_unpack_eq ((unpack_abs _).trans (Eq.trans ?_ (unpack_abs _).symm))
    rw [unpack_neg]
    cases a.toModel.unpack <;> rfl
  abs_eq a := by
    have habs : a.toModel.unpack.abs = a.toModel.unpack ∨
        a.toModel.unpack.abs = a.toModel.unpack.neg := by
      cases a.toModel.unpack with
      | notANumber => exact .inl rfl
      | infinity s | zero s | finite s =>
        cases s with
        | positive => exact .inl rfl
        | negative => exact .inr rfl
    refine habs.imp (fun h => eq_of_unpack_eq ?_) fun h => eq_of_unpack_eq ?_
    · exact (unpack_abs a).trans h
    · exact ((unpack_abs a).trans h).trans (unpack_neg a).symm
  isNegative_congr h := by
    rw [Bool.eq_iff_iff, isNegative_iff, isNegative_iff]
    rcases equal_iff.mp h with ⟨h, -⟩ | ⟨s, s', ha, hb⟩
    · rw [h]
    · rw [ha, hb]
      rfl
  equal_neg h := by
    rw [equal_iff] at h ⊢
    rw [unpack_neg, unpack_neg]
    rcases h with ⟨h, hnumber⟩ | ⟨s, s', ha, hb⟩
    · exact .inl ⟨by rw [h], fun hneg => hnumber (neg_eq_notANumber.mp hneg)⟩
    · exact .inr ⟨-s, -s', by rw [ha]; rfl, by rw [hb]; rfl⟩
  equal_abs {a b} h := by
    have habs (x : Float) : (Scalar.abs x).toModel.unpack = x.toModel.unpack.abs := unpack_abs x
    rw [equal_iff] at h ⊢
    rw [habs, habs]
    rcases h with ⟨h, hnumber⟩ | ⟨s, s', ha, hb⟩
    · exact .inl ⟨by rw [h], fun hmagnitude => hnumber (abs_eq_notANumber.mp hmagnitude)⟩
    · exact .inr ⟨.positive, .positive, by rw [ha]; rfl, by rw [hb]; rfl⟩
  abs_euler := by decide
  abs_pi := by decide

end Univariate.Double
