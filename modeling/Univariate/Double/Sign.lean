/-!
# The sign of a double's magnitude

A double is packed into a sign bit, an exponent and a mantissa. Taking the magnitude clears the sign
bit, so that no magnitude is below zero.
-/

namespace Univariate.Double

open Float.Model Float.Model.UnpackedFloat

/-- Unpacking finds the sign that was packed. -/
theorem unpackSign_packComponents {spec : Format} (sign : Sign)
    (exponent : BitVec spec.exponentBits) (mantissa : BitVec spec.mantissaBitsWithoutImplicit) :
    unpackSign (packComponents spec sign exponent mantissa) = sign.toBitVec := by
  unfold unpackSign packComponents
  ext i hi
  have hzero : i = 0 := by omega
  subst hzero
  have hlow : ¬ spec.mantissaBitsWithoutImplicit + spec.exponentBits <
      spec.mantissaBitsWithoutImplicit := by omega
  simp [BitVec.getLsbD_append, BitVec.getElem_append, hlow]

/-- The sign of an unpacked double is positive, unless it is no number. -/
def HasPositiveSign : UnpackedFloat → Prop
  | .notANumber => True
  | .infinity sign => sign = .positive
  | .zero sign => sign = .positive
  | .finite sign _ _ _ => sign = .positive

/-- A magnitude has a positive sign. -/
theorem hasPositiveSign_abs (u : UnpackedFloat) : HasPositiveSign u.abs := by
  cases u with
  | notANumber => trivial
  | infinity | zero | finite => rfl

/-- A choice between doubles with positive signs has one. -/
theorem hasPositiveSign_dite {c : Prop} [Decidable c] {u : c → UnpackedFloat}
    {v : ¬ c → UnpackedFloat} (hu : ∀ h, HasPositiveSign (u h)) (hv : ∀ h, HasPositiveSign (v h)) :
    HasPositiveSign (dite c u v) := by
  by_cases h : c
  · rw [dif_pos h]
    exact hu h
  · rw [dif_neg h]
    exact hv h

/-- A choice between doubles with positive signs has one, whatever the condition is. -/
theorem hasPositiveSign_ite {c : Prop} [Decidable c] {u v : UnpackedFloat}
    (hu : HasPositiveSign u) (hv : HasPositiveSign v) : HasPositiveSign (ite c u v) :=
  hasPositiveSign_dite (fun _ => hu) (fun _ => hv)

/-- A clear sign bit is read as a positive sign. -/
theorem hasPositiveSign_unpack {b : BitVec Format.binary64.numBits}
    (hsign : unpackSign b = 0#1) : HasPositiveSign (UnpackedFloat.unpack Format.binary64 b) := by
  have hpositive : Sign.ofBitVec (unpackSign b) = .positive := by
    rw [hsign]
    rfl
  exact hasPositiveSign_ite (hasPositiveSign_ite hpositive trivial)
    (hasPositiveSign_ite (hasPositiveSign_dite (fun _ => hpositive) (fun _ => hpositive)) hpositive)

/-- A positive sign is packed as a clear sign bit. -/
theorem unpackSign_pack {u : UnpackedFloat} (hu : HasPositiveSign u) :
    unpackSign (UnpackedFloat.pack Format.binary64 u) = 0#1 := by
  have hcomponents := @unpackSign_packComponents Format.binary64 .positive
  cases u with
  | notANumber => exact hcomponents _ _
  | infinity sign =>
    cases hu
    exact hcomponents _ _
  | zero sign =>
    cases hu
    exact hcomponents _ _
  | finite sign mantissa exponent hmantissa =>
    cases hu
    unfold UnpackedFloat.pack
    dsimp only
    split
    · exact hcomponents _ _
    · split <;> exact hcomponents _ _

/-- A double with a positive sign is not below zero. -/
theorem not_lt_zero_of_hasPositiveSign {u : UnpackedFloat} (hu : HasPositiveSign u) :
    UnpackedFloat.lt u (.zero .positive) = false := by
  cases u with
  | notANumber => rfl
  | infinity | zero | finite => cases hu; rfl

/-- The magnitude of a double is not below zero. -/
theorem abs_not_lt_zero (x : Float) : ¬ x.abs < 0 := by
  have hpositive : HasPositiveSign (Float.Model.unpack x.abs.toModel) :=
    hasPositiveSign_unpack (unpackSign_pack (hasPositiveSign_abs x.toModel.unpack))
  have hzero : Float.Model.unpack (0 : Float).toModel = .zero .positive := rfl
  have hlt := not_lt_zero_of_hasPositiveSign hpositive
  rw [← hzero] at hlt
  intro h
  have hmodel : x.abs.toModel < (0 : Float).toModel := of_decide_eq_true h
  have htrue : UnpackedFloat.lt x.abs.toModel.unpack (0 : Float).toModel.unpack = true := hmodel
  rw [hlt] at htrue
  exact Bool.false_ne_true htrue

end Univariate.Double
