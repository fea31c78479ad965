import Mathlib
import Univariate.Double
import Univariate.Proofs.RenderedText

/-!
# Numbers as they are shown

A magnitude is shown as an unsigned numeral. Its text has at least one digit and at most one point,
unless it is the name of an infinity or of an undefined value, so that it is read as a number.
-/

namespace Univariate

/-- A digit is read as it is written. -/
theorem read_of_isDigit {c : Char} (h : c.isDigit = true) : isBlank c = false ∧ readAs c = c := by
  have hcomma : c ≠ ',' := by
    rintro rfl
    cases h
  rw [Char.isDigit, Bool.and_eq_true, decide_eq_true_eq, decide_eq_true_eq] at h
  have hlow : 48 ≤ c.toNat := UInt32.le_iff_toNat_le.mp h.1
  have hhigh : c.toNat ≤ 57 := UInt32.le_iff_toNat_le.mp h.2
  constructor
  · refine Bool.eq_false_iff.mpr fun hblank => ?_
    obtain ⟨range, hrange, hin⟩ := exists_blankRange hblank
    fin_cases hrange <;> simp at hin <;> omega
  · have hcapital : ¬(c.val ≥ 'A'.val ∧ c.val ≤ 'Z'.val) := fun hcapital => by
      have hletter : 65 ≤ c.toNat := UInt32.le_iff_toNat_le.mp hcapital.1
      omega
    rw [readAs, if_neg hcomma, Char.toLower, dif_neg hcapital]

/-- The digits of a decimal are read as they are written. -/
theorem cleaned_of_digits {w : List Char} (h : w.all Char.isDigit = true) : cleaned w = w := by
  induction w with
  | nil => rfl
  | cons c w ih =>
    rw [List.all_cons, Bool.and_eq_true] at h
    obtain ⟨hvisible, hread⟩ := read_of_isDigit h.1
    rw [cleaned_cons hvisible, hread, ih h.2]

/-- The decimal digits of a number are digits. -/
theorem all_isDigit_toDigits (n : ℕ) : (Nat.toDigits 10 n).all Char.isDigit = true :=
  List.all_eq_true.mpr fun _ hc => Nat.isDigit_of_mem_toDigits (by decide) le_rfl hc

/-- Zeros are digits. -/
theorem all_isDigit_zeros (n : ℕ) : (List.replicate n '0').all Char.isDigit = true :=
  List.all_eq_true.mpr fun _ hc => List.eq_of_mem_replicate hc ▸ rfl

namespace Decimal

/-- Digits are read as a decimal. -/
theorem exists_ofText?_digits {w : List Char} (h : w.all Char.isDigit = true) (hne : w ≠ []) :
    ∃ d, ofText? (cleaned w) = some d := by
  rw [cleaned_of_digits h]
  exact ⟨_, ofText?_eq_some_iff.mpr (.inl ⟨h, hne, rfl⟩)⟩

/-- Digits with a point among them are read as a decimal. -/
theorem exists_ofText?_insertPoint {digits : List Char} (h : digits.all Char.isDigit = true)
    (hne : digits ≠ []) (places : ℕ) :
    ∃ d, ofText? (cleaned (insertPoint digits places)) = some d := by
  unfold insertPoint
  dsimp only
  generalize hpadded : List.replicate (places + 1 - digits.length) '0' ++ digits = padded
  have hall : padded.all Char.isDigit = true := by
    rw [← hpadded, List.all_append, all_isDigit_zeros, h]
    rfl
  generalize padded.length - places = whole
  have hparts := List.take_append_drop whole padded
  rw [← hparts, List.all_append, Bool.and_eq_true] at hall
  obtain ⟨hwhole, hfraction⟩ := hall
  have hpoint : cleaned (padded.take whole ++ '.' :: padded.drop whole) =
      padded.take whole ++ '.' :: padded.drop whole := by
    rw [cleaned_append, cleaned_cons (by decide), cleaned_of_digits hwhole,
      cleaned_of_digits hfraction]
    rfl
  have hpadded : padded ≠ [] := by
    rw [← hpadded]
    exact List.append_ne_nil_of_right_ne_nil _ hne
  rw [hpoint]
  exact ⟨_, ofText?_eq_some_iff.mpr
    (.inr ⟨_, _, rfl, hwhole, hfraction, hparts.trans_ne hpadded, rfl⟩)⟩

/-- The text of a decimal is read as a decimal. -/
theorem exists_ofText?_text (d : Decimal) : ∃ d', ofText? (cleaned d.text) = some d' := by
  have hdigits := all_isDigit_toDigits d.coefficient
  have hne : Nat.toDigits 10 d.coefficient ≠ [] := Nat.toDigits_ne_nil
  unfold text
  dsimp only
  split
  · exact exists_ofText?_digits rfl (List.cons_ne_nil _ _)
  · split
    · refine exists_ofText?_digits ?_ (List.append_ne_nil_of_left_ne_nil hne _)
      rw [List.all_append, hdigits, all_isDigit_zeros]
      rfl
    · exact exists_ofText?_insertPoint hdigits hne _

end Decimal

/-- Whether a numeral is written without a minus. -/
def Numeral.IsUnsigned : Numeral → Prop
  | .undefined => True
  | .infinite negative | .finite negative _ => negative = false

/-- The text of an unsigned numeral is read as a number. -/
theorem Numeral.IsUnsigned.exists_numeralOf? {n : Numeral} (h : n.IsUnsigned) :
    ∃ n', numeralOf? (cleaned n.text) = some n' := by
  cases n with
  | undefined => exact ⟨.undefined, by decide⟩
  | infinite negative =>
    cases h
    exact ⟨.infinite false, by decide⟩
  | finite negative d =>
    cases h
    obtain ⟨d', hd⟩ := d.exists_ofText?_text
    exact ⟨.finite false d', by rw [text, signed, if_neg Bool.false_ne_true, numeralOf?, hd]⟩

namespace Double

open Float.Model

/-- The sign bit of a magnitude is clear. -/
theorem signBit_abs (x : Float) : x.abs.toBits.toNat >>> 63 = 0 := by
  have hsign : @UnpackedFloat.unpackSign Format.binary64 x.abs.toBits.toBitVec = 0#1 :=
    unpackSign_pack (hasPositiveSign_abs x.toModel.unpack)
  have hbit := congrArg BitVec.toNat hsign
  unfold UnpackedFloat.unpackSign at hbit
  rw [BitVec.toNat_cast, BitVec.extractLsb_toNat] at hbit
  have hlast : (x.abs.toBits.toNat >>> 63) % 2 = 0 := hbit
  have hlt := x.abs.toBits.toNat_lt
  rw [Nat.shiftRight_eq_div_pow] at hlast ⊢
  omega

/-- A magnitude is shown without a minus. -/
theorem isUnsigned_toNumeral_abs (x : Float) : (toNumeral x.abs).IsUnsigned := by
  have hsign : decide (x.abs.toBits.toNat >>> 63 = 1) = false := by
    rw [signBit_abs]
    rfl
  unfold toNumeral
  dsimp only
  rw [hsign]
  split
  · split
    · rfl
    · trivial
  · split <;> rfl

/-- The text of a magnitude is read as a number. -/
theorem exists_numeralOf?_abs (a : Float) :
    ∃ n, numeralOf? (cleaned (numberText (Scalar.abs a))) = some n :=
  (isUnsigned_toNumeral_abs a).exists_numeralOf?

end Double

end Univariate
