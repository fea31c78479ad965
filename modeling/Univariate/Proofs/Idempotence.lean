import Univariate.Proofs.ExactLaws
import Univariate.Proofs.NormalForm

/-!
# Simplification is idempotent

Simplifying a settled tree to a stable precision takes no step. The nodes need no argument, since no
rule applies to them; what has to be shown is that a rounded leaf, also one that a rounded value was
replaced by, is the leaf of its own value. Conversely, a run that takes no step has changed nothing
but the operands that were constant and no leaves.
-/

namespace Univariate

variable {α : Type} [Scalar α]

/-- Euler's number or `π`, if a magnitude is that of the constant rounded to the same precision. -/
def constantRoundedTo? (d : Decimals) (magnitude : α) : Option α :=
  if d = .unrounded then none
  else [Scalar.euler, Scalar.pi].find? fun c => Scalar.equal magnitude (d.round c)

/-- A number that is rounded to a rounded constant becomes the leaf of the constant. -/
theorem roundedLeaf_of_constant {d : Decimals} {a c : α}
    (h : constantRoundedTo? d (Scalar.abs (d.round a)) = some c) :
    roundedLeaf d a = .num (Scalar.isNegative (d.round a)) (Scalar.abs c) := by
  unfold constantRoundedTo? at h
  split at h
  · cases h
  · next hd => simp only [roundedLeaf, if_neg hd, h, Expr.ofNumber, Expr.withNegative]

/-- A number that is rounded to no rounded constant becomes its own leaf. -/
theorem roundedLeaf_of_no_constant {d : Decimals} {a : α}
    (h : constantRoundedTo? d (Scalar.abs (d.round a)) = none) :
    roundedLeaf d a = .ofNumber (d.round a) := by
  unfold constantRoundedTo? at h
  split at h
  · next hd => simp only [roundedLeaf, if_pos hd]
  · next hd => simp only [roundedLeaf, if_neg hd, h]

/-- Magnitudes that are equal are rounded to the same constant. -/
theorem constantRoundedTo?_congr [LawfulComparison α] (d : Decimals) {m n : α}
    (h : Scalar.equal m n = true) : constantRoundedTo? d m = constantRoundedTo? d n := by
  have hcompare : (fun c => Scalar.equal m (d.round c)) = fun c => Scalar.equal n (d.round c) :=
    funext fun c => Scalar.equal_congr h _
  rw [constantRoundedTo?, constantRoundedTo?, hcompare]

/-- A magnitude that is replaced by a constant equals the rounded constant. -/
theorem equal_of_constantRoundedTo? {d : Decimals} {m c : α}
    (h : constantRoundedTo? d m = some c) : Scalar.equal m (d.round c) = true := by
  unfold constantRoundedTo? at h
  split at h
  · cases h
  · exact (List.find?_eq_some_iff_append.mp h).1

/-- A magnitude is replaced by Euler's number or `π` only. -/
theorem mem_constants_of_constantRoundedTo? {d : Decimals} {m c : α}
    (h : constantRoundedTo? d m = some c) : c ∈ [Scalar.euler, Scalar.pi] := by
  unfold constantRoundedTo? at h
  split at h
  · cases h
  · exact List.mem_of_find?_eq_some h

/-- The constants are their own magnitudes. -/
theorem abs_of_mem_constants [LawfulSign α] {c : α} (hc : c ∈ [Scalar.euler, Scalar.pi]) :
    Scalar.abs c = c := by
  simp only [List.mem_cons, List.not_mem_nil, or_false] at hc
  rcases hc with rfl | rfl
  · exact LawfulSign.abs_euler
  · exact LawfulSign.abs_pi

/-- The constant that a magnitude is replaced by is its own magnitude. -/
theorem abs_of_constantRoundedTo? [LawfulSign α] {d : Decimals} {m c : α}
    (h : constantRoundedTo? d m = some c) : Scalar.abs c = c :=
  abs_of_mem_constants (mem_constants_of_constantRoundedTo? h)

section Stable

variable [LawfulScalar α] [LawfulSign α] {d : Decimals}

/-- The magnitude of a number with its sign is the number or its negation. -/
theorem negateNumberIf_abs_eq (a : α) :
    negateNumberIf (Scalar.isNegative a) (Scalar.abs a) = a ∨
      negateNumberIf (Scalar.isNegative a) (Scalar.abs a) = -a := by
  cases hsign : Scalar.isNegative a with
  | false => exact LawfulSign.abs_eq a
  | true => exact .inl (Scalar.neg_abs_of_isNegative hsign)

/-- The magnitude of a number with its sign has that sign and that magnitude. -/
theorem ofNumber_negateNumberIf_abs (a : α) :
    Expr.ofNumber (negateNumberIf (Scalar.isNegative a) (Scalar.abs a)) = Expr.ofNumber a := by
  cases hsign : Scalar.isNegative a with
  | true =>
    have hself : negateNumberIf true (Scalar.abs a) = a := Scalar.neg_abs_of_isNegative hsign
    rw [hself]
  | false =>
    rw [negateNumberIf, if_neg Bool.false_ne_true, Expr.ofNumber, Expr.ofNumber, hsign,
      Scalar.abs_abs, LawfulScalar.abs_not_negative]

namespace Decimals.IsStable

variable (hd : d.IsStable α)

include hd

omit [LawfulScalar α] [LawfulSign α] in
/-- Stable rounding commutes with a change of the sign. -/
theorem round_negateNumberIf (negative : Bool) (a : α) :
    d.round (negateNumberIf negative a) = negateNumberIf negative (d.round a) := by
  cases negative with
  | false => rfl
  | true => exact hd.round_neg a

/-- The leaf of a value that no constant took the place of is the leaf of its own value. -/
theorem roundedLeaf_of_no_constant {a : α}
    (h : constantRoundedTo? d (Scalar.abs (d.round a)) = none) :
    roundedLeaf d (negateNumberIf (Scalar.isNegative (d.round a)) (Scalar.abs (d.round a))) =
      .ofNumber (d.round a) := by
  have hround : d.round (negateNumberIf (Scalar.isNegative (d.round a))
      (Scalar.abs (d.round a))) =
        negateNumberIf (Scalar.isNegative (d.round a)) (Scalar.abs (d.round a)) := by
    rcases negateNumberIf_abs_eq (d.round a) with hself | hneg
    · rw [hself, hd.round_round]
    · rw [hneg, hd.round_neg, hd.round_round]
  have habs : Scalar.abs (negateNumberIf (Scalar.isNegative (d.round a))
      (Scalar.abs (d.round a))) = Scalar.abs (d.round a) := by
    rcases negateNumberIf_abs_eq (d.round a) with hself | hneg
    · rw [hself]
    · rw [hneg, LawfulSign.abs_neg]
  rw [Univariate.roundedLeaf_of_no_constant (by rw [hround, habs]; exact h), hround,
    ofNumber_negateNumberIf_abs]

/-- A constant that has taken the place of a rounded value keeps its sign when it is rounded. -/
theorem isNegative_round_constant {a c : α}
    (h : constantRoundedTo? d (Scalar.abs (d.round a)) = some c) :
    Scalar.isNegative (d.round (negateNumberIf (Scalar.isNegative (d.round a)) c)) =
      Scalar.isNegative (d.round a) := by
  rw [hd.round_negateNumberIf]
  cases hsign : Scalar.isNegative (d.round a) with
  | false =>
    have hc : Scalar.isNegative c = false := by
      rw [← abs_of_constantRoundedTo? h]
      exact LawfulScalar.abs_not_negative c
    exact Decimals.round_not_negative d hc
  | true =>
    -- The rounded value is the negation of its magnitude, which the rounded constant equals.
    have hneg := LawfulSign.equal_neg (equal_of_constantRoundedTo? h)
    rw [Scalar.neg_abs_of_isNegative hsign] at hneg
    exact (LawfulSign.isNegative_congr hneg).symm.trans hsign

/-- The leaf of a constant that took the place of a rounded value is the leaf of its own value. -/
theorem roundedLeaf_of_constant {a c : α}
    (h : constantRoundedTo? d (Scalar.abs (d.round a)) = some c) :
    roundedLeaf d (negateNumberIf (Scalar.isNegative (d.round a)) (Scalar.abs c)) =
      .num (Scalar.isNegative (d.round a)) (Scalar.abs c) := by
  have habs (negative : Bool) : Scalar.abs (negateNumberIf negative (d.round c)) =
      Scalar.abs (d.round c) := by
    cases negative with
    | false => rfl
    | true => exact LawfulSign.abs_neg _
  have hequal := LawfulSign.equal_abs (equal_of_constantRoundedTo? h)
  rw [Scalar.abs_abs] at hequal
  have hsame := h
  rw [constantRoundedTo?_congr d hequal, ← habs (Scalar.isNegative (d.round a)),
    ← hd.round_negateNumberIf] at hsame
  rw [abs_of_constantRoundedTo? h, Univariate.roundedLeaf_of_constant hsame,
    hd.isNegative_round_constant h, abs_of_constantRoundedTo? h]

/-- A rounded leaf is the leaf of its own value. -/
theorem roundedLeaf_of_constant?_roundedLeaf {a b : α}
    (h : (roundedLeaf d a).constant? = some b) : roundedLeaf d b = roundedLeaf d a := by
  cases hconstant : constantRoundedTo? d (Scalar.abs (d.round a)) with
  | none =>
    rw [Univariate.roundedLeaf_of_no_constant hconstant] at h ⊢
    cases h
    exact hd.roundedLeaf_of_no_constant hconstant
  | some c =>
    rw [Univariate.roundedLeaf_of_constant hconstant] at h ⊢
    cases h
    exact hd.roundedLeaf_of_constant hconstant

/-- Folding a rounded leaf is not a step. -/
theorem foldConstant?_roundedLeaf [DecidableEq α] (a : α) :
    foldConstant? d (roundedLeaf d a) = some (roundedLeaf d a, []) := by
  obtain ⟨negative, magnitude, ha⟩ := exists_roundedLeaf_eq d a
  have hvalue : (roundedLeaf d a).constant? = some (negateNumberIf negative magnitude) := by
    rw [ha]
    rfl
  rw [foldConstant?, hvalue, Option.map_some]
  dsimp only
  rw [hd.roundedLeaf_of_constant?_roundedLeaf hvalue, if_pos rfl]

end Decimals.IsStable

end Stable

variable [DecidableEq α]

/-- A settled tree is simplified to a stable precision without a step. -/
theorem Settled.simplifies [LawfulScalar α] [LawfulSign α] {d : Decimals} (hd : d.IsStable α)
    {t : Expr α} (h : Settled d t) : Simplifies d t t [] := by
  induction h with
  | var negative => exact .var d negative
  | num a => exact .constant (hd.foldConstant?_roundedLeaf a)
  | unary _ hvar ih =>
    exact .unary (foldConstant?_eq_none_iff.mpr hvar) ih (foldConstant?_eq_none_iff.mpr hvar)
  | binary ha hb hvar hrule iha ihb =>
    have hfolded := hvar
    rw [← ha.folded_eq, ← hb.folded_eq] at hfolded hrule
    have hrun := Simplifies.binary (foldConstant?_eq_none_iff.mpr hvar) iha ihb
      (foldConstant?_eq_none_iff.mpr hfolded) hrule
    rw [ha.folded_eq, hb.folded_eq] at hrun
    exact hrun

/-- Whether the constant operands of the nodes with two operands are leaves. -/
def Expr.HasFoldedOperands : Expr α → Prop
  | .var _ | .num _ _ => True
  | .unary _ _ a => a.HasFoldedOperands
  | .binary _ _ a b =>
    a.folded = a ∧ b.folded = b ∧ a.HasFoldedOperands ∧ b.HasFoldedOperands

/-- A constant tree that is folded without a step is kept. -/
theorem eq_of_foldConstant?_of_nil {d : Decimals} {t r : Expr α} {steps : List Step}
    (h : foldConstant? d t = some (r, steps)) (hsteps : steps = []) : r = t := by
  obtain ⟨a, -, ha⟩ := Option.map_eq_some_iff.mp h
  cases ha
  by_contra hne
  rw [if_neg hne] at hsteps
  cases hsteps

/-- A run that takes no step leaves a tree with folded operands as it was. -/
theorem Simplifies.eq_of_nil {d : Decimals} {t r : Expr α} {steps : List Step}
    (h : Simplifies d t r steps) (ht : t.HasFoldedOperands) (hsteps : steps = []) : r = t := by
  induction h with
  | constant hfold => exact eq_of_foldConstant?_of_nil hfold hsteps
  | var => rfl
  | unaryConstant hfold _ hagain ih =>
    obtain ⟨hss, -⟩ := List.append_eq_nil_iff.mp hsteps
    rw [ih ht hss, hfold] at hagain
    cases hagain
  | unary _ _ _ ih => rw [ih ht hsteps]
  | binaryConstant hfold _ _ hagain iha ihb =>
    obtain ⟨hoperands, -⟩ := List.append_eq_nil_iff.mp hsteps
    obtain ⟨hss, hts⟩ := List.append_eq_nil_iff.mp hoperands
    obtain ⟨ha, hb, hta, htb⟩ := ht
    rw [iha hta hss, ihb htb hts, ha, hb, hfold] at hagain
    cases hagain
  | binary _ _ _ _ _ iha ihb =>
    obtain ⟨hss, hts⟩ := List.append_eq_nil_iff.mp hsteps
    obtain ⟨ha, hb, hta, htb⟩ := ht
    rw [iha hta hss, ihb htb hts, ha, hb]
  | replaced | rebuilt => cases (List.append_eq_nil_iff.mp hsteps).2

namespace Expr

variable [LawfulScalar α] [LawfulSign α]

/-- Simplifying a simplified tree takes no step and keeps it. -/
theorem simplifyWithSteps_simplify {d : Decimals} (hd : d.IsStable α) (t : Expr α) :
    (t.simplify d).simplifyWithSteps d = (t.simplify d, []) :=
  simplifies_iff.mp ((t.settled_simplify d).simplifies hd)

/-- Simplification to a stable precision is idempotent, and it takes no step exactly if it leaves
the tree as it was. -/
theorem simplify_idempotent {d : Decimals} (hd : d.IsStable α) (t : Expr α) :
    (t.simplify d).simplifyWithSteps d = (t.simplify d, []) ∧
      (t.HasFoldedOperands → ((t.simplifyWithSteps d).2 = [] ↔ t.simplify d = t)) := by
  refine ⟨simplifyWithSteps_simplify hd t, fun ht => ⟨fun hsteps => ?_, fun hsame => ?_⟩⟩
  · have hrun : Simplifies d t (t.simplify d) (t.simplifyWithSteps d).2 := simplifies_iff.mpr rfl
    exact hrun.eq_of_nil ht hsteps
  · have hagain := simplifyWithSteps_simplify hd t
    rw [hsame] at hagain
    rw [hagain]

/-- The tree `(x + 0) * 1` is simplified to two digits. -/
theorem simplify_idempotent_digits :
    let d : Decimals := .digits 2
    let t : Expr (Exact tangent?) :=
      .binary false .multiplication (.binary false .addition (.var false) (.num false 0))
        (.num false 1)
    d.IsStable (Exact tangent?) ∧ t.HasFoldedOperands ∧
      (t.simplify d).simplifyWithSteps d = (t.simplify d, []) ∧
        ((t.simplifyWithSteps d).2 = [] ↔ t.simplify d = t) := by
  intro d t
  have hfolded : t.HasFoldedOperands := ⟨rfl, rfl, ⟨rfl, rfl, trivial, trivial⟩, trivial⟩
  obtain ⟨hagain, hsteps⟩ := simplify_idempotent (Exact.isStable d) t
  exact ⟨Exact.isStable d, hfolded, hagain, hsteps hfolded⟩

end Expr

end Univariate
