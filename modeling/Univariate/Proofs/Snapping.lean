import Univariate.Proofs.Negation
import Univariate.Proofs.RoundingError

/-!
# Rounded constants

A folded number becomes Euler's number or `π` if its magnitude is rounded like that constant. The
two constants themselves, with either sign, are therefore kept by folding as long as they are not
rounded alike. On doubles zero digits are the only precision at which they are: both become three,
and whatever is rounded to three, `π` included, becomes Euler's number, which is looked for first.
-/

namespace Univariate

variable {α : Type} [Scalar α] {d : Decimals} {a c : α}

/-- A number is rounded to the same magnitude as Euler's number and as `π`. -/
def RoundsLikeBoth (d : Decimals) (a : α) : Prop :=
  ∀ c ∈ [Scalar.euler, Scalar.pi], Scalar.equal (Scalar.abs (d.round a)) (d.round c) = true

/-- Neither Euler's number nor `π` is nearer to the magnitude of a number than `c`. -/
def IsNearestTo (a c : α) : Prop :=
  ∀ c' ∈ [Scalar.euler, Scalar.pi],
    Scalar.less (Scalar.abs (Scalar.abs a - c')) (Scalar.abs (Scalar.abs a - c)) = false

section Signs

variable [LawfulScalar α] [LawfulNegation α]

/-- A rounded constant is its own magnitude. -/
theorem abs_round_constant (hc : c ∈ [Scalar.euler, Scalar.pi]) (d : Decimals) :
    Scalar.abs (d.round c) = d.round c := by
  refine (LawfulSign.abs_eq (d.round c)).resolve_right fun hneg => ?_
  have hbelow := isNegative_neg_round_constant hc d
  rw [← hneg, LawfulScalar.abs_not_negative] at hbelow
  cases hbelow

/-- A constant of either sign keeps the sign when it is rounded. -/
theorem isNegative_round_negateNumberIf (hc : c ∈ [Scalar.euler, Scalar.pi]) (d : Decimals)
    (negative : Bool) : Scalar.isNegative (d.round (negateNumberIf negative c)) = negative := by
  cases negative with
  | false =>
    exact d.round_not_negative (abs_of_mem_constants hc ▸ LawfulScalar.abs_not_negative c)
  | true =>
    show Scalar.isNegative (d.round (-c)) = true
    rw [d.round_neg]
    exact isNegative_neg_round_constant hc d

/-- The sign of a constant has no part in what its magnitude is rounded to. -/
theorem abs_round_negateNumberIf (hc : c ∈ [Scalar.euler, Scalar.pi]) (d : Decimals)
    (negative : Bool) : Scalar.abs (d.round (negateNumberIf negative c)) = d.round c := by
  cases negative with
  | false => exact abs_round_constant hc d
  | true =>
    show Scalar.abs (d.round (-c)) = d.round c
    rw [d.round_neg, LawfulSign.abs_neg]
    exact abs_round_constant hc d

/-- A constant of either sign becomes the first constant that is rounded like it, with that sign, or
stays as it is if nothing is rounded. -/
theorem roundedLeaf_negateNumberIf (hc : c ∈ [Scalar.euler, Scalar.pi]) (d : Decimals)
    (negative : Bool) : roundedLeaf d (negateNumberIf negative c) =
      .num negative ((constantRoundedTo? d (d.round c)).getD c) := by
  have hsign := isNegative_round_negateNumberIf hc d negative
  have hmagnitude := abs_round_negateNumberIf hc d negative
  cases hconstant : constantRoundedTo? d (d.round c) with
  | some c' =>
    rw [roundedLeaf_of_constant (hmagnitude ▸ hconstant), hsign,
      abs_of_constantRoundedTo? hconstant]
    rfl
  | none =>
    have hd : d = .unrounded := by
      by_contra hd
      rw [constantRoundedTo?, if_neg hd, List.find?_eq_none] at hconstant
      exact hconstant c hc (LawfulNegation.round_constant c hc d).1
    subst hd
    rw [roundedLeaf_of_no_constant (hmagnitude ▸ hconstant), Expr.ofNumber, hsign]
    exact congrArg _ hmagnitude

/-- Folding a constant of either sign is a step if another constant takes its place. -/
theorem foldConstant?_constant [DecidableEq α] (hc : c ∈ [Scalar.euler, Scalar.pi]) (d : Decimals)
    (negative : Bool) : foldConstant? d (.num negative c) =
      some (.num negative ((constantRoundedTo? d (d.round c)).getD c),
        if (constantRoundedTo? d (d.round c)).getD c = c then [] else [.foldConstant]) := by
  have hvalue : (Expr.num negative c).constant? = some (negateNumberIf negative c) := rfl
  simp only [foldConstant?, hvalue, Option.map_some, roundedLeaf_negateNumberIf hc,
    Expr.num.injEq, true_and]

end Signs

/-- Euler's number is looked for first. -/
theorem constantRoundedTo?_eq_euler (hd : d ≠ .unrounded)
    (h : Scalar.equal a (d.round Scalar.euler) = true) :
    constantRoundedTo? d a = some Scalar.euler := by
  simp only [constantRoundedTo?, if_neg hd, List.find?, h]

/-- A number that is not rounded like Euler's number becomes `π` if it is rounded like that. -/
theorem constantRoundedTo?_eq_pi (hd : d ≠ .unrounded)
    (hpi : Scalar.equal a (d.round Scalar.pi) = true)
    (heuler : Scalar.equal a (d.round Scalar.euler) = false) :
    constantRoundedTo? d a = some Scalar.pi := by
  simp only [constantRoundedTo?, if_neg hd, List.find?, heuler, hpi]

/-- Euler's number stays as it is. -/
theorem getD_constantRoundedTo?_euler [LawfulNegation α] (d : Decimals) :
    (constantRoundedTo? d (d.round Scalar.euler)).getD Scalar.euler = (Scalar.euler : α) := by
  by_cases hd : d = .unrounded
  · rw [constantRoundedTo?, if_pos hd, Option.getD_none]
  · have hself := (LawfulNegation.round_constant (Scalar.euler : α) List.mem_cons_self d).1
    rw [constantRoundedTo?_eq_euler hd hself, Option.getD_some]

/-- Zero digits are the only precision at which Euler's number and `π` are rounded to the same
double. -/
theorem Decimals.eq_digits_zero_of_equal_round
    (h : Scalar.equal (d.round (Scalar.pi : Float)) (d.round Scalar.euler) = true) :
    d = .digits 0 := by
  cases d with
  | unrounded => exact absurd h (by decide)
  | digits n =>
    by_contra hn
    have hdiffer := Double.not_equal_roundTo (n := n) fun hzero => hn (congrArg _ hzero)
    exact Bool.false_ne_true (hdiffer.symm.trans h)

/-- At zero digits Euler's number takes the place of `π`. -/
theorem getD_constantRoundedTo?_pi (d : Decimals) :
    (constantRoundedTo? d (d.round Scalar.pi)).getD Scalar.pi =
      if d = .digits 0 then Scalar.euler else (Scalar.pi : Float) := by
  by_cases hd : d = .unrounded
  · rw [constantRoundedTo?, if_pos hd, Option.getD_none, if_neg (hd ▸ Decimals.noConfusion)]
  by_cases hzero : d = .digits 0
  · have hsame : Scalar.equal (d.round (Scalar.pi : Float)) (d.round Scalar.euler) = true := by
      rw [hzero]
      decide +kernel
    rw [constantRoundedTo?_eq_euler hd hsame, Option.getD_some, if_pos hzero]
  · have hself := LawfulNegation.round_constant (Scalar.pi : Float)
      (List.mem_cons_of_mem _ List.mem_cons_self) d
    have hdiffer : Scalar.equal (d.round (Scalar.pi : Float)) (d.round Scalar.euler) = false :=
      Bool.eq_false_iff.mpr fun hsame => hzero (Decimals.eq_digits_zero_of_equal_round hsame)
    rw [constantRoundedTo?_eq_pi hd hself.1 hdiffer, Option.getD_some, if_neg hzero]

/-- Folding keeps Euler's number and `π`, with either sign, except that `π` becomes Euler's number
at zero digits. No other precision lets a number be rounded like both, and there it always becomes
Euler's number, also if it is nearer to `π`. -/
theorem foldConstant?_constants (d : Decimals) :
    (∀ negative, foldConstant? d (.num negative (Scalar.euler : Float)) =
      some (.num negative Scalar.euler, [])) ∧
    (∀ negative, foldConstant? d (.num negative (Scalar.pi : Float)) =
      if d = .digits 0 then some (.num negative Scalar.euler, [.foldConstant])
      else some (.num negative Scalar.pi, [])) ∧
    ∀ (t : Expr Float) (a : Float), t.constant? = some a → RoundsLikeBoth d a →
      d = .digits 0 ∧ ∃ steps,
        foldConstant? d t = some (.num (Scalar.isNegative (d.round a)) Scalar.euler, steps) := by
  have heuler : (Scalar.euler : Float) ∈ [Scalar.euler, Scalar.pi] := List.mem_cons_self
  have hpi : (Scalar.pi : Float) ∈ [Scalar.euler, Scalar.pi] :=
    List.mem_cons_of_mem _ List.mem_cons_self
  refine ⟨fun negative => ?_, fun negative => ?_, fun t a ha hboth => ?_⟩
  · rw [foldConstant?_constant heuler, getD_constantRoundedTo?_euler, if_pos rfl]
  · rw [foldConstant?_constant hpi, getD_constantRoundedTo?_pi]
    by_cases hd : d = .digits 0
    · rw [if_pos hd, if_pos hd, if_neg (by decide)]
    · rw [if_neg hd, if_neg hd, if_pos rfl]
  · have hsame := LawfulComparison.equal_trans (LawfulComparison.equal_symm (hboth _ hpi))
      (hboth _ heuler)
    have hd := Decimals.eq_digits_zero_of_equal_round hsame
    have hleaf := roundedLeaf_of_constant
      (constantRoundedTo?_eq_euler (hd ▸ Decimals.noConfusion) (hboth _ heuler))
    rw [LawfulSign.abs_euler] at hleaf
    refine ⟨hd, ?_⟩
    rw [← hleaf]
    exact foldConstant?_of_constant? ha

/-- Three becomes Euler's number at zero digits. -/
theorem foldConstant?_constants_three :
    (Expr.num false (3 : Float)).constant? = some 3 ∧ RoundsLikeBoth (.digits 0) (3 : Float) ∧
      ∃ steps, foldConstant? (.digits 0) (.num false (3 : Float)) =
        some (.num false Scalar.euler, steps) := by
  have hboth : RoundsLikeBoth (.digits 0) (3 : Float) := by
    unfold RoundsLikeBoth
    decide +kernel
  have hsign : Scalar.isNegative ((Decimals.digits 0).round (3 : Float)) = false := by
    decide +kernel
  obtain ⟨-, hfold⟩ := (foldConstant?_constants (.digits 0)).2.2 (.num false 3) 3 rfl hboth
  rw [hsign] at hfold
  exact ⟨rfl, hboth, hfold⟩

/-- At zero digits folding does not keep `π`, and it takes Euler's number for three though `π` is
nearer. -/
theorem constants_not_kept :
    (¬∀ (d : Decimals) (negative : Bool), ∀ c ∈ [Scalar.euler, (Scalar.pi : Float)],
      ∃ steps, foldConstant? d (.num negative c) = some (.num negative c, steps)) ∧
    ¬∀ (d : Decimals) (t : Expr Float) (a : Float), t.constant? = some a → RoundsLikeBoth d a →
      ∃ c steps, IsNearestTo a c ∧
        foldConstant? d t = some (.num (Scalar.isNegative (d.round a)) c, steps) := by
  have hpi : (Scalar.pi : Float) ∈ [Scalar.euler, Scalar.pi] :=
    List.mem_cons_of_mem _ List.mem_cons_self
  have hfold : ∀ a ∈ [Scalar.pi, (3 : Float)], foldConstant? (.digits 0) (.num false a) =
      some (.num false Scalar.euler, [.foldConstant]) := by
    decide +kernel
  constructor
  · intro hkept
    obtain ⟨steps, hsame⟩ := hkept (.digits 0) false Scalar.pi hpi
    have hleaf := hsame.symm.trans (hfold Scalar.pi List.mem_cons_self)
    have hconstants := (Expr.num.inj (Prod.mk.inj (Option.some.inj hleaf)).1).2
    exact absurd hconstants (by decide)
  · intro hnearest
    have hboth : RoundsLikeBoth (.digits 0) (3 : Float) := by
      unfold RoundsLikeBoth
      decide +kernel
    obtain ⟨c, steps, hc, hleaf⟩ := hnearest (.digits 0) (.num false 3) 3 rfl hboth
    rw [hfold 3 (List.mem_cons_of_mem _ List.mem_cons_self)] at hleaf
    have heuler : Scalar.euler = c := (Expr.num.inj (Prod.mk.inj (Option.some.inj hleaf)).1).2
    have hnearer := hc Scalar.pi hpi
    rw [← heuler] at hnearer
    exact absurd hnearer (by decide +kernel)

end Univariate
