import Mathlib
import Univariate.Derivative
import Univariate.Proofs.Values

/-!
# The derivative is the derivative

Where a tree and its subtrees are regular, the tree has a value at all points nearby, and its
derivative evaluates to the derivative of the function that these values form. A jet tracks such a
function, and combining jets follows the rules of differentiation.
-/

namespace Univariate

open Filter Topology

/-- The operands for which a function of one argument has a derivative. -/
def UnaryOp.Regular : UnaryOp → ℝ → Prop
  | sine, _ | cosine, _ => True
  | tangent, a => Real.cos a ≠ 0

/-- The operands for which an operation has a derivative. A base that is not positive needs a whole
exponent that is constant. -/
def BinaryOp.Regular (constant : Bool) : BinaryOp → ℝ → ℝ → Prop
  | addition, _, _ | subtraction, _, _ | multiplication, _, _ => True
  | division, _, b => b ≠ 0
  | power, a, b => 0 < a ∨ (constant = true ∧ a ≠ 0 ∧ ∃ n : ℤ, b = n)
  | logarithm, a, b => 0 < a ∧ 0 < b ∧ b ≠ 1
  | root, a, b => 0 < a ∧ b ≠ 0

/-- A jet follows a function near a point: its tree has the values of the function, and its
derivative evaluates to the derivative of the function at the point. -/
structure Jet.Tracks {tg : ℝ → Option ℝ} (j : Jet (Exact tg)) (x : ℝ) (f : ℝ → ℝ) (d : ℝ) :
    Prop where
  value : ∀ᶠ y in 𝓝 x, j.tree.HasValue False y (f y)
  hasDerivAt : HasDerivAt f d x
  slope : j.derivative.HasValue False x d

namespace Jet

variable {tg : ℝ → Option ℝ} {j f g : Jet (Exact tg)} {x a b d : ℝ} {u v : ℝ → ℝ}

/-- Changing the sign of a function changes the sign of its derivative. -/
theorem hasDerivAt_negateNumberIf (h : HasDerivAt u d x) (negative : Bool) :
    HasDerivAt (fun y => negateNumberIf negative (u y)) (negateNumberIf negative d) x := by
  cases negative with
  | false => exact h
  | true => exact h.neg

/-- At the point itself, the tree of a jet has the value of the function. -/
theorem Tracks.value_at (h : j.Tracks x u d) : j.tree.HasValue False x (u x) :=
  h.value.self_of_nhds

/-- The values of a constant tree near a point are its value there. -/
theorem eventually_eq_of_isConstant {t : Expr (Exact tg)}
    (hvalue : ∀ᶠ y in 𝓝 x, t.HasValue False y (u y)) (hconstant : t.isConstant = true) :
    ∀ᶠ y in 𝓝 x, u y = u x := by
  filter_upwards [hvalue] with y hy
  exact hy.unique (hvalue.self_of_nhds.of_isConstant hconstant y)

/-- A constant tree only follows functions whose derivative is zero. -/
theorem eq_zero_of_isConstant {t : Expr (Exact tg)}
    (hvalue : ∀ᶠ y in 𝓝 x, t.HasValue False y (u y)) (hderiv : HasDerivAt u d x)
    (hconstant : t.isConstant = true) : d = 0 :=
  hderiv.unique ((hasDerivAt_const x (u x)).congr_of_eventuallyEq
    (eventually_eq_of_isConstant hvalue hconstant))

/-- A tree tracks a function if its slope has the derivative of the function without the sign of the
tree. The slope of a constant tree does not matter. -/
theorem Tracks.of_slope {t slope : Expr (Exact tg)}
    (hvalue : ∀ᶠ y in 𝓝 x, t.HasValue False y (u y)) (hderiv : HasDerivAt u d x)
    (hslope : t.isConstant = false → slope.HasValue False x (negateNumberIf t.isNegative d)) :
    Tracks ⟨t, slope⟩ x u d := by
  refine ⟨hvalue, hderiv, ?_⟩
  unfold Jet.derivative
  cases hconstant : t.isConstant with
  | true =>
    rw [eq_zero_of_isConstant hvalue hderiv hconstant]
    exact Expr.hasValue_ofNumber 0
  | false =>
    have hsigned := (hslope hconstant).negateIf t.isNegative
    rwa [negateNumberIf_twice] at hsigned

/-- The slope of a jet that is not constant has the derivative, without the sign of the tree. -/
theorem Tracks.slope_of_not_constant (h : j.Tracks x u d) (hconstant : j.tree.isConstant = false) :
    j.slope.HasValue False x (negateNumberIf j.tree.isNegative d) := by
  have hsigned := h.slope
  rw [Jet.derivative, hconstant, if_neg Bool.false_ne_true] at hsigned
  have htwice := hsigned.negateIf j.tree.isNegative
  rwa [Expr.negateIf_negateIf] at htwice

/-- Folding its tree keeps what a jet tracks. -/
theorem Tracks.folded (h : j.Tracks x u d) : j.folded.Tracks x u d := by
  refine .of_slope (h.value.mono fun y hy => hy.folded) h.hasDerivAt fun hconstant => ?_
  have hconstant : j.tree.isConstant = false := by simpa using hconstant
  have htree : j.tree.folded = j.tree := by
    unfold Expr.folded
    rw [Expr.constant?_eq_none hconstant, ite_self]
  rw [htree]
  exact h.slope_of_not_constant hconstant

/-- Without the sign of its tree, a jet tracks the function with its sign taken off. -/
theorem Tracks.unsigned (h : j.Tracks x u d) :
    j.unsigned.Tracks x (fun y => negateNumberIf j.tree.isNegative (u y))
      (negateNumberIf j.tree.isNegative d) := by
  refine .of_slope (h.value.mono fun y hy => hy.unsigned)
    (hasDerivAt_negateNumberIf h.hasDerivAt _) fun hconstant => ?_
  have hconstant : j.tree.isConstant = false := by simpa [Expr.unsigned] using hconstant
  have hsign : j.tree.unsigned.isNegative = false := Expr.isNegative_withNegative false j.tree
  rw [hsign]
  exact h.slope_of_not_constant hconstant

/-- The jet of a number tracks a constant function. -/
theorem tracks_ofNumber (a : ℝ) : (ofNumber (.real a : Exact tg)).Tracks x (fun _ => a) 0 := by
  refine .of_slope (.of_forall fun y => Expr.hasValue_ofNumber a) (hasDerivAt_const x a) ?_
  intro hconstant
  cases hconstant

/-- The slope of a product has the value that the product rule gives. -/
theorem Tracks.productSlope (hf : f.Tracks x u a) (hg : g.Tracks x v b) :
    (f.productSlope g).HasValue False x (a * v x + u x * b) :=
  (hf.slope.mul hg.value_at).add (hf.value_at.mul hg.slope)

/-- The product rule. -/
theorem Tracks.mul (hf : f.Tracks x u a) (hg : g.Tracks x v b) :
    (f.mul g).Tracks x (fun y => u y * v y) (a * v x + u x * b) := by
  refine .of_slope ?_ (hf.hasDerivAt.mul hg.hasDerivAt) fun _ => ?_
  · filter_upwards [hf.value, hg.value] with y hfy hgy
    exact hfy.mul hgy
  · have hslope := hf.unsigned.folded.productSlope hg.unsigned.folded
    rw [Expr.isNegative_mul]
    refine hslope.congr ?_
    cases f.tree.isNegative <;> cases g.tree.isNegative <;> simp [negateNumberIf] <;> ring

/-- The logarithm rule. -/
theorem Tracks.ln (hf : f.Tracks x u a) (hu : 0 < u x) :
    f.ln.Tracks x (fun y => Real.log (u y)) (a / u x) := by
  refine .of_slope ?_ (hf.hasDerivAt.log hu.ne') fun _ => ?_
  · filter_upwards [hf.value, hf.hasDerivAt.continuousAt.eventually (lt_mem_nhds hu)] with y hy hpos
    exact hy.ln hpos
  · exact hf.folded.slope.div hf.folded.value_at hu.ne'

/-- Near a point at which a power is regular, it is a power in its domain and follows the power
rule. -/
theorem Tracks.hasDerivAt_rpow (hf : f.Tracks x u a) (hg : g.Tracks x v b)
    (hregular : BinaryOp.power.Regular g.tree.isConstant (u x) (v x)) :
    (∀ᶠ y in 𝓝 x, BinaryOp.power.Domain False (u y) (v y)) ∧
      HasDerivAt (fun y => u y ^ v y)
        (a * v x * u x ^ (v x - 1) + b * u x ^ v x * Real.log (u x)) x := by
  obtain hpos | ⟨hconstant, hne, n, hn⟩ := hregular
  · refine ⟨?_, hf.hasDerivAt.rpow hg.hasDerivAt hpos⟩
    filter_upwards [hf.hasDerivAt.continuousAt.eventually (lt_mem_nhds hpos)] with y hy
    exact .inl hy
  · have hv := eventually_eq_of_isConstant hg.value hconstant
    have hb := eq_zero_of_isConstant hg.value hg.hasDerivAt hconstant
    constructor
    · filter_upwards [hv, hf.hasDerivAt.continuousAt.eventually_ne hne] with y hvy huy
      exact .inr ⟨not_false, huy, n, hvy.trans hn⟩
    · have hpow := hf.hasDerivAt.rpow_const (.inl hne) (p := v x)
      rw [hb, zero_mul, zero_mul, add_zero]
      refine hpow.congr_of_eventuallyEq ?_
      filter_upwards [hv] with y hvy
      rw [hvy]

/-- The power rule, for constant exponents and for others. -/
theorem Tracks.powerSlope (hf : f.Tracks x u a) (hg : g.Tracks x v b)
    (hregular : BinaryOp.power.Regular g.tree.isConstant (u x) (v x)) :
    (f.powerSlope g).HasValue False x
      (a * v x * u x ^ (v x - 1) + b * u x ^ v x * Real.log (u x)) := by
  unfold Jet.powerSlope
  cases hconstant : g.tree.isConstant with
  | true =>
    have hb := eq_zero_of_isConstant hg.value hg.hasDerivAt hconstant
    rw [hg.value_at.constant?_eq hconstant, hb, zero_mul, zero_mul, add_zero]
    dsimp only
    split
    · next hone =>
      have hv : v x = 1 := Exact.equal_real.mp hone
      rw [hv, sub_self, Real.rpow_zero, mul_one, mul_one]
      exact hf.slope
    · have hdomain : BinaryOp.power.Domain False (u x) (v x - 1) := by
        obtain hpos | ⟨-, hne, n, hn⟩ := hregular
        · exact .inl hpos
        · exact .inr ⟨not_false, hne, n - 1, by rw [hn]; push_cast; ring⟩
      have hpower := hf.value_at.pow (Expr.hasValue_ofNumber (v x - 1)) hdomain
      have hproduct := ((Expr.hasValue_ofNumber (v x)).mul hpower).mul hf.slope
      rw [Exact.one_def, Exact.sub_real]
      exact hproduct.congr (by ring)
  | false =>
    have hpos : 0 < u x := by
      obtain hpos | ⟨htrue, -⟩ := hregular
      · exact hpos
      · rw [hconstant] at htrue
        cases htrue
    rw [Expr.constant?_eq_none hconstant]
    have hpower := hf.value_at.apply2 .power hg.value_at (.inl hpos)
    have hproduct := hpower.mul (hg.mul (hf.ln hpos)).slope
    refine hproduct.congr ?_
    rw [BinaryOp.real, Real.rpow_sub_one hpos.ne']
    field_simp
    ring

/-- The power of jets tracks the power of their functions. -/
theorem Tracks.pow (hf : f.Tracks x u a) (hg : g.Tracks x v b)
    (hregular : BinaryOp.power.Regular g.tree.isConstant (u x) (v x)) :
    (f.pow g).Tracks x (fun y => u y ^ v y)
      (a * v x * u x ^ (v x - 1) + b * u x ^ v x * Real.log (u x)) := by
  obtain ⟨hdomain, hderiv⟩ := hf.hasDerivAt_rpow hg hregular
  refine .of_slope ?_ hderiv fun _ => ?_
  · filter_upwards [hf.value, hg.value, hdomain] with y hfy hgy hy
    exact hfy.pow hgy hy
  · refine hf.folded.powerSlope hg.folded ?_
    rwa [Jet.folded, Expr.isConstant_folded]

/-- The quotient rule, for the quotient as a product with an inverse. -/
theorem Tracks.quotientSlope (hf : f.Tracks x u a) (hg : g.Tracks x v b) (hv : v x ≠ 0) :
    (f.quotientSlope g).HasValue False x ((a * v x - u x * b) / v x ^ 2) := by
  have hregular : BinaryOp.power.Regular (ofNumber (.real (-1) : Exact tg)).tree.isConstant (v x)
      (-1) := .inr ⟨rfl, hv, -1, by norm_num⟩
  have hinverse := hg.pow (tracks_ofNumber (-1)) hregular
  have hproduct := (hf.mul hinverse).slope
  refine hproduct.congr ?_
  rw [Real.rpow_sub_one hv, Real.rpow_neg_one]
  field_simp
  ring

/-- The quotient of jets tracks the quotient of their functions. -/
theorem Tracks.div (hf : f.Tracks x u a) (hg : g.Tracks x v b) (hv : v x ≠ 0) :
    (f.div g).Tracks x (fun y => u y / v y) ((a * v x - u x * b) / v x ^ 2) := by
  refine .of_slope ?_ (hf.hasDerivAt.div hg.hasDerivAt hv) fun _ => ?_
  · filter_upwards [hf.value, hg.value, hg.hasDerivAt.continuousAt.eventually_ne hv] with y hfy hgy
      hy
    exact hfy.div hgy hy
  · have hslope := hf.unsigned.folded.quotientSlope hg.unsigned.folded (negateNumberIf_ne_zero hv)
    rw [Expr.isNegative_div]
    refine hslope.congr ?_
    cases f.tree.isNegative <;> cases g.tree.isNegative <;> simp [negateNumberIf] <;> ring

/-- The derivative of a logarithm is that of a quotient of natural logarithms. -/
theorem Tracks.logarithmSlope (hf : f.Tracks x u a) (hg : g.Tracks x v b) (hu : 0 < u x)
    (hv : 0 < v x) (hv' : v x ≠ 1) :
    (f.logarithmSlope g).HasValue False x
      ((a / u x * Real.log (v x) - Real.log (u x) * (b / v x)) / Real.log (v x) ^ 2) := by
  have hlog : Real.log (v x) ≠ 0 := Real.log_ne_zero_of_pos_of_ne_one hv hv'
  have hquotient := ((hf.ln hu).div (hg.ln hv) hlog).slope
  unfold Jet.logarithmSlope
  split
  · next heuler =>
    cases hconstant : g.tree.isConstant with
    | false => simp [Expr.constant?_eq_none hconstant] at heuler
    | true =>
      rw [hg.value_at.constant?_eq hconstant] at heuler
      have hbase : v x = Real.exp 1 := Exact.equal_real.mp heuler
      have hb := eq_zero_of_isConstant hg.value hg.hasDerivAt hconstant
      refine (hf.slope.div hf.value_at hu.ne').congr ?_
      rw [hbase, hb, Real.log_exp]
      simp
  · exact hquotient

/-- The derivative of a root is that of a power with the inverse of the degree. -/
theorem Tracks.rootSlope (hf : f.Tracks x u a) (hg : g.Tracks x v b) (hu : 0 < u x)
    (hv : v x ≠ 0) : ∃ d, HasDerivAt (fun y => u y ^ (1 / v y)) d x ∧
      (f.rootSlope g).HasValue False x d := by
  have hpower := hf.pow ((tracks_ofNumber 1).div hg hv) (.inl hu)
  exact ⟨_, hpower.hasDerivAt, hpower.slope⟩

/-- The sine of a jet tracks the sine of its function. -/
theorem Tracks.sin (hf : f.Tracks x u a) :
    f.sin.Tracks x (fun y => Real.sin (u y)) (Real.cos (u x) * a) := by
  refine .of_slope ?_ hf.hasDerivAt.sin fun _ => ?_
  · exact hf.value.mono fun y hy => hy.apply1 .sine rfl
  · exact (hf.value_at.apply1 .cosine rfl).mul hf.slope

/-- The cosine of a jet tracks the cosine of its function. -/
theorem Tracks.cos (hf : f.Tracks x u a) :
    f.cos.Tracks x (fun y => Real.cos (u y)) (-Real.sin (u x) * a) := by
  refine .of_slope ?_ hf.hasDerivAt.cos fun _ => ?_
  · exact hf.value.mono fun y hy => hy.apply1 .cosine rfl
  · exact (hf.value_at.apply1 .sine rfl).neg.mul hf.slope

/-- The derivative of a tangent is that of a sine over a cosine. -/
theorem Tracks.tangentSlope (hf : f.Tracks x u a) (hu : Real.cos (u x) ≠ 0) :
    HasDerivAt (fun y => Real.tan (u y)) (a / Real.cos (u x) ^ 2) x ∧
      f.tangentSlope.HasValue False x (a / Real.cos (u x) ^ 2) := by
  have hquotient := hf.sin.div hf.cos hu
  have hvalue : (Real.cos (u x) * a * Real.cos (u x) - Real.sin (u x) * (-Real.sin (u x) * a)) /
      Real.cos (u x) ^ 2 = a / Real.cos (u x) ^ 2 := by
    congr 1
    linear_combination a * Real.sin_sq_add_cos_sq (u x)
  constructor
  · refine (hquotient.hasDerivAt.congr_deriv hvalue).congr_of_eventuallyEq (.of_forall fun y => ?_)
    exact Real.tan_eq_sin_div_cos (u y)
  · exact hquotient.slope.congr hvalue

/-- A function of one argument, where it is regular, is differentiated by the chain rule. -/
theorem Tracks.unarySlope {f : Jet (Exact tangent?)} {op : UnaryOp} (hf : f.Tracks x u a)
    (hregular : op.Regular (u x)) :
    ∃ w d, (∀ᶠ y in 𝓝 x, op.real? tangent? (u y) = some (w y)) ∧ HasDerivAt w d x ∧
      (Jet.unarySlope op f).HasValue False x d := by
  cases op with
  | sine =>
    have hslope := (hf.value_at.apply1 .cosine rfl).mul hf.slope
    exact ⟨_, _, .of_forall fun y => rfl, hf.sin.hasDerivAt, hslope⟩
  | cosine =>
    have hslope := (hf.value_at.apply1 .sine rfl).neg.mul hf.slope
    exact ⟨_, _, .of_forall fun y => rfl, hf.cos.hasDerivAt, hslope⟩
  | tangent =>
    obtain ⟨hderiv, hslope⟩ := hf.tangentSlope hregular
    refine ⟨_, _, ?_, hderiv, hslope⟩
    filter_upwards [hf.cos.hasDerivAt.continuousAt.eventually_ne hregular] with y hy
    exact if_neg hy

/-- An operation, where it is regular, is differentiated by its own rule. -/
theorem Tracks.binarySlope {op : BinaryOp} (hf : f.Tracks x u a) (hg : g.Tracks x v b)
    (hregular : op.Regular g.tree.isConstant (u x) (v x)) :
    ∃ d, (∀ᶠ y in 𝓝 x, op.Domain False (u y) (v y)) ∧
      HasDerivAt (fun y => op.real (u y) (v y)) d x ∧
      (Jet.binarySlope op f g).HasValue False x d := by
  have hu := hf.hasDerivAt.continuousAt
  have hv := hg.hasDerivAt.continuousAt
  cases op with
  | addition =>
    exact ⟨_, .of_forall fun _ => trivial, hf.hasDerivAt.add hg.hasDerivAt, hf.slope.add hg.slope⟩
  | subtraction =>
    exact ⟨_, .of_forall fun _ => trivial, hf.hasDerivAt.sub hg.hasDerivAt, hf.slope.sub hg.slope⟩
  | multiplication =>
    exact ⟨_, .of_forall fun _ => trivial, (hf.mul hg).hasDerivAt, hf.productSlope hg⟩
  | division =>
    have hquotient := hf.hasDerivAt.div hg.hasDerivAt hregular
    exact ⟨_, hv.eventually_ne hregular, hquotient, hf.quotientSlope hg hregular⟩
  | power =>
    obtain ⟨hdomain, hderiv⟩ := hf.hasDerivAt_rpow hg hregular
    exact ⟨_, hdomain, hderiv, hf.powerSlope hg hregular⟩
  | logarithm =>
    obtain ⟨hupos, hvpos, hvone⟩ := hregular
    have hlog := Real.log_ne_zero_of_pos_of_ne_one hvpos hvone
    refine ⟨_, ?_, ((hf.ln hupos).div (hg.ln hvpos) hlog).hasDerivAt,
      hf.logarithmSlope hg hupos hvpos hvone⟩
    filter_upwards [hu.eventually (lt_mem_nhds hupos), hv.eventually (lt_mem_nhds hvpos),
      hv.eventually_ne hvone] with y huy hvy hone
    exact ⟨huy, hvy, hone⟩
  | root =>
    obtain ⟨hupos, hvne⟩ := hregular
    obtain ⟨d, hderiv, hslope⟩ := hf.rootSlope hg hupos hvne
    refine ⟨d, ?_, hderiv, hslope⟩
    filter_upwards [hu.eventually (lt_mem_nhds hupos), hv.eventually_ne hvne] with y huy hvy
    exact ⟨hvy, .inl huy⟩

end Jet

namespace Expr

/-- A point at which every subtree of a tree has a value and every operation has a derivative. -/
def RegularAt (x : ℝ) : Expr (Exact tangent?) → Prop
  | .var _ => True
  | .num _ magnitude => ∃ a, magnitude = .real a
  | .unary _ op operand => operand.RegularAt x ∧
      ∃ a, operand.eval (.real x) = .real a ∧ op.Regular a
  | .binary _ op left right => left.RegularAt x ∧ right.RegularAt x ∧
      ∃ a b, left.eval (.real x) = .real a ∧ right.eval (.real x) = .real b ∧
        op.Regular right.isConstant a b

/-- The jet of a tree tracks the function of the tree at every regular point. -/
theorem RegularAt.exists_tracks {t : Expr (Exact tangent?)} {x : ℝ} (h : t.RegularAt x) :
    ∃ f d, t.jet.Tracks x f d := by
  induction t with
  | var negative =>
    refine ⟨_, _, .of_slope (.of_forall fun y => rfl)
      (Jet.hasDerivAt_negateNumberIf (hasDerivAt_id x) negative) fun _ => ?_⟩
    refine (hasValue_ofNumber 1).congr ?_
    exact (negateNumberIf_twice negative 1).symm
  | num negative magnitude =>
    obtain ⟨a, rfl⟩ := h
    refine ⟨_, _, .of_slope (.of_forall fun y => ⟨a, rfl, rfl⟩)
      (hasDerivAt_const x (negateNumberIf negative a)) fun hconstant => ?_⟩
    cases hconstant
  | unary negative op operand ih =>
    obtain ⟨hoperand, a, ha, hregular⟩ := h
    obtain ⟨u, d, hu⟩ := ih hoperand
    have hua : u x = a := hu.value_at.unique (hasValue_iff_eval.mpr ha)
    rw [← hua] at hregular
    obtain ⟨w, e, hw, hderiv, hslope⟩ := hu.unarySlope hregular
    refine ⟨_, _, .of_slope ?_ (Jet.hasDerivAt_negateNumberIf hderiv negative) fun _ => ?_⟩
    · filter_upwards [hu.value, hw] with y huy hwy
      exact ⟨u y, w y, huy, hwy, rfl⟩
    · refine hslope.congr ?_
      exact (negateNumberIf_twice negative e).symm
  | binary negative op left right ihl ihr =>
    obtain ⟨hleft, hright, a, b, ha, hb, hregular⟩ := h
    obtain ⟨u, d, hu⟩ := ihl hleft
    obtain ⟨v, e, hv⟩ := ihr hright
    have hua : u x = a := hu.value_at.unique (hasValue_iff_eval.mpr ha)
    have hvb : v x = b := hv.value_at.unique (hasValue_iff_eval.mpr hb)
    rw [← hua, ← hvb] at hregular
    obtain ⟨c, hdomain, hderiv, hslope⟩ := hu.binarySlope hv hregular
    refine ⟨_, _, .of_slope ?_ (Jet.hasDerivAt_negateNumberIf hderiv negative) fun _ => ?_⟩
    · filter_upwards [hu.value, hv.value, hdomain] with y huy hvy hy
      exact ⟨u y, v y, huy, hvy, hy, rfl⟩
    · refine hslope.congr ?_
      exact (negateNumberIf_twice negative c).symm

/-- At a regular point, the derivative of a tree evaluates to a number. It is the derivative of the
function that the tree evaluates to near the point. -/
theorem hasDerivAt_derivative (t : Expr (Exact tangent?)) (x : ℝ) (h : t.RegularAt x) :
    ∃ (f : ℝ → ℝ) (d : ℝ), (∀ᶠ y in 𝓝 x, t.eval (.real y) = .real (f y)) ∧
      HasDerivAt f d x ∧ t.derivative.eval (.real x) = .real d := by
  obtain ⟨f, d, htracks⟩ := h.exists_tracks
  exact ⟨f, d, htracks.value.mono fun y hy => hy.eval_eq, htracks.hasDerivAt,
    htracks.slope.eval_eq⟩

/-- A square is regular where its base is negative. -/
theorem hasDerivAt_derivative_square :
    let square : Expr (Exact tangent?) := .binary false .power (.var false) (.num false (.real 2))
    square.RegularAt (-1) ∧ ∃ (f : ℝ → ℝ) (d : ℝ),
      (∀ᶠ y in 𝓝 (-1), square.eval (.real y) = .real (f y)) ∧ HasDerivAt f d (-1) ∧
        square.derivative.eval (.real (-1)) = .real d := by
  intro square
  have hregular : square.RegularAt (-1) :=
    ⟨trivial, ⟨2, rfl⟩, -1, 2, rfl, rfl, .inr ⟨rfl, by norm_num, 2, by norm_num⟩⟩
  exact ⟨hregular, hasDerivAt_derivative square (-1) hregular⟩

end Expr

end Univariate
