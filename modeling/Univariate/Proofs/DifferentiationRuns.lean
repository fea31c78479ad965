import Univariate.Derivative
import Univariate.Proofs.NormalForm

/-!
# The recursion of the differentiation

Operations without a rule of their own are rewritten before they are differentiated: a quotient
becomes a product, a logarithm a quotient of natural logarithms, a root a power, a tangent a
quotient, and a power with a variable exponent leaves the product of the exponent and a logarithm.
The rewritten trees are not subtrees, and they are usually larger. One call of this recursion is
written down here with the calls that it waits for. Every call is made for a tree that leaves less
work to be done, so that the recursion ends, and the derivative that jets compute is the one
function that satisfies its equation.
-/

namespace Univariate

variable {α : Type} [Scalar α]

namespace Expr

/-- Whether a logarithm to this base is differentiated as a natural one. -/
def isNaturalBase (t : Expr α) : Bool := t.constant?.any (Scalar.equal · Scalar.euler)

/-- The derivative of a function of one argument, by the derivatives that `d` gives. -/
def unaryDerivativeWith (d : Expr α → Expr α) (op : UnaryOp) (u : Expr α) : Expr α :=
  match op with
  | .sine => u.cos * d u
  | .cosine => -u.sin * d u
  | .tangent => d (u.sin / u.cos)

/-- The derivative of an operation, by the derivatives that `d` gives. -/
def binaryDerivativeWith (d : Expr α → Expr α) (op : BinaryOp) (l r : Expr α) : Expr α :=
  match op with
  | .addition => d l + d r
  | .subtraction => d l - d r
  | .multiplication => d l * r + l * d r
  | .division => d (l * r.pow (ofNumber (-1)))
  | .power =>
    match r.constant? with
    | some c => if Scalar.equal c 1 then d l else ofNumber c * l.pow (ofNumber (c - 1)) * d l
    | none => apply2 .power l r * d (r * l.ln)
  | .logarithm => if r.isNaturalBase then d l / l else d (l.ln / r.ln)
  | .root => d (l.pow (ofNumber 1 / r))

/-- One call of the differentiation, with the derivatives that it waits for given by `d`. -/
def derivativeWith (d : Expr α → Expr α) (t : Expr α) : Expr α :=
  if t.isConstant then ofNumber 0
  else
    match t with
    | .var negative | .num negative _ => (ofNumber 1).negateIf negative
    | .unary negative op u => (unaryDerivativeWith d op u).negateIf negative
    | .binary negative op l r => (binaryDerivativeWith d op l r).negateIf negative

/-- One call of the differentiation waits for another: `DerivativeCalls inner outer`. No call waits
at a constant tree. -/
inductive DerivativeCalls : Expr α → Expr α → Prop
  | operand {negative : Bool} {op : UnaryOp} {u : Expr α} (hop : op ≠ .tangent)
      (hvar : (unary negative op u).isConstant = false) : DerivativeCalls u (.unary negative op u)
  | tangent {negative : Bool} {u : Expr α}
      (hvar : (unary negative .tangent u).isConstant = false) :
      DerivativeCalls (u.sin / u.cos) (.unary negative .tangent u)
  | left {negative : Bool} {op : BinaryOp} {l r : Expr α}
      (hop : op ∈ [.addition, .subtraction, .multiplication])
      (hvar : (binary negative op l r).isConstant = false) :
      DerivativeCalls l (.binary negative op l r)
  | right {negative : Bool} {op : BinaryOp} {l r : Expr α}
      (hop : op ∈ [.addition, .subtraction, .multiplication])
      (hvar : (binary negative op l r).isConstant = false) :
      DerivativeCalls r (.binary negative op l r)
  | quotient {negative : Bool} {l r : Expr α}
      (hvar : (binary negative .division l r).isConstant = false) :
      DerivativeCalls (l * r.pow (.ofNumber (-1))) (.binary negative .division l r)
  | base {negative : Bool} {l r : Expr α} {c : α}
      (hvar : (binary negative .power l r).isConstant = false) (hc : r.constant? = some c) :
      DerivativeCalls l (.binary negative .power l r)
  | exponent {negative : Bool} {l r : Expr α}
      (hvar : (binary negative .power l r).isConstant = false) (hnone : r.constant? = none) :
      DerivativeCalls (r * l.ln) (.binary negative .power l r)
  | argument {negative : Bool} {l r : Expr α}
      (hvar : (binary negative .logarithm l r).isConstant = false)
      (hbase : r.isNaturalBase = true) : DerivativeCalls l (.binary negative .logarithm l r)
  | logarithms {negative : Bool} {l r : Expr α}
      (hvar : (binary negative .logarithm l r).isConstant = false)
      (hbase : r.isNaturalBase = false) :
      DerivativeCalls (l.ln / r.ln) (.binary negative .logarithm l r)
  | root {negative : Bool} {l r : Expr α}
      (hvar : (binary negative .root l r).isConstant = false) :
      DerivativeCalls (l.pow (.ofNumber 1 / r)) (.binary negative .root l r)

/-- A call depends on the derivatives of the trees that it waits for only. -/
theorem derivativeWith_congr {d d' : Expr α → Expr α} {t : Expr α}
    (h : ∀ s, DerivativeCalls s t → d s = d' s) : derivativeWith d t = derivativeWith d' t := by
  unfold derivativeWith
  cases hvar : t.isConstant with
  | true => rfl
  | false =>
    cases t with
    | var | num => rfl
    | unary negative op u =>
      suffices hop : unaryDerivativeWith d op u = unaryDerivativeWith d' op u by simp only [hop]
      cases op with
      | sine | cosine => simp only [unaryDerivativeWith, h u (.operand nofun hvar)]
      | tangent => exact h _ (.tangent hvar)
    | binary negative op l r =>
      suffices hop : binaryDerivativeWith d op l r = binaryDerivativeWith d' op l r by
        simp only [hop]
      cases op with
      | addition | subtraction | multiplication =>
        simp only [binaryDerivativeWith, h l (.left (by decide) hvar),
          h r (.right (by decide) hvar)]
      | division => exact h _ (.quotient hvar)
      | power =>
        cases hc : r.constant? with
        | some c => simp only [binaryDerivativeWith, hc, h l (.base hvar hc)]
        | none => simp only [binaryDerivativeWith, hc, h _ (.exponent hvar hc)]
      | logarithm =>
        cases hbase : r.isNaturalBase with
        | true => simp only [binaryDerivativeWith, hbase, h l (.argument hvar hbase), if_true]
        | false =>
          simp only [binaryDerivativeWith, hbase, h _ (.logarithms hvar hbase),
            Bool.false_eq_true, if_false]
      | root => exact h _ (.root hvar)

/-- The quantity that every call lowers. A tangent leaves the work of its operand twice; the base of
a natural logarithm leaves none. -/
def work : Expr α → Nat
  | .var _ => 1
  | .num _ _ => 0
  | .unary _ .tangent u => 2 * u.work + 8
  | .unary _ _ u => u.work + 1
  | .binary _ .power l r => l.work + r.work + 3
  | .binary _ .division l r => l.work + r.work + 5
  | .binary _ .logarithm l r => if r.isNaturalBase then l.work + 1 else l.work + r.work + 8
  | .binary _ .root l r => l.work + r.work + 9
  | .binary _ _ l r => l.work + r.work + 1

/-- The flag of the root leaves no work. -/
theorem work_withNegative (negative : Bool) (t : Expr α) :
    (t.withNegative negative).work = t.work := by
  cases t with
  | unary m op u => cases op <;> rfl
  | binary m op l r => cases op <;> rfl
  | _ => rfl

/-- Folding a constant tree leaves no more work. -/
theorem work_folded_le (t : Expr α) : t.folded.work ≤ t.work := by
  unfold folded
  split
  · exact Nat.le_refl _
  · split
    · exact Nat.zero_le _
    · exact Nat.le_refl _

/-- Taking the sign off an operand and folding it leaves no more work. -/
theorem work_unsigned_folded_le (t : Expr α) : t.unsigned.folded.work ≤ t.work :=
  Nat.le_trans (work_folded_le _) (Nat.le_of_eq (work_withNegative _ t))

/-- A product leaves at most one more than the work of its operands. -/
theorem work_mul_le (s t : Expr α) : (s * t).work ≤ s.work + t.work + 1 := by
  rw [mul_def, hoistSigns, work_withNegative]
  have hs := work_unsigned_folded_le s
  have ht := work_unsigned_folded_le t
  simp only [apply2, work]
  omega

/-- A quotient leaves at most five more than the work of its operands. -/
theorem work_div_le (s t : Expr α) : (s / t).work ≤ s.work + t.work + 5 := by
  rw [div_def, hoistSigns, work_withNegative]
  have hs := work_unsigned_folded_le s
  have ht := work_unsigned_folded_le t
  simp only [apply2, work]
  omega

/-- A power leaves at most three more than the work of its operands. -/
theorem work_pow_le (s t : Expr α) : (s.pow t).work ≤ s.work + t.work + 3 := by
  have hs := work_folded_le s
  have ht := work_folded_le t
  simp only [pow, apply2, work]
  omega

section Euler

variable (heuler : (euler : Expr α).constant? = some Scalar.euler)
  (hself : Scalar.equal (Scalar.euler : α) Scalar.euler = true)

include heuler hself

/-- Euler's number is the base of natural logarithms. -/
theorem isNaturalBase_euler : (euler : Expr α).isNaturalBase = true := by
  rw [isNaturalBase, heuler]
  exact hself

/-- A natural logarithm leaves at most one more than the work of its argument. -/
theorem work_ln_le (s : Expr α) : s.ln.work ≤ s.work + 1 := by
  have hs := work_folded_le s
  have hbase : (euler : Expr α).folded.isNaturalBase = true := isNaturalBase_euler heuler hself
  simp only [ln, log, apply2, work, hbase, if_true]
  omega

/-- Every call is made for a tree that leaves less work. -/
theorem DerivativeCalls.work_lt {inner outer : Expr α} (h : DerivativeCalls inner outer) :
    inner.work < outer.work := by
  cases h with
  | @operand negative op u hop =>
    cases op with
    | sine | cosine => exact Nat.lt_succ_self _
    | tangent => exact absurd rfl hop
  | @tangent negative u =>
    have hquotient := work_div_le u.sin u.cos
    simp only [sin, cos, apply1, work] at hquotient ⊢
    omega
  | @left negative op l r hop =>
    cases op <;> simp at hop <;> simp only [work] <;> omega
  | @right negative op l r hop =>
    cases op <;> simp at hop <;> simp only [work] <;> omega
  | @quotient negative l r =>
    have hproduct := work_mul_le l (r.pow (.ofNumber (-1)))
    have hpower := work_pow_le r (.ofNumber (-1))
    simp only [ofNumber, work] at hproduct hpower ⊢
    omega
  | base =>
    simp only [work]
    omega
  | @exponent negative l r =>
    have hproduct := work_mul_le r l.ln
    have hlogarithm := work_ln_le heuler hself l
    simp only [work]
    omega
  | argument _ hbase =>
    simp only [work, hbase, if_true]
    omega
  | @logarithms negative l r _ hbase =>
    have hquotient := work_div_le l.ln r.ln
    have hargument := work_ln_le heuler hself l
    have hlogarithm := work_ln_le heuler hself r
    simp only [work, hbase, Bool.false_eq_true, if_false]
    omega
  | @root negative l r =>
    have hpower := work_pow_le l (.ofNumber 1 / r)
    have hquotient := work_div_le (.ofNumber 1) r
    simp only [ofNumber, work] at hpower hquotient ⊢
    omega

/-- No chain of calls is endless. -/
theorem wellFounded_derivativeCalls : WellFounded (DerivativeCalls (α := α)) :=
  Subrelation.wf (DerivativeCalls.work_lt heuler hself) (InvImage.wf work Nat.lt_wfRel.wf)

end Euler

end Expr

namespace Jet

/-- Two jets have the same tree and, unless that is constant, the same slope. -/
structure Agrees (i j : Jet α) : Prop where
  tree : i.tree = j.tree
  slope : i.tree.isConstant = false → i.slope = j.slope

namespace Agrees

variable {f f' g g' : Jet α}

/-- Jets that agree have the same derivative. -/
theorem derivative (hf : f.Agrees f') : f.derivative = f'.derivative := by
  unfold Jet.derivative
  rw [← hf.tree]
  cases hvar : f.tree.isConstant with
  | true => rfl
  | false => rw [hf.slope hvar]

/-- Jets that agree do so after their trees are folded. -/
theorem folded (hf : f.Agrees f') : f.folded.Agrees f'.folded := by
  refine ⟨congrArg Expr.folded hf.tree, fun hvar => hf.slope ?_⟩
  rwa [Jet.folded, Expr.isConstant_folded] at hvar

omit [Scalar α] in
/-- Jets that agree do so without the signs of their trees. -/
theorem unsigned (hf : f.Agrees f') : f.unsigned.Agrees f'.unsigned := by
  refine ⟨congrArg Expr.unsigned hf.tree, fun hvar => hf.slope ?_⟩
  rwa [Jet.unsigned, Expr.unsigned, Expr.isConstant_withNegative] at hvar

/-- The slope of a product is the same for jets that agree. -/
theorem productSlope (hf : f.Agrees f') (hg : g.Agrees g') :
    f.productSlope g = f'.productSlope g' := by
  unfold Jet.productSlope
  rw [hf.derivative, hg.derivative, hf.tree, hg.tree]

/-- The product is the same for jets that agree. -/
theorem mul (hf : f.Agrees f') (hg : g.Agrees g') : f.mul g = f'.mul g' := by
  unfold Jet.mul
  rw [hf.tree, hg.tree, hf.unsigned.folded.productSlope hg.unsigned.folded]

/-- The natural logarithm is the same for jets that agree. -/
theorem ln (hf : f.Agrees f') : f.ln = f'.ln := by
  unfold Jet.ln
  rw [hf.tree, hf.folded.derivative, hf.folded.tree]

/-- The slope of a power is the same for jets that agree. -/
theorem powerSlope (hf : f.Agrees f') (hg : g.Agrees g') : f.powerSlope g = f'.powerSlope g' := by
  unfold Jet.powerSlope
  rw [hf.derivative, hf.tree, hg.tree, hf.ln, hg.mul ⟨rfl, fun _ => rfl⟩]

/-- The power is the same for jets that agree. -/
theorem pow (hf : f.Agrees f') (hg : g.Agrees g') : f.pow g = f'.pow g' := by
  unfold Jet.pow
  rw [hf.tree, hg.tree, hf.folded.powerSlope hg.folded]

/-- The slope of a quotient is the same for jets that agree. -/
theorem quotientSlope (hf : f.Agrees f') (hg : g.Agrees g') :
    f.quotientSlope g = f'.quotientSlope g' := by
  unfold Jet.quotientSlope
  rw [hg.pow ⟨rfl, fun _ => rfl⟩, hf.mul ⟨rfl, fun _ => rfl⟩]

/-- The quotient is the same for jets that agree. -/
theorem div (hf : f.Agrees f') (hg : g.Agrees g') : f.div g = f'.div g' := by
  unfold Jet.div
  rw [hf.tree, hg.tree, hf.unsigned.folded.quotientSlope hg.unsigned.folded]

/-- The slope of a logarithm is the same for jets that agree. -/
theorem logarithmSlope (hf : f.Agrees f') (hg : g.Agrees g') :
    f.logarithmSlope g = f'.logarithmSlope g' := by
  unfold Jet.logarithmSlope
  rw [hf.derivative, hf.tree, hg.tree, hf.ln, hg.ln]

/-- The slope of a root is the same for jets that agree. -/
theorem rootSlope (hf : f.Agrees f') (hg : g.Agrees g') : f.rootSlope g = f'.rootSlope g' := by
  unfold Jet.rootSlope
  have hinverse : (ofNumber 1).div g = (ofNumber 1).div g' := div ⟨rfl, fun _ => rfl⟩ hg
  rw [hinverse, hf.pow ⟨rfl, fun _ => rfl⟩]

/-- The slope of an operation does not depend on the slopes of constant operands. -/
theorem binarySlope (op : BinaryOp) (hf : f.Agrees f') (hg : g.Agrees g') :
    Jet.binarySlope op f g = Jet.binarySlope op f' g' := by
  cases op with
  | addition | subtraction => simp only [Jet.binarySlope, hf.derivative, hg.derivative]
  | multiplication => exact hf.productSlope hg
  | division => exact hf.quotientSlope hg
  | power => exact hf.powerSlope hg
  | logarithm => exact hf.logarithmSlope hg
  | root => exact hf.rootSlope hg

end Agrees

end Jet

namespace Expr

/-- The slope of a tree is taken without the flag of its root. -/
theorem slope_withNegative (negative : Bool) (t : Expr α) :
    (t.withNegative negative).slope = t.slope := by
  cases t <;> rfl

/-- The jet of a tree without its sign is its jet without the sign. -/
theorem jet_unsigned (t : Expr α) : t.unsigned.jet = t.jet.unsigned :=
  congrArg (Jet.mk _) (slope_withNegative false t)

/-- Folding changes the slope of constant trees only. -/
theorem jet_folded_agrees (t : Expr α) : t.folded.jet.Agrees t.jet.folded := by
  refine ⟨rfl, fun hvar => ?_⟩
  rw [jet, isConstant_folded] at hvar
  rw [folded_eq_self (.inr hvar)]
  rfl

/-- The slope of an operation is that of its operands after they are folded. -/
theorem slope_apply2 (op : BinaryOp) (s t : Expr α) :
    (apply2 op s t).slope = Jet.binarySlope op s.jet.folded t.jet.folded :=
  (jet_folded_agrees s).binarySlope op (jet_folded_agrees t)

/-- The slope of an operation that takes the signs of its operands is that of the unsigned operands.
-/
theorem slope_hoistSigns (op : BinaryOp) (s t : Expr α) : (hoistSigns op s t).slope =
    Jet.binarySlope op s.jet.unsigned.folded t.jet.unsigned.folded := by
  rw [hoistSigns, slope_withNegative, slope_apply2, jet_unsigned, jet_unsigned]

/-- The jet of a product is the product of the jets. -/
theorem jet_mul (s t : Expr α) : (s * t).jet = s.jet.mul t.jet :=
  congrArg (Jet.mk _) (slope_hoistSigns .multiplication s t)

/-- The jet of a quotient is the quotient of the jets. -/
theorem jet_div (s t : Expr α) : (s / t).jet = s.jet.div t.jet :=
  congrArg (Jet.mk _) (slope_hoistSigns .division s t)

/-- The jet of a power is the power of the jets. -/
theorem jet_pow (s t : Expr α) : (s.pow t).jet = s.jet.pow t.jet :=
  congrArg (Jet.mk _) (slope_apply2 .power s t)

/-- The slope of an operation on one operand is what one call of the recursion computes. -/
theorem unarySlope_jet (op : UnaryOp) (u : Expr α) :
    Jet.unarySlope op u.jet = unaryDerivativeWith derivative op u := by
  cases op with
  | sine | cosine => rfl
  | tangent =>
    have hquotient : (u.sin / u.cos).jet = u.jet.sin.div u.jet.cos := jet_div u.sin u.cos
    exact (congrArg Jet.derivative hquotient).symm

variable (heuler : (euler : Expr α).constant? = some Scalar.euler)
  (hself : Scalar.equal (Scalar.euler : α) Scalar.euler = true)

include heuler hself

/-- The jet of a natural logarithm is the natural logarithm of the jet. -/
theorem jet_ln (s : Expr α) : s.ln.jet = s.jet.ln := by
  refine congrArg (Jet.mk _) ((slope_apply2 .logarithm s euler).trans ?_)
  exact if_pos (isNaturalBase_euler heuler hself)

/-- The slope of an operation on two operands is what one call of the recursion computes. -/
theorem binarySlope_jet (op : BinaryOp) (l r : Expr α) :
    Jet.binarySlope op l.jet r.jet = binaryDerivativeWith derivative op l r := by
  cases op with
  | addition | subtraction | multiplication => rfl
  | division =>
    have hproduct : (l * r.pow (ofNumber (-1))).jet = l.jet.mul (r.jet.pow (.ofNumber (-1))) := by
      rw [jet_mul, jet_pow]
      rfl
    exact (congrArg Jet.derivative hproduct).symm
  | power =>
    have hexponent : (r * l.ln).derivative = (r.jet.mul l.jet.ln).derivative := by
      rw [derivative, jet_mul, jet_ln heuler hself]
    rw [binaryDerivativeWith, hexponent]
    rfl
  | logarithm =>
    have hquotient : (l.ln / r.ln).derivative = (l.jet.ln.div r.jet.ln).derivative := by
      rw [derivative, jet_div, jet_ln heuler hself, jet_ln heuler hself]
    rw [binaryDerivativeWith, hquotient]
    rfl
  | root =>
    have hpower : (l.pow (ofNumber 1 / r)).jet = l.jet.pow ((Jet.ofNumber 1).div r.jet) := by
      rw [jet_pow, jet_div]
      rfl
    exact (congrArg Jet.derivative hpower).symm

/-- The derivative of every tree is what one call of the recursion makes of the derivatives of the
trees that it waits for. -/
theorem derivative_eq_derivativeWith (t : Expr α) : t.derivative = derivativeWith derivative t := by
  cases t with
  | var | num => rfl
  | unary negative op u =>
    have hslope := unarySlope_jet op u
    exact congrArg (fun slope : Expr α => ite _ (ofNumber 0) (slope.negateIf negative)) hslope
  | binary negative op l r =>
    have hslope := binarySlope_jet heuler hself op l r
    exact congrArg (fun slope : Expr α => ite _ (ofNumber 0) (slope.negateIf negative)) hslope

/-- The differentiation of every tree comes to an end: no chain of its calls is endless, one call
depends on the derivatives of the trees that it waits for only, and the derivative is the one
function that every call agrees with. -/
theorem differentiation_terminates (t : Expr α) :
    Acc DerivativeCalls t ∧
      (∀ d d' : Expr α → Expr α, (∀ s, DerivativeCalls s t → d s = d' s) →
        derivativeWith d t = derivativeWith d' t) ∧
      ∀ d : Expr α → Expr α, (∀ s, d s = derivativeWith d s) ↔ d = derivative := by
  have hwf : WellFounded (DerivativeCalls (α := α)) := wellFounded_derivativeCalls heuler hself
  refine ⟨hwf.apply t, fun d d' => derivativeWith_congr, fun d => ⟨fun hd => ?_, ?_⟩⟩
  · funext s
    induction s using hwf.induction with
    | h s ih =>
      rw [hd, derivative_eq_derivativeWith heuler hself]
      exact derivativeWith_congr ih
  · rintro rfl
    exact derivative_eq_derivativeWith heuler hself

omit heuler hself in
/-- The logarithm in `log(tg(x); nrt(x; x))` waits for a larger quotient of logarithms, and its
differentiation comes to an end. -/
theorem differentiation_terminates_logarithm :
    let x : Expr Float := .var false
    let t : Expr Float := x.tan.log (x.root x)
    let quotient : Expr Float := x.tan.ln / (x.root x).ln
    (euler : Expr Float).constant? = some Scalar.euler ∧
      Scalar.equal (Scalar.euler : Float) Scalar.euler = true ∧ DerivativeCalls quotient t ∧
      t.size < quotient.size ∧ Acc DerivativeCalls t := by
  intro x t quotient
  have heuler : (euler : Expr Float).constant? = some Scalar.euler := rfl
  have hself : Scalar.equal (Scalar.euler : Float) Scalar.euler = true := rfl
  have hcall : DerivativeCalls quotient t := .logarithms rfl rfl
  obtain ⟨hacc, -, -⟩ := differentiation_terminates heuler hself t
  exact ⟨heuler, hself, hcall, by decide, hacc⟩

end Expr

end Univariate
