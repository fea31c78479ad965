import Univariate.Proofs.DoubleRounding
import Univariate.Proofs.Idempotence
import Univariate.Proofs.RuleSigns

/-!
# Negation commutes with simplification

A negated tree is simplified like the tree itself. The two runs make the same calls for trees that
are each other's negations, up to numbers, whose leaves keep their sign in the flag only if they have
one: a negated leaf of zero is replaced by the unsigned leaf. The induction is on the run, and every
rule treats both nodes alike.
-/

namespace Univariate

variable {α : Type} [Scalar α]

/-- What the simplification leaves of a negated tree, given what it leaves of the tree: a number is
negated as a number, and any other tree by its flag. -/
def Expr.opposite : Expr α → Expr α
  | .num negative magnitude => .ofNumber (-negateNumberIf negative magnitude)
  | t => -t

/-- The opposite of a tree that is not constant is its negation. -/
theorem Expr.opposite_of_isConstant {t : Expr α} (h : t.isConstant = false) : t.opposite = -t := by
  cases t with
  | num => cases h
  | _ => rfl

variable {d : Decimals} {a : α} {t r : Expr α}

variable [LawfulNegation α]

/-- The negation of a constant tree has the negated constant. -/
theorem Expr.constant?_neg (h : t.constant? = some a) : (-t).constant? = some (-a) := by
  unfold Expr.constant? at h ⊢
  rw [isConstant_neg]
  split at h
  · next hconstant =>
    cases h
    rw [if_pos hconstant, eval_neg LawfulSign.neg_neg]
  · cases h

/-- Rounding is odd at every precision. -/
theorem Decimals.round_neg (d : Decimals) (a : α) : d.round (-a) = -d.round a := by
  cases d with
  | unrounded => rfl
  | digits n => exact LawfulNegation.roundTo_neg n a

/-- A number without a sign has the leaf of its negation. -/
theorem ofNumber_neg_of_signless (ha : Scalar.Signless a) :
    Expr.ofNumber (-a) = Expr.ofNumber a := by
  rw [Expr.ofNumber, Expr.ofNumber, ha.not_negative, ha.neg_not_negative, LawfulSign.abs_neg]

variable [LawfulScalar α]

/-- Rounding gives a number without a sign none. -/
theorem Decimals.signless_round (ha : Scalar.Signless a) : Scalar.Signless (d.round a) where
  not_negative := d.round_not_negative ha.not_negative
  neg_not_negative := by
    rw [← d.round_neg]
    exact d.round_not_negative ha.neg_not_negative

/-- The negation of a rounded constant is below zero. -/
theorem isNegative_neg_round_constant {c : α} (hc : c ∈ [Scalar.euler, Scalar.pi])
    (d : Decimals) : Scalar.isNegative (-d.round c) = true := by
  obtain ⟨hself, hzero⟩ := LawfulNegation.round_constant c hc d
  refine LawfulNegation.isNegative_neg (d.round_not_negative ?_) hself hzero
  rw [← abs_of_mem_constants hc]
  exact LawfulScalar.abs_not_negative c

/-- A number whose magnitude is that of a rounded constant is below zero, or its negation is. -/
theorem isNegative_neg_of_constantRoundedTo? {c : α}
    (h : constantRoundedTo? d (Scalar.abs a) = some c) (ha : Scalar.isNegative a = false) :
    Scalar.isNegative (-a) = true := by
  have hconstant := isNegative_neg_round_constant (mem_constants_of_constantRoundedTo? h) d
  have hbelow : Scalar.isNegative (-Scalar.abs a) = true := by
    rw [LawfulSign.isNegative_congr (LawfulSign.equal_neg (equal_of_constantRoundedTo? h))]
    exact hconstant
  rcases LawfulSign.abs_eq a with habs | habs
  · rw [habs] at hbelow
    exact hbelow
  · rw [habs, LawfulSign.neg_neg, ha] at hbelow
    cases hbelow

/-- The value of a number's leaf is the number, or its negation if it has no sign. -/
theorem negateNumberIf_abs_eq_or_signless (a : α) :
    negateNumberIf (Scalar.isNegative a) (Scalar.abs a) = a ∨
      negateNumberIf (Scalar.isNegative a) (Scalar.abs a) = -a ∧ Scalar.Signless a := by
  cases hsign : Scalar.isNegative a with
  | true => exact .inl (Scalar.neg_abs_of_isNegative hsign)
  | false =>
    refine (LawfulSign.abs_eq a).imp id fun habs => ⟨habs, hsign, ?_⟩
    rw [← habs]
    exact LawfulScalar.abs_not_negative a

/-- The leaf of a number's negation is built from the value of its leaf. -/
theorem opposite_ofNumber (a : α) : (Expr.ofNumber a).opposite = .ofNumber (-a) := by
  show Expr.ofNumber (-negateNumberIf (Scalar.isNegative a) (Scalar.abs a)) = .ofNumber (-a)
  rcases negateNumberIf_abs_eq_or_signless a with hself | ⟨hneg, ha⟩
  · rw [hself]
  · rw [hneg, LawfulSign.neg_neg, ofNumber_neg_of_signless ha]

/-- The negation of a value is rounded to the opposite leaf. -/
theorem roundedLeaf_neg (d : Decimals) (a : α) :
    roundedLeaf d (-a) = (roundedLeaf d a).opposite := by
  have habs : Scalar.abs (d.round (-a)) = Scalar.abs (d.round a) := by
    rw [d.round_neg, LawfulSign.abs_neg]
  cases hconstant : constantRoundedTo? d (Scalar.abs (d.round a)) with
  | none =>
    rw [roundedLeaf_of_no_constant hconstant, roundedLeaf_of_no_constant (habs ▸ hconstant),
      opposite_ofNumber, d.round_neg]
  | some c =>
    have hc := abs_of_constantRoundedTo? hconstant
    have hmem := mem_constants_of_constantRoundedTo? hconstant
    rw [roundedLeaf_of_constant hconstant, roundedLeaf_of_constant (habs ▸ hconstant), d.round_neg,
      hc]
    cases hsign : Scalar.isNegative (d.round a) with
    | true =>
      have hpositive : Scalar.isNegative (-d.round a) = false := by
        rw [← Scalar.abs_of_isNegative hsign]
        exact LawfulScalar.abs_not_negative _
      have hvalue : -negateNumberIf true c = c := LawfulSign.neg_neg c
      have hcpositive : Scalar.isNegative c = false := hc ▸ LawfulScalar.abs_not_negative c
      rw [Expr.opposite, hvalue, Expr.ofNumber, hc, hcpositive, hpositive]
    | false =>
      have hbelow := isNegative_neg_of_constantRoundedTo? hconstant hsign
      have hcbelow : Scalar.isNegative (-c) = true :=
        isNegative_neg_round_constant hmem .unrounded
      have hvalue : -negateNumberIf false c = -c := rfl
      rw [Expr.opposite, hvalue, Expr.ofNumber, LawfulSign.abs_neg, hc, hcbelow, hbelow]

/-- A number without a sign has the leaf of its negation. -/
theorem roundedLeaf_neg_of_signless (d : Decimals) (ha : Scalar.Signless a) :
    roundedLeaf d (-a) = roundedLeaf d a := by
  obtain ⟨hsign, hneg⟩ := Decimals.signless_round (d := d) ha
  have hnone : constantRoundedTo? d (Scalar.abs (d.round a)) = none := by
    cases hconstant : constantRoundedTo? d (Scalar.abs (d.round a)) with
    | none => rfl
    | some c =>
      rw [isNegative_neg_of_constantRoundedTo? hconstant hsign] at hneg
      cases hneg
  rw [roundedLeaf_neg, roundedLeaf_of_no_constant hnone, opposite_ofNumber,
    ofNumber_neg_of_signless ⟨hsign, hneg⟩]

/-- The value of a number's leaf is rounded like the number. -/
theorem roundedLeaf_eval_ofNumber (d : Decimals) (a x : α) :
    roundedLeaf d ((Expr.ofNumber a).eval x) = roundedLeaf d a := by
  show roundedLeaf d (negateNumberIf (Scalar.isNegative a) (Scalar.abs a)) = roundedLeaf d a
  rcases negateNumberIf_abs_eq_or_signless a with hself | ⟨hneg, ha⟩
  · rw [hself]
  · rw [hneg, roundedLeaf_neg_of_signless d ha]

variable [DecidableEq α] {steps : List Step}

omit [LawfulScalar α] [LawfulNegation α] in
/-- A constant tree is folded to the leaf of its rounded constant. -/
theorem foldConstant?_of_constant? (h : t.constant? = some a) :
    ∃ steps, foldConstant? d t = some (roundedLeaf d a, steps) := by
  rw [foldConstant?, h]
  exact ⟨_, rfl⟩

/-- A negated constant is folded to the opposite leaf. -/
theorem foldConstant?_neg (h : foldConstant? d t = some (r, steps)) :
    ∃ steps', foldConstant? d (-t) = some (r.opposite, steps') := by
  obtain ⟨a, ha, heq⟩ := Option.map_eq_some_iff.mp h
  cases heq
  rw [← roundedLeaf_neg]
  exact foldConstant?_of_constant? (Expr.constant?_neg ha)

omit [LawfulScalar α] [LawfulNegation α] in
/-- A tree that is not folded is not folded with the other sign either. -/
theorem foldConstant?_neg_eq_none (h : foldConstant? d t = none) : foldConstant? d (-t) = none := by
  rw [foldConstant?_eq_none_iff] at h ⊢
  rw [Expr.isConstant_neg, h]

omit [LawfulNegation α] in
/-- The run on a constant leaves the leaf of its rounded value. -/
theorem Simplifies.eq_of_constant? (h : Simplifies d t r steps) (ht : t.constant? = some a) :
    r = roundedLeaf d a := by
  obtain ⟨steps', hfold⟩ := foldConstant?_of_constant? (d := d) ht
  have hrun := (Simplifies.constant hfold).eq_simplifyWithSteps
  rw [h.eq_simplifyWithSteps] at hrun
  exact congrArg Prod.fst hrun

/-- A tree that is left as the opposite of another one is simplified like the negation of that. -/
theorem Simplifies.of_neg (h : Simplifies d (-t) r steps) :
    ∃ steps', Simplifies d t.opposite r steps' := by
  cases t with
  | num negative magnitude =>
    have hvalue := h.eq_of_constant? rfl
    have heval : (-Expr.num negative magnitude).eval Scalar.undefined =
        -negateNumberIf negative magnitude := Expr.eval_neg LawfulSign.neg_neg _ _
    rw [heval] at hvalue
    obtain ⟨steps', hfold⟩ := foldConstant?_of_constant? (d := d)
      (t := .ofNumber (-negateNumberIf negative magnitude)) rfl
    rw [roundedLeaf_eval_ofNumber, ← hvalue] at hfold
    exact ⟨steps', .constant hfold⟩
  | _ => exact ⟨steps, h⟩

/-- The run on a negated tree leaves the opposite of what the run on the tree leaves. -/
theorem Simplifies.neg (h : Simplifies d t r steps) :
    ∃ steps', Simplifies d (-t) r.opposite steps' := by
  induction h with
  | constant hfold =>
    obtain ⟨steps', hneg⟩ := foldConstant?_neg hfold
    exact ⟨_, .constant hneg⟩
  | var d negative => exact ⟨_, .var d _⟩
  | unaryConstant hfold ha hagain =>
    obtain ⟨steps', hneg⟩ := foldConstant?_neg hagain
    exact ⟨_, .unaryConstant (foldConstant?_neg_eq_none hfold) ha hneg⟩
  | unary hfold ha hagain =>
    exact ⟨_, .unary (foldConstant?_neg_eq_none hfold) ha (foldConstant?_neg_eq_none hagain)⟩
  | binaryConstant hfold ha hb hagain =>
    obtain ⟨steps', hneg⟩ := foldConstant?_neg hagain
    exact ⟨_, .binaryConstant (foldConstant?_neg_eq_none hfold) ha hb hneg⟩
  | binary hfold ha hb hagain hrule =>
    exact ⟨_, .binary (foldConstant?_neg_eq_none hfold) ha hb (foldConstant?_neg_eq_none hagain)
      (Rule.all_isOdd.eq_none hrule)⟩
  | @replaced d _ _ _ _ _ _ r _ _ _ reduct hfold ha hb hagain hrule hstep hfinal _ _ ih =>
    obtain ⟨reduct', hrule', hstep', htree⟩ := Rule.all_isOdd.exists_opposes hrule
    rw [← hstep'] at hstep
    rcases htree with hneg | ⟨-, hsame, a, ha', hnumber⟩
    · obtain ⟨steps', hrun⟩ := ih
      rw [← hneg] at hrun
      exact ⟨_, .replaced (foldConstant?_neg_eq_none hfold) ha hb
        (foldConstant?_neg_eq_none hagain) hrule' hstep hrun⟩
    · have hvalue : r = roundedLeaf d a := by
        rw [hnumber] at hfinal
        rw [hfinal.eq_of_constant? rfl, roundedLeaf_eval_ofNumber]
      have hopposite : r.opposite = r := by
        rw [hvalue, ← roundedLeaf_neg, roundedLeaf_neg_of_signless d ha']
      rw [← hsame] at hfinal
      rw [hopposite]
      exact ⟨_, .replaced (foldConstant?_neg_eq_none hfold) ha hb
        (foldConstant?_neg_eq_none hagain) hrule' hstep hfinal⟩
  | rebuilt hfold ha hb hagain hrule hstep hwhole hfinal _ _ ihwhole ihfinal =>
    obtain ⟨reduct', hrule', hstep', htree⟩ := Rule.all_isOdd.exists_opposes hrule
    have hneg := htree.resolve_right fun hnumber => by
      rw [hnumber.1] at hstep
      cases hstep
    rw [← hstep'] at hstep
    obtain ⟨us', hwhole'⟩ := ihwhole
    rw [← hneg] at hwhole'
    obtain ⟨more', hfinal'⟩ := ihfinal
    obtain ⟨more'', hfinal''⟩ := hfinal'.of_neg
    exact ⟨_, .rebuilt (foldConstant?_neg_eq_none hfold) ha hb (foldConstant?_neg_eq_none hagain)
      hrule' hstep hwhole' hfinal''⟩

namespace Expr

/-- The negation of a tree simplifies to the opposite of the simplified tree. -/
theorem simplify_neg_eq (t : Expr α) (d : Decimals) :
    (-t).simplify d = (t.simplify d).opposite := by
  have hrun : Simplifies d t (t.simplify d) (t.simplifyWithSteps d).2 := simplifies_iff.mpr rfl
  obtain ⟨steps', hneg⟩ := hrun.neg
  exact congrArg Prod.fst hneg.eq_simplifyWithSteps

/-- The leaf that a number is simplified to is that of its value, with the sign of the value. -/
theorem eq_ofNumber_of_simplify {negative : Bool} {magnitude : α}
    (h : t.simplify d = .num negative magnitude) :
    t.simplify d = .ofNumber (negateNumberIf negative magnitude) := by
  have hneg : (-t).simplify d = .ofNumber (-negateNumberIf negative magnitude) := by
    rw [simplify_neg_eq, h]
    rfl
  have htwice := simplify_neg_eq (-t) d
  rw [Expr.neg_neg, hneg, opposite_ofNumber, LawfulSign.neg_neg] at htwice
  exact htwice

/-- Negation commutes with simplification. If the simplified tree depends on the variable, the flag
of its root changes. If it is the leaf of a number, the leaf of the negated number takes its place;
the leaves of zero and of undefined values have no sign. -/
theorem simplify_neg (t : Expr α) (d : Decimals) :
    ((t.simplify d).isConstant = false ∧ (-t).simplify d = -(t.simplify d)) ∨
      ∃ negative magnitude, t.simplify d = .num negative magnitude ∧
        let c := negateNumberIf negative magnitude
        (-t).simplify d = .ofNumber (-c) ∧
          (Scalar.equal c 0 = true ∨ Scalar.equal c c = false →
            negative = false ∧ ((-t).simplify d).isNegative = false) := by
  have hsettled := t.settled_simplify d
  have hneg := simplify_neg_eq t d
  generalize hr : t.simplify d = r at hsettled hneg
  cases hconstant : r.isConstant with
  | false => exact .inl ⟨rfl, hneg.trans (opposite_of_isConstant hconstant)⟩
  | true =>
    obtain ⟨negative, magnitude, rfl⟩ : ∃ negative magnitude, r = .num negative magnitude := by
      cases hsettled with
      | var => cases hconstant
      | num a => exact exists_roundedLeaf_eq d a
      | unary _ hvar | binary _ _ hvar _ => rw [hvar] at hconstant; cases hconstant
    refine .inr ⟨negative, magnitude, rfl, hneg, fun hnumber => ?_⟩
    obtain ⟨hsign, hnegsign⟩ := Scalar.Signless.iff_equal.mpr hnumber
    have hleaf := eq_ofNumber_of_simplify hr
    rw [hr] at hleaf
    constructor
    · exact (congrArg isNegative hleaf).trans hsign
    · rw [hneg]
      exact hnegsign

/-- A negated root becomes a negated power, and a zero with a sign becomes one without. -/
theorem simplify_neg_root :
    let root : Expr Float := .binary false .root (.var false) (.num false 2)
    let power : Expr Float := .binary false .power (.var false) (.num false 0.5)
    let zero : Expr Float := .num false 0
    (-root).simplify .unrounded = -power ∧ (-zero).simplify (.digits 2) = zero := by
  intro root power zero
  have hroot : root.simplify .unrounded = power :=
    congrArg Prod.fst simplifies_root.eq_simplifyWithSteps
  have hzero : zero.simplify (.digits 2) = zero := by
    have hfold : foldConstant? (.digits 2) zero = some (zero, []) := by decide +kernel
    exact congrArg Prod.fst (Simplifies.constant hfold).eq_simplifyWithSteps
  constructor
  · rcases simplify_neg root .unrounded with ⟨-, hneg⟩ | ⟨_, _, hnumber, -⟩
    · rw [hneg, hroot]
    · exact Bool.noConfusion (congrArg isConstant (hroot.symm.trans hnumber))
  · rcases simplify_neg zero (.digits 2) with ⟨hvariable, -⟩ | ⟨_, _, hnumber, hneg, -⟩
    · rw [hzero] at hvariable
      exact Bool.noConfusion hvariable
    · obtain ⟨rfl, rfl⟩ := Expr.num.inj (hzero.symm.trans hnumber)
      exact hneg

end Expr

end Univariate
