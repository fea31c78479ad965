import Univariate.Decimals
import Univariate.Simplify.Weight

/-!
# Simplification

A tree is simplified from its leaves upwards. A constant subtree becomes a number, rounded to the
requested precision; on every other node the rules are tried, and what a rule builds is simplified
again. The recursion is on the weight of the tree, which no simplification raises and every rule
lowers.
-/

namespace Univariate

variable {α : Type} [Scalar α]

/-- The leaf for a constant's value, rounded to a precision. A rounded value whose magnitude is that
of the rounded Euler's number, or of the rounded `π`, becomes that constant itself. -/
def roundedLeaf (d : Decimals) (a : α) : Expr α :=
  let rounded := d.round a
  if d = .unrounded then .ofNumber rounded
  else
    match [Scalar.euler, Scalar.pi].find? fun c =>
      Scalar.equal (Scalar.abs rounded) (d.round c) with
    | some c => (Expr.ofNumber c).withNegative (Scalar.isNegative rounded)
    | none => .ofNumber rounded

variable [DecidableEq α]

/-- The leaf that a constant tree becomes, with a step unless the tree was that leaf already. -/
def foldConstant? (d : Decimals) (t : Expr α) : Option (Expr α × List Step) :=
  t.constant?.map fun a =>
    let leaf := roundedLeaf d a
    (leaf, if leaf = t then [] else [.foldConstant])

variable [LawfulScalar α]

omit [DecidableEq α] [LawfulScalar α] in
/-- The leaf of a rounded number has weight one. -/
theorem weight_roundedLeaf (d : Decimals) (a : α) : (roundedLeaf d a).weight = 1 := by
  unfold roundedLeaf
  dsimp only
  split
  · rfl
  · split <;> rfl

omit [DecidableEq α] in
/-- The leaf of a rounded number hides no sign. -/
theorem hiddenSign_roundedLeaf (d : Decimals) (a : α) : (roundedLeaf d a).hiddenSign = 0 := by
  unfold roundedLeaf
  dsimp only
  split
  · exact Expr.hiddenSign_ofNumber _
  · split <;> simp

omit [DecidableEq α] [LawfulScalar α] in
/-- The flag of the leaf is the sign of the rounded value. -/
theorem isNegative_roundedLeaf (d : Decimals) (a : α) :
    (roundedLeaf d a).isNegative = Scalar.isNegative (d.round a) := by
  unfold roundedLeaf
  dsimp only
  split
  · rfl
  · split
    · exact Expr.isNegative_withNegative _ _
    · rfl

omit [DecidableEq α] in
/-- Folding a constant makes no tree heavier: the leaf carries a sign only if the value does. -/
theorem roundedLeaf_noHeavier (d : Decimals) {t : Expr α} {a : α} (h : t.constant? = some a) :
    (roundedLeaf d a).NoHeavier t := by
  have hweight := weight_roundedLeaf d a
  have hhidden := hiddenSign_roundedLeaf d a
  have hflag := Expr.toNat_le_one (roundedLeaf d a).isNegative
  have hpos := Expr.weight_pos t
  refine ⟨by omega, ?_⟩
  cases hleaf : t.isLeaf with
  | false =>
    have hheavy := Expr.three_le_weight hleaf
    unfold Expr.signWeight
    omega
  | true =>
    suffices hsign : (roundedLeaf d a).isNegative.toNat ≤ t.signWeight by
      unfold Expr.signWeight at hsign ⊢
      omega
    cases hneg : (roundedLeaf d a).isNegative with
    | false => simp
    | true =>
      rw [isNegative_roundedLeaf] at hneg
      have ha : Scalar.isNegative a = true := by
        cases hsign : Scalar.isNegative a with
        | true => rfl
        | false => rw [Decimals.round_not_negative d hsign] at hneg; exact hneg
      cases t with
      | var negative => simp [Expr.constant?, Expr.isConstant] at h
      | unary | binary => simp [Expr.isLeaf] at hleaf
      | num negative magnitude =>
        have hvalue : negateNumberIf negative magnitude = a := by
          simpa [Expr.constant?, Expr.isConstant, Expr.eval] using h
        cases negative with
        | true => simp [Expr.signWeight, Expr.isNegative]
        | false =>
          have hmagnitude : magnitude = a := hvalue
          simp [Expr.signWeight, Expr.isNegative, Expr.hiddenSign, hmagnitude, ha]

/-- Folding a constant tree makes it no heavier. -/
theorem foldConstant?_noHeavier {d : Decimals} {t : Expr α} {r : Expr α × List Step}
    (h : foldConstant? d t = some r) : r.1.NoHeavier t := by
  unfold foldConstant? at h
  obtain ⟨a, ha, rfl⟩ := Option.map_eq_some_iff.mp h
  exact roundedLeaf_noHeavier d ha

/-- The simplified tree and the steps taken, with the bound on its weight that lets it be simplified
again. -/
def simplifyBounded (d : Decimals) (t : Expr α) :
    { r : Expr α × List Step // r.1.NoHeavier t } :=
  match hfold : foldConstant? d t with
  | some r => ⟨r, foldConstant?_noHeavier hfold⟩
  | none =>
    match t with
    | .var negative => ⟨(.var negative, []), .refl _⟩
    | .num negative magnitude => ⟨(.num negative magnitude, []), .refl _⟩
    | .unary negative op operand =>
      let inner := simplifyBounded d operand
      let rebuilt := (Expr.apply1 op inner.1.1).withNegative negative
      have hrebuilt : rebuilt.NoHeavier (.unary negative op operand) :=
        Expr.apply1_withNegative_noHeavier negative op inner.2
      match hfolded : foldConstant? d rebuilt with
      | some r => ⟨(r.1, inner.1.2 ++ r.2), (foldConstant?_noHeavier hfolded).trans hrebuilt⟩
      | none => ⟨(rebuilt, inner.1.2), hrebuilt⟩
    | .binary negative op left right =>
      let l := simplifyBounded d left
      let r := simplifyBounded d right
      let rebuilt := (Expr.apply2 op l.1.1 r.1.1).withNegative negative
      have hrebuilt : rebuilt.NoHeavier (.binary negative op left right) :=
        Expr.apply2_withNegative_noHeavier negative op l.2 r.2
      match hfolded : foldConstant? d rebuilt with
      | some folded =>
        ⟨(folded.1, l.1.2 ++ r.1.2 ++ folded.2), (foldConstant?_noHeavier hfolded).trans hrebuilt⟩
      | none =>
        match hrule : Rule.all rebuilt with
        | none => ⟨(rebuilt, l.1.2 ++ r.1.2), hrebuilt⟩
        | some reduct =>
          have hlighter : reduct.tree.Lighter (.binary negative op left right) :=
            (Rule.all_lightens rebuilt reduct hrule).trans_noHeavier hrebuilt
          if reduct.step.isRebuilding then
            let whole := simplifyBounded .unrounded reduct.tree
            let final := simplifyBounded d whole.1.1
            ⟨(final.1.1, l.1.2 ++ r.1.2 ++ reduct.step :: (whole.1.2 ++ final.1.2)),
              (final.2.trans whole.2).trans hlighter.noHeavier⟩
          else
            let final := simplifyBounded d reduct.tree
            ⟨(final.1.1, l.1.2 ++ r.1.2 ++ reduct.step :: final.1.2),
              final.2.trans hlighter.noHeavier⟩
termination_by t.weight
decreasing_by
  · exact Nat.lt_add_of_pos_right (by decide)
  · exact (Expr.lighter_of_left rfl).weight_lt
  · exact (Expr.lighter_of_right rfl).weight_lt
  · exact hlighter.weight_lt
  · exact Nat.lt_of_le_of_lt whole.2.weight_le hlighter.weight_lt
  · exact hlighter.weight_lt

/-- Applies one rule to a tree as it stands, and simplifies what the rule builds without rounding if
it builds new operations. -/
def Rule.run? (rule : Rule α) (t : Expr α) : Option (Expr α × List Step) :=
  (rule t).map fun reduct =>
    if reduct.step.isRebuilding then
      let whole := (simplifyBounded .unrounded reduct.tree).1
      (whole.1, reduct.step :: whole.2)
    else (reduct.tree, [reduct.step])

namespace Expr

/-- The simplified tree and the steps that led to it, in order. -/
def simplifyWithSteps (t : Expr α) (d : Decimals) : Expr α × List Step := (simplifyBounded d t).1

/-- The simplified tree, with constants rounded to a precision. -/
def simplify (t : Expr α) (d : Decimals) : Expr α := (t.simplifyWithSteps d).1

/-- A constant tree becomes a number. -/
theorem simplifyWithSteps_of_constant {t : Expr α} {d : Decimals} {r : Expr α × List Step}
    (h : foldConstant? d t = some r) : t.simplifyWithSteps d = r := by
  unfold simplifyWithSteps
  rw [simplifyBounded]
  split
  · next r' hr => rw [h] at hr; exact (Option.some.inj hr).symm
  · next hnone => rw [h] at hnone; cases hnone

/-- The variable is simplified as it is. -/
theorem simplifyWithSteps_var (negative : Bool) (d : Decimals) :
    (Expr.var negative : Expr α).simplifyWithSteps d = (.var negative, []) := by
  unfold simplifyWithSteps
  rw [simplifyBounded]
  split
  · next r hr => simp [foldConstant?, constant?, isConstant] at hr
  · rfl

/-- A function of one argument is folded again once its operand is simplified. -/
theorem simplifyWithSteps_unary {negative : Bool} {op : UnaryOp} {a : Expr α} {d : Decimals}
    (h : foldConstant? d (.unary negative op a) = none) :
    (Expr.unary negative op a).simplifyWithSteps d =
      let inner := a.simplifyWithSteps d
      let rebuilt := (apply1 op inner.1).withNegative negative
      match foldConstant? d rebuilt with
      | some r => (r.1, inner.2 ++ r.2)
      | none => (rebuilt, inner.2) := by
  unfold simplifyWithSteps
  rw [simplifyBounded]
  split
  · next r hr => rw [h] at hr; cases hr
  · dsimp only
    split <;> simp_all

/-- A node with two operands is folded again once its operands are simplified, and otherwise
replaced by the rules as often as they apply. -/
theorem simplifyWithSteps_binary {negative : Bool} {op : BinaryOp} {a b : Expr α} {d : Decimals}
    (h : foldConstant? d (.binary negative op a b) = none) :
    (Expr.binary negative op a b).simplifyWithSteps d =
      let l := a.simplifyWithSteps d
      let r := b.simplifyWithSteps d
      let rebuilt := (apply2 op l.1 r.1).withNegative negative
      match foldConstant? d rebuilt with
      | some folded => (folded.1, l.2 ++ r.2 ++ folded.2)
      | none =>
        match Rule.all.run? rebuilt with
        | none => (rebuilt, l.2 ++ r.2)
        | some replaced =>
          let final := replaced.1.simplifyWithSteps d
          (final.1, l.2 ++ r.2 ++ replaced.2 ++ final.2) := by
  unfold simplifyWithSteps
  rw [simplifyBounded]
  split
  · next r hr => rw [h] at hr; cases hr
  · dsimp only
    split
    · next folded hfolded => simp [hfolded]
    · next hnone =>
      simp only [hnone]
      split
      · next hrule => simp [Rule.run?, hrule]
      · next reduct hrule =>
        split <;> simp_all [Rule.run?]

end Expr

end Univariate
