import Univariate.Proofs.Idempotence
import Univariate.Proofs.Obtained

/-!
# Substitution is composition

Substitution rebuilds the outer tree and folds its operands again. Where the operands of a tree are
folded, this changes nothing in a part without the variable, and so it does not matter whether an
operand is folded before the next substitution or after it. The trees with folded operands are
therefore a monoid under substitution, with the variable as its unit, whatever the operations on
numbers are.
-/

namespace Univariate.Expr

variable {α : Type} [Scalar α] {s t : Expr α}

/-- Folding a tree twice is folding it once. -/
theorem folded_folded (t : Expr α) : t.folded.folded = t.folded := by
  cases hconstant : t.isConstant with
  | false => rw [folded_eq_self (.inr hconstant), folded_eq_self (.inr hconstant)]
  | true =>
    obtain ⟨negative, magnitude, hleaf⟩ := exists_folded_eq hconstant
    rw [hleaf]
    rfl

namespace HasFoldedOperands

/-- Folding a tree keeps its constant operands leaves. -/
theorem folded (h : t.HasFoldedOperands) : t.folded.HasFoldedOperands := by
  cases hconstant : t.isConstant with
  | false => rwa [folded_eq_self (.inr hconstant)]
  | true =>
    obtain ⟨negative, magnitude, hleaf⟩ := exists_folded_eq hconstant
    rw [hleaf]
    trivial

/-- The flag of the root does not matter to whether constant operands are leaves. -/
theorem withNegative (h : t.HasFoldedOperands) (negative : Bool) :
    (t.withNegative negative).HasFoldedOperands := by
  cases t <;> exact h

/-- An operation on trees whose constant operands are leaves has leaves for them as well. -/
theorem apply2 (op : BinaryOp) (hs : s.HasFoldedOperands) (ht : t.HasFoldedOperands) :
    (apply2 op s t).HasFoldedOperands :=
  ⟨folded_folded s, folded_folded t, hs.folded, ht.folded⟩

/-- What is substituted keeps its folded operands, and those of the outer tree are folded anew. -/
theorem substitute (s : Expr α) (ht : t.HasFoldedOperands) :
    (s.substitute t).HasFoldedOperands := by
  induction s with
  | var negative =>
    rw [Expr.substitute, negateIf_eq]
    exact ht.withNegative _
  | num negative magnitude => trivial
  | unary negative op a ih => exact ih
  | binary negative op a b iha ihb => exact (iha.apply2 op ihb).withNegative negative

end HasFoldedOperands

/-- Substituting into a negated tree negates what comes out. -/
theorem substitute_neg (s t : Expr α) : (-s).substitute t = -s.substitute t := by
  cases s with
  | var negative => exact negateIf_not negative t
  | num | unary | binary => rfl

/-- Substituting into a tree with its sign changed changes the sign of the result. -/
theorem substitute_negateIf (negate : Bool) (s t : Expr α) :
    (s.negateIf negate).substitute t = (s.substitute t).negateIf negate := by
  cases negate with
  | false => rfl
  | true => exact substitute_neg s t

/-- Nothing is replaced in a constant tree, and its operands are folded already. -/
theorem substitute_of_isConstant (hs : s.HasFoldedOperands) (hconstant : s.isConstant = true)
    (t : Expr α) : s.substitute t = s := by
  induction s with
  | var negative => cases hconstant
  | num negative magnitude => rfl
  | unary negative op a ih =>
    rw [substitute, ih hs hconstant]
    rfl
  | binary negative op a b iha ihb =>
    obtain ⟨hafolded, hbfolded, ha, hb⟩ := hs
    rw [isConstant, Bool.and_eq_true] at hconstant
    rw [substitute, iha ha hconstant.1, ihb hb hconstant.2, apply2, hafolded, hbfolded]
    rfl

/-- An operand can be folded before a substitution or only after it. -/
theorem folded_substitute (hs : s.HasFoldedOperands) (t : Expr α) :
    (s.folded.substitute t).folded = (s.substitute t).folded := by
  cases hconstant : s.isConstant with
  | false => rw [folded_eq_self (.inr hconstant)]
  | true =>
    have hleaf : s.folded.substitute t = s.folded :=
      substitute_of_isConstant hs.folded (by rw [isConstant_folded, hconstant]) t
    rw [hleaf, substitute_of_isConstant hs hconstant, folded_folded]

/-- Substitution is associative for a middle tree whose constant operands are leaves. -/
theorem substitute_assoc (a : Expr α) {b : Expr α} (hb : b.HasFoldedOperands) (c : Expr α) :
    a.substitute (b.substitute c) = (a.substitute b).substitute c := by
  induction a with
  | var negative => exact (substitute_negateIf negative b c).symm
  | num negative magnitude => rfl
  | unary negative op a ih =>
    rw [substitute, ih]
    rfl
  | binary negative op a₁ a₂ ih₁ ih₂ =>
    -- On the right the operands were folded once before `c` came in.
    have hright : ((binary negative op a₁ a₂).substitute b).substitute c =
        (apply2 op ((a₁.substitute b).folded.substitute c)
          ((a₂.substitute b).folded.substitute c)).withNegative negative := rfl
    rw [hright, substitute, ih₁, ih₂, apply2, apply2, folded_substitute (.substitute a₁ hb),
      folded_substitute (.substitute a₂ hb)]

/-- Substituting the variable changes no tree whose constant operands are leaves. -/
theorem substitute_var {a : Expr α} (ha : a.HasFoldedOperands) : a.substitute (.var false) = a := by
  induction a with
  | var negative => cases negative <;> rfl
  | num negative magnitude => rfl
  | unary negative op a ih =>
    rw [substitute, ih ha]
    rfl
  | binary negative op a₁ a₂ ih₁ ih₂ =>
    obtain ⟨hfolded₁, hfolded₂, ha₁, ha₂⟩ := ha
    rw [substitute, ih₁ ha₁, ih₂ ha₂, apply2, hfolded₁, hfolded₂]
    rfl

/-- Trees with folded operands are closed under substitution, which is associative on them and has
the variable as its unit on both sides. -/
theorem substitute_forms_monoid {a b : Expr α} (ha : a.HasFoldedOperands)
    (hb : b.HasFoldedOperands) (c : Expr α) :
    (a.substitute b).HasFoldedOperands ∧
      a.substitute (b.substitute c) = (a.substitute b).substitute c ∧
      (.var false : Expr α).substitute a = a ∧ a.substitute (.var false) = a :=
  ⟨.substitute a hb, substitute_assoc a hb c, rfl, substitute_var ha⟩

/-- The constant `-(2 + 3)` goes into `-(-x - sin(-x) * x)`, where every operand becomes a
number. -/
theorem substitute_forms_monoid_constant :
    let x : Expr Float := .var false
    let a : Expr Float := .binary true .subtraction (.var true)
      (.binary false .multiplication (.unary false .sine (.var true)) x)
    let b : Expr Float := .binary true .addition (.num false 2) (.num false 3)
    a.HasFoldedOperands ∧ b.HasFoldedOperands ∧ (a.substitute b).HasFoldedOperands ∧
      a.substitute (b.substitute (-x)) = (a.substitute b).substitute (-x) ∧
      x.substitute a = a ∧ a.substitute x = a := by
  intro x a b
  have ha : a.HasFoldedOperands := ⟨rfl, rfl, trivial, rfl, rfl, trivial, trivial⟩
  have hb : b.HasFoldedOperands := ⟨rfl, rfl, trivial, trivial⟩
  exact ⟨ha, hb, substitute_forms_monoid ha hb (-x)⟩

end Univariate.Expr
