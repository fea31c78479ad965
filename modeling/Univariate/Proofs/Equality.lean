import Univariate.Proofs.DoubleRounding
import Univariate.Proofs.ExactLaws
import Univariate.Proofs.Values

/-!
# Equality of trees is a partial equivalence

Trees compare like the numbers that they hold: equality is symmetric and transitive if that of
numbers is, and a tree equals itself unless a constant part of it has no number as its value. The
comparison changes from the structure of trees to their values at the constant parts, where trees of
unrelated shapes may meet. Equal trees have equal values wherever the operations cannot tell equal
numbers apart.
-/

namespace Univariate

section Laws

variable (α : Type) [Scalar α] (undefined : α → Prop)

/-- Comparing numbers for equality is symmetric and transitive, and a number equals itself unless it
is undefined. -/
structure ComparisonLaws : Prop where
  symm : ∀ a b : α, Scalar.equal a b = true → Scalar.equal b a = true
  trans : ∀ a b c : α, Scalar.equal a b = true → Scalar.equal b c = true → Scalar.equal a c = true
  self_iff : ∀ a : α, Scalar.equal a a = true ↔ ¬undefined a

variable {α}

/-- Two results are the same if they are equal numbers or both undefined. -/
def SameResult (a b : α) : Prop := Scalar.equal a b = true ∨ (undefined a ∧ undefined b)

variable (α)

/-- The operations cannot tell results apart that are the same. -/
structure CongruenceLaws : Prop where
  neg : ∀ a b : α, SameResult undefined a b → SameResult undefined (-a) (-b)
  unary : ∀ (op : UnaryOp) (a b : α), SameResult undefined a b →
    SameResult undefined (op.apply a) (op.apply b)
  binary : ∀ (op : BinaryOp) (a b c d : α), SameResult undefined a c → SameResult undefined b d →
    SameResult undefined (op.apply a b) (op.apply c d)

end Laws

section Numbers

variable {α : Type} [Scalar α] {undefined : α → Prop}

/-- A number has the same result as itself. -/
theorem ComparisonLaws.sameResult_self (laws : ComparisonLaws α undefined) (a : α) :
    SameResult undefined a a := by
  by_cases ha : undefined a
  · exact .inr ⟨ha, ha⟩
  · exact .inl ((laws.self_iff a).mpr ha)

/-- Numbers with the same result have it with their signs changed, too. -/
theorem CongruenceLaws.negateNumberIf (laws : CongruenceLaws α undefined) (negative : Bool)
    {a b : α} (h : SameResult undefined a b) :
    SameResult undefined (negateNumberIf negative a) (negateNumberIf negative b) := by
  cases negative with
  | false => exact h
  | true => exact laws.neg a b h

end Numbers

/-- Of exact numbers only real ones are equal to themselves. -/
theorem Exact.comparisonLaws (tg : ℝ → Option ℝ) : ComparisonLaws (Exact tg) (· = .undefined) where
  symm _ _ := LawfulComparison.equal_symm
  trans _ _ _ := LawfulComparison.equal_trans
  self_iff a := by
    cases a with
    | real a => exact ⟨fun _ => nofun, fun _ => Exact.equal_real.mpr rfl⟩
    | undefined => exact ⟨nofun, fun h => absurd rfl h⟩

/-- Exact results that are the same are not told apart, since they are one number. -/
theorem Exact.congruenceLaws (tg : ℝ → Option ℝ) : CongruenceLaws (Exact tg) (· = .undefined) := by
  have heq {a b : Exact tg} (h : SameResult (· = .undefined) a b) : a = b := by
    rcases h with h | ⟨rfl, rfl⟩
    · obtain ⟨c, rfl, rfl⟩ := Exact.equal_iff.mp h
      rfl
    · rfl
  have hsame := (Exact.comparisonLaws tg).sameResult_self
  exact ⟨fun _ _ h => heq h ▸ hsame _, fun _ _ _ h => heq h ▸ hsame _,
    fun _ _ _ _ _ h h' => heq h ▸ heq h' ▸ hsame _⟩

/-- Doubles compare by the same laws. Their operations do tell equal numbers apart, since the zeros
have different inverses. -/
theorem Double.comparisonLaws : ComparisonLaws Float (fun a => a.isNaN = true) where
  symm _ _ := LawfulComparison.equal_symm
  trans _ _ _ := LawfulComparison.equal_trans
  self_iff a := by
    have hnan : a.isNaN = a.toModel.unpack.isNaN := rfl
    rw [Double.equal_self_iff, hnan]
    cases a.toModel.unpack with
    | notANumber => exact ⟨fun h => absurd rfl h, fun h => absurd rfl h⟩
    | infinity | zero | finite => exact ⟨fun _ => nofun, fun _ => nofun⟩

namespace Expr

variable {α : Type}

/-- The constant subtrees of a tree that are no part of a larger constant subtree. -/
def maximalConstants (t : Expr α) : List (Expr α) :=
  if t.isConstant then [t]
  else
    match t with
    | .var _ | .num _ _ => []
    | .unary _ _ operand => operand.maximalConstants
    | .binary _ _ left right => left.maximalConstants ++ right.maximalConstants

/-- A constant tree is its only maximal constant. -/
theorem maximalConstants_of_isConstant {t : Expr α} (ht : t.isConstant = true) :
    t.maximalConstants = [t] := by
  unfold maximalConstants
  rw [if_pos ht]

variable [Scalar α] {undefined : α → Prop} {s t u : Expr α} {a b : α}

/-- The value of a constant tree is that at any point. -/
theorem eval_of_constant? (h : t.constant? = some a) (x : α) : t.eval x = a := by
  cases hconstant : t.isConstant with
  | false =>
    rw [constant?_eq_none hconstant] at h
    cases h
  | true =>
    rw [constant?, if_pos hconstant] at h
    rw [eval_of_isConstant hconstant x Scalar.undefined]
    exact Option.some.inj h

/-- Equality of trees is symmetric if that of numbers is. -/
theorem Equal.symm (laws : ComparisonLaws α undefined) (h : Equal s t) : Equal t s := by
  induction h with
  | constant hs ht hequal => exact .constant ht hs (laws.symm _ _ hequal)
  | var negative => exact .var negative
  | unary hs ht _ ih => exact .unary ht hs ih
  | binary hs ht _ _ ihl ihr => exact .binary ht hs ihl ihr

/-- What a constant equals is constant, with an equal value. -/
theorem Equal.exists_constant? (h : Equal s t) (hs : s.constant? = some a) :
    ∃ b, t.constant? = some b ∧ Scalar.equal a b = true := by
  cases h with
  | constant hs' ht hequal =>
    rw [hs] at hs'
    cases hs'
    exact ⟨_, ht, hequal⟩
  | var negative => cases hs
  | unary hs' => cases hs'.symm.trans hs
  | binary hs' => cases hs'.symm.trans hs

/-- Equality of trees is transitive if that of numbers is. -/
theorem Equal.trans (laws : ComparisonLaws α undefined) (hst : Equal s t) (htu : Equal t u) :
    Equal s u := by
  induction hst generalizing u with
  | constant hs ht hequal =>
    obtain ⟨c, hu, hequal'⟩ := htu.exists_constant? ht
    exact .constant hs hu (laws.trans _ _ _ hequal hequal')
  | var negative => exact htu
  | unary hs ht hoperand ih =>
    cases htu with
    | constant ht' => cases ht.symm.trans ht'
    | unary _ hu hoperand' => exact .unary hs hu (ih hoperand')
  | binary hs ht hl hr ihl ihr =>
    cases htu with
    | constant ht' => cases ht.symm.trans ht'
    | binary _ hu hl' hr' => exact .binary hs hu (ihl hl') (ihr hr')

/-- A constant tree equals itself exactly if its value is a number. -/
theorem equal_self_iff_of_isConstant (laws : ComparisonLaws α undefined) (ht : t.isConstant = true)
    (x : α) : Equal t t ↔ ¬undefined (t.eval x) := by
  have hvalue : t.constant? = some (t.eval x) := by
    rw [constant?, if_pos ht, eval_of_isConstant ht Scalar.undefined x]
  rw [← laws.self_iff]
  constructor
  · intro h
    obtain ⟨b, hb, hequal⟩ := h.exists_constant? hvalue
    rw [hvalue] at hb
    cases hb
    exact hequal
  · exact fun hequal => .constant hvalue hvalue hequal

/-- A tree equals itself unless one of its maximal constants is undefined. -/
theorem equal_self_iff (laws : ComparisonLaws α undefined) (t : Expr α) (x : α) :
    Equal t t ↔ ∀ s ∈ t.maximalConstants, ¬undefined (s.eval x) := by
  have hconstants {t : Expr α} (ht : t.isConstant = true) :
      Equal t t ↔ ∀ s ∈ t.maximalConstants, ¬undefined (s.eval x) := by
    rw [equal_self_iff_of_isConstant laws ht x, maximalConstants_of_isConstant ht]
    simp
  induction t with
  | var negative => exact ⟨fun _ => nofun, fun _ => .var negative⟩
  | num negative magnitude => exact hconstants rfl
  | unary negative op a ih =>
    cases ht : (unary negative op a).isConstant with
    | true => exact hconstants ht
    | false =>
      have hnone := constant?_eq_none ht
      rw [maximalConstants, if_neg (Bool.eq_false_iff.mp ht)]
      refine Iff.trans ?_ ih
      constructor
      · intro h
        cases h with
        | constant hs => cases hnone.symm.trans hs
        | unary _ _ ha => exact ha
      · exact .unary hnone hnone
  | binary negative op a b iha ihb =>
    cases ht : (binary negative op a b).isConstant with
    | true => exact hconstants ht
    | false =>
      have hnone := constant?_eq_none ht
      rw [maximalConstants, if_neg (Bool.eq_false_iff.mp ht), List.forall_mem_append]
      refine Iff.trans ?_ (and_congr iha ihb)
      constructor
      · intro h
        cases h with
        | constant hs => cases hnone.symm.trans hs
        | binary _ _ ha hb => exact ⟨ha, hb⟩
      · exact fun ⟨ha, hb⟩ => .binary hnone hnone ha hb

/-- Equal trees have the same values where the operations cannot tell equal numbers apart. -/
theorem Equal.sameResult (laws : ComparisonLaws α undefined)
    (operations : CongruenceLaws α undefined) (h : Equal s t) (x : α) :
    SameResult undefined (s.eval x) (t.eval x) := by
  induction h with
  | constant hs ht hequal =>
    rw [eval_of_constant? hs, eval_of_constant? ht]
    exact .inl hequal
  | var negative => exact laws.sameResult_self _
  | unary _ _ _ ih => exact operations.negateNumberIf _ (operations.unary _ _ _ ih)
  | binary _ _ _ _ ihl ihr =>
    exact operations.negateNumberIf _ (operations.binary _ _ _ _ _ ihl ihr)

/-- Equality of trees is symmetric and transitive, a tree equals itself unless one of its maximal
constants is undefined, and equal trees have the same value at every point if the operations cannot
tell the same results apart. -/
theorem equal_is_partial_equivalence (laws : ComparisonLaws α undefined) :
    (∀ s t : Expr α, s.equal t = true → t.equal s = true) ∧
    (∀ s t u : Expr α, s.equal t = true → t.equal u = true → s.equal u = true) ∧
    (∀ (t : Expr α) (x : α),
      t.equal t = true ↔ ∀ s ∈ t.maximalConstants, ¬undefined (s.eval x)) ∧
    (CongruenceLaws α undefined → ∀ s t : Expr α, s.equal t = true →
      ∀ x : α, SameResult undefined (s.eval x) (t.eval x)) := by
  simp only [equal_iff]
  exact ⟨fun s t hst => hst.symm laws, fun s t u hst htu => hst.trans laws htu,
    fun t x => equal_self_iff laws t x,
    fun operations s t hst x => hst.sameResult laws operations x⟩

/-- `(2 + 3) * x` and `5 * x` are equal in exact arithmetic, and `(0 / 0) * x` on doubles does not
equal itself. -/
theorem equal_is_partial_equivalence_product :
    let sum : Expr (Exact tangent?) := .binary false .multiplication
      (.binary false .addition (.num false (.real 2)) (.num false (.real 3))) (.var false)
    let product : Expr (Exact tangent?) :=
      .binary false .multiplication (.num false (.real 5)) (.var false)
    let quotient : Expr Float := .binary false .multiplication
      (.binary false .division (.num false 0) (.num false 0)) (.var false)
    sum.equal product = true ∧ product.equal sum = true ∧ sum.equal sum = true ∧
      (∀ x, SameResult (· = .undefined) (sum.eval x) (product.eval x)) ∧
      quotient.equal quotient ≠ true := by
  intro sum product quotient
  obtain ⟨hsymm, htrans, -, hvalues⟩ := equal_is_partial_equivalence (Exact.comparisonLaws tangent?)
  obtain ⟨-, -, hself, -⟩ := equal_is_partial_equivalence Double.comparisonLaws
  have hfive : Scalar.equal (.real 2 + .real 3 : Exact tangent?) (.real 5) = true := by
    rw [Exact.add_real, Exact.equal_real]
    norm_num
  have hsum : sum.equal product = true :=
    equal_iff.mpr (.binary rfl rfl (.constant rfl rfl hfive) (.var false))
  refine ⟨hsum, hsymm _ _ hsum, htrans _ _ _ hsum (hsymm _ _ hsum),
    hvalues (Exact.congruenceLaws tangent?) _ _ hsum, fun h => ?_⟩
  exact (hself quotient 1).mp h _ List.mem_cons_self rfl

end Expr

end Univariate
