import Univariate.Proofs.RuleSoundness
import Univariate.Simplify.Basic

/-!
# Simplification keeps values

A run of the simplification without rounding keeps the value of a tree if every step of it keeps
values. The induction is on the weight of the tree, as for the recursion of the simplification.
-/

namespace Univariate

variable {tg : ℝ → Option ℝ} {positive : Prop} {x c : ℝ}

namespace Expr

variable {s t : Expr (Exact tg)}

/-- A tree that is no heavier than one lighter than a third is lighter than the third. -/
theorem NoHeavier.trans_lighter {u : Expr (Exact tg)} (hst : s.NoHeavier t) (htu : t.Lighter u) :
    s.Lighter u :=
  ⟨Nat.lt_of_le_of_lt hst.weight_le htu.weight_lt, Nat.le_trans hst.signed_le htu.signed_le⟩

/-- A simplified tree is no heavier. -/
theorem simplifyWithSteps_noHeavier (t : Expr (Exact tg)) (d : Decimals) :
    (t.simplifyWithSteps d).1.NoHeavier t :=
  (simplifyBounded d t).2

/-- Folding a constant keeps its value. -/
theorem HasValue.of_foldConstant? {r : Expr (Exact tg) × List Step}
    (h : t.HasValue positive x c) (hfold : foldConstant? .unrounded t = some r) :
    r.1.HasValue positive x c := by
  obtain ⟨m, hm, rfl⟩ := Option.map_eq_some_iff.mp hfold
  rw [h.eq_of_constant? hm]
  exact hasValue_ofNumber c

/-- The leaf of a number that is not negative has no sign. -/
theorem ofNumber_real {a : ℝ} (ha : 0 ≤ a) :
    (ofNumber (.real a : Exact tg)) = .num false (.real a) := by
  have hsign : Scalar.isNegative (.real a : Exact tg) = false :=
    Bool.eq_false_iff.mpr fun h => ha.not_gt (Exact.isNegative_real.mp h)
  rw [ofNumber, hsign, Exact.abs_real, abs_of_nonneg ha]

/-- A number by its magnitude is simplified as it is. -/
theorem simplifyWithSteps_num {a : ℝ} (ha : 0 ≤ a) :
    (num false (.real a) : Expr (Exact tg)).simplifyWithSteps .unrounded =
      (.num false (.real a), []) := by
  refine simplifyWithSteps_of_constant ?_
  have hleaf : roundedLeaf .unrounded (.real a : Exact tg) = .num false (.real a) :=
    ofNumber_real ha
  simp [foldConstant?, constant?, isConstant, eval, hleaf]

/-- A run keeps the value of a tree if each of its steps does. -/
def Preserved (positive : Prop) (x : ℝ) (t : Expr (Exact tg)) : Prop :=
  (∀ step ∈ (t.simplifyWithSteps .unrounded).2, step.Keeps positive) →
    ∀ c, t.HasValue positive x c → (t.simplifyWithSteps .unrounded).1.HasValue positive x c

/-- What a rule builds has the value of the tree that it replaces, also when it is simplified at
once. -/
theorem HasValue.of_run? {r : Expr (Exact tg) × List Step} (h : t.HasValue positive x c)
    (hrun : Rule.all.run? t = some r) (hsteps : ∀ step ∈ r.2, step.Keeps positive)
    (hlighter : ∀ s : Expr (Exact tg), s.Lighter t → s.Preserved positive x) :
    r.1.HasValue positive x c ∧ r.1.Lighter t := by
  obtain ⟨reduct, hrule, rfl⟩ := Option.map_eq_some_iff.mp hrun
  have hlight := Rule.all_lightens t reduct hrule
  split at hsteps
  · next hrebuilding =>
    obtain ⟨hstep, hrest⟩ := List.forall_mem_cons.mp hsteps
    have hreduct := Rule.all_sound t reduct hrule hstep c h
    rw [if_pos hrebuilding]
    exact ⟨hlighter reduct.tree hlight hrest c hreduct,
      (simplifyWithSteps_noHeavier reduct.tree .unrounded).trans_lighter hlight⟩
  · next hrebuilding =>
    obtain ⟨hstep, -⟩ := List.forall_mem_cons.mp hsteps
    rw [if_neg hrebuilding]
    exact ⟨Rule.all_sound t reduct hrule hstep c h, hlight⟩

/-- Folding a constant tree keeps its value. -/
theorem preserved_of_foldConstant? {r : Expr (Exact tg) × List Step}
    (hfold : foldConstant? .unrounded t = some r) : t.Preserved positive x := by
  intro _ c hc
  rw [simplifyWithSteps_of_constant hfold]
  exact hc.of_foldConstant? hfold

/-- Simplifying a function keeps its value if simplifying its operand does. -/
theorem preserved_unary {negative : Bool} {op : UnaryOp} (ht : t.Preserved positive x) :
    (unary negative op t).Preserved positive x := by
  cases hfold : foldConstant? .unrounded (unary negative op t) with
  | some r => exact preserved_of_foldConstant? hfold
  | none =>
    intro hsteps c hc
    obtain ⟨a, b, ha, hb, rfl⟩ := hc
    rw [simplifyWithSteps_unary hfold] at hsteps ⊢
    dsimp only at hsteps ⊢
    have hrebuilt (hinner : ∀ step ∈ (t.simplifyWithSteps .unrounded).2, step.Keeps positive) :
        ((apply1 op (t.simplifyWithSteps .unrounded).1).withNegative negative).HasValue positive x
          (negateNumberIf negative b) :=
      ⟨a, b, ht hinner a ha, hb, rfl⟩
    split at hsteps
    · next r hr =>
      obtain ⟨hinner, -⟩ := List.forall_mem_append.mp hsteps
      have hfolded := (hrebuilt hinner).of_foldConstant? hr
      exact hfolded
    · next hr =>
      exact hrebuilt hsteps

/-- Simplifying an operation keeps its value if simplifying its operands and every lighter tree
does. -/
theorem preserved_binary {negative : Bool} {op : BinaryOp} (hs : s.Preserved positive x)
    (ht : t.Preserved positive x)
    (hlighter : ∀ u : Expr (Exact tg), u.Lighter (binary negative op s t) →
      u.Preserved positive x) :
    (binary negative op s t).Preserved positive x := by
  cases hfold : foldConstant? .unrounded (binary negative op s t) with
  | some r => exact preserved_of_foldConstant? hfold
  | none =>
    intro hsteps c hc
    obtain ⟨a, b, ha, hb, hdomain, rfl⟩ := hc
    have hheavy := apply2_withNegative_noHeavier negative op
      (simplifyWithSteps_noHeavier s .unrounded) (simplifyWithSteps_noHeavier t .unrounded)
    rw [simplifyWithSteps_binary hfold] at hsteps ⊢
    dsimp only at hsteps ⊢
    have hrebuilt (hl : ∀ step ∈ (s.simplifyWithSteps .unrounded).2, step.Keeps positive)
        (hr : ∀ step ∈ (t.simplifyWithSteps .unrounded).2, step.Keeps positive) :
        ((apply2 op (s.simplifyWithSteps .unrounded).1
          (t.simplifyWithSteps .unrounded).1).withNegative negative).HasValue positive x
            (negateNumberIf negative (op.real a b)) :=
      ⟨a, b, (hs hl a ha).folded, (ht hr b hb).folded, hdomain, rfl⟩
    split at hsteps
    · next r hr =>
      obtain ⟨hoperands, -⟩ := List.forall_mem_append.mp hsteps
      obtain ⟨hl, hr'⟩ := List.forall_mem_append.mp hoperands
      have hfolded := (hrebuilt hl hr').of_foldConstant? hr
      exact hfolded
    · next hnone =>
      split at hsteps
      · next hrule =>
        obtain ⟨hl, hr⟩ := List.forall_mem_append.mp hsteps
        exact hrebuilt hl hr
      · next replaced hrule =>
        obtain ⟨hbefore, hfinal⟩ := List.forall_mem_append.mp hsteps
        obtain ⟨hoperands, hreplaced⟩ := List.forall_mem_append.mp hbefore
        obtain ⟨hl, hr⟩ := List.forall_mem_append.mp hoperands
        obtain ⟨hvalue, hlight⟩ := (hrebuilt hl hr).of_run? hrule hreplaced fun u hu =>
          hlighter u (hu.trans_noHeavier hheavy)
        exact hlighter replaced.1 (hlight.trans_noHeavier hheavy) hfinal _ hvalue

/-- Simplification without rounding keeps the value of a tree. -/
theorem preserved (t : Expr (Exact tg)) : t.Preserved positive x := by
  induction hn : t.weight using Nat.strongRecOn generalizing t with
  | ind n ih =>
    subst hn
    cases t with
    | var negative =>
      intro _ c hc
      rw [simplifyWithSteps_var]
      exact hc
    | num negative magnitude => exact preserved_of_foldConstant? rfl
    | unary negative op operand =>
      exact preserved_unary (ih operand.weight (Nat.lt_add_of_pos_right (by decide)) operand rfl)
    | binary negative op left right =>
      exact preserved_binary (ih left.weight (lighter_of_left rfl).weight_lt left rfl)
        (ih right.weight (lighter_of_right rfl).weight_lt right rfl)
        fun u hu => ih u.weight hu.weight_lt u rfl

/-- Simplification without rounding keeps the value of a tree, unless it takes a power with exponent
zero to be zero. A base may be negative only if no exponent is moved out of a logarithm. -/
theorem simplifyWithSteps_keeps_value (t r : Expr (Exact tg)) (steps : List Step) (x c : ℝ)
    (hrun : t.simplifyWithSteps .unrounded = (r, steps)) (hzero : Step.powerZero ∉ steps)
    (ht : t.HasValue (.logPowerArgument ∈ steps ∨ .logPowerBase ∈ steps) x c) :
    r.HasValue (.logPowerArgument ∈ steps ∨ .logPowerBase ∈ steps) x c ∧
      r.eval (.real x) = t.eval (.real x) := by
  have hkeeps : ∀ step ∈ steps,
      step.Keeps (.logPowerArgument ∈ steps ∨ .logPowerBase ∈ steps) := by
    intro step hstep
    refine ⟨?_, ?_⟩
    · rintro rfl
      exact hzero hstep
    · rintro (rfl | rfl)
      · exact .inl hstep
      · exact .inr hstep
  have hpreserved : t.Preserved (.logPowerArgument ∈ steps ∨ .logPowerBase ∈ steps) x := preserved t
  unfold Preserved at hpreserved
  rw [hrun] at hpreserved
  have hr := hpreserved hkeeps c ht
  exact ⟨hr, hr.eval_eq.trans ht.eval_eq.symm⟩

/-- The run on `x + 0` applies one rule. -/
theorem simplifyWithSteps_add_zero :
    (binary false .addition (.var false) (.num false (.real 0)) :
      Expr (Exact tg)).simplifyWithSteps .unrounded = (.var false, [.addZero]) := by
  have hrule : Rule.all (binary false .addition (.var false) (.num false (.real 0)) :
      Expr (Exact tg)) = some ⟨.addZero, .var false⟩ := by
    have hvar : (var false : Expr (Exact tg)).isNumber 0 = false := rfl
    have hzero : (num false (.real 0) : Expr (Exact tg)).isNumber 0 = true :=
      Exact.equal_real.mpr rfl
    simp only [Rule.all, Rule.firstOf, Rule.add, Rule.addZero, List.findSome?_cons, hvar, hzero]
    rfl
  have hrun : Rule.all.run? (binary false .addition (.var false) (.num false (.real 0)) :
      Expr (Exact tg)) = some (.var false, [.addZero]) := by
    rw [Rule.run?, hrule]
    rfl
  have hrebuilt : (apply2 .addition (.var false) (.num false (.real 0)) :
      Expr (Exact tg)).withNegative false =
        binary false .addition (.var false) (.num false (.real 0)) := rfl
  have hnone : foldConstant? .unrounded (binary false .addition (.var false)
      (.num false (.real 0)) : Expr (Exact tg)) = none := rfl
  rw [simplifyWithSteps_binary rfl, simplifyWithSteps_var, simplifyWithSteps_num le_rfl]
  simp only [hrebuilt, hnone, hrun, simplifyWithSteps_var]
  rfl

/-- The value of `x + 0` is kept. -/
theorem simplifyWithSteps_keeps_value_add_zero :
    let sum : Expr (Exact tangent?) := .binary false .addition (.var false) (.num false (.real 0))
    sum.simplifyWithSteps .unrounded = (.var false, [.addZero]) ∧
      Step.powerZero ∉ [Step.addZero] ∧
      sum.HasValue (.logPowerArgument ∈ [Step.addZero] ∨ .logPowerBase ∈ [Step.addZero]) 2 2 ∧
      (.var false : Expr (Exact tangent?)).HasValue
        (.logPowerArgument ∈ [Step.addZero] ∨ .logPowerBase ∈ [Step.addZero]) 2 2 ∧
      (.var false : Expr (Exact tangent?)).eval (.real 2) = sum.eval (.real 2) := by
  intro sum
  have hzero : Step.powerZero ∉ [Step.addZero] := by decide
  have hvalue : sum.HasValue
      (.logPowerArgument ∈ [Step.addZero] ∨ .logPowerBase ∈ [Step.addZero]) 2 2 :=
    ⟨2, 0, rfl, ⟨0, rfl, rfl⟩, trivial, add_zero 2⟩
  exact ⟨simplifyWithSteps_add_zero, hzero, hvalue,
    simplifyWithSteps_keeps_value sum (.var false) [.addZero] 2 2 simplifyWithSteps_add_zero hzero
      hvalue⟩

end Expr

end Univariate
