import Univariate.Double
import Univariate.Proofs.Construction

/-!
# Trees that can be obtained

A tree is obtained by any finite sequence of the operations on trees: the constructors, the
arithmetic, reading a text, substitution, the derivative, simplification, and single rules. All of
them build their results by the five constructors, whose trees are proper at every depth: each node
holds an operation with the right number of operands, no numeric leaf hides a sign, and a constant
operand of an operation is a numeric leaf.
-/

namespace Univariate

variable {α : Type} [Scalar α]

namespace Expr

/-- What the nodes of a tree are like: a node with one operand holds one of three functions, which
takes one operand; a node with two operands holds one of the seven other operations, which takes
two; a numeric leaf has a magnitude that is not below zero; and a constant operand of an operation
is a numeric leaf. -/
def IsProper : Expr α → Prop
  | .var _ => True
  | .num _ magnitude => Scalar.isNegative magnitude = false
  | .unary _ op _ =>
    op ∈ [.sine, .cosine, .tangent] ∧ (Operation.unary op).toUnary = .ok op
  | .binary _ op l r =>
    op ∈ [.addition, .subtraction, .multiplication, .division, .power, .logarithm, .root] ∧
      (Operation.binary op).toBinary = .ok op ∧
      ∀ operand ∈ [l, r], operand.isConstant = true →
        ∃ negative magnitude, operand = .num negative magnitude

/-- A function of one argument gets one operand. -/
theorem isProper_apply1 (op : UnaryOp) (t : Expr α) : (apply1 op t).IsProper :=
  ⟨by cases op <;> decide, rfl⟩

/-- A constant tree is folded into a numeric leaf. -/
theorem exists_folded_eq {t : Expr α} (h : t.isConstant = true) :
    ∃ negative magnitude, t.folded = .num negative magnitude := by
  cases t with
  | var => cases h
  | num negative magnitude => exact ⟨negative, magnitude, rfl⟩
  | unary | binary =>
    simp only [folded, isLeaf, Bool.false_eq_true, if_false, constant?, h, if_true]
    exact ⟨_, _, rfl⟩

/-- The operands of an operation are folded, so that its node is proper. -/
theorem isProper_apply2 (op : BinaryOp) (s t : Expr α) : (apply2 op s t).IsProper := by
  refine ⟨by cases op <;> decide, rfl, fun operand hmem hconstant => ?_⟩
  simp only [List.mem_cons, List.not_mem_nil, or_false] at hmem
  rcases hmem with rfl | rfl
  · rw [isConstant_folded] at hconstant
    exact exists_folded_eq hconstant
  · rw [isConstant_folded] at hconstant
    exact exists_folded_eq hconstant

/-- A proper tree is proper with another flag. -/
theorem isProper_withNegative (negative : Bool) {t : Expr α} (h : t.IsProper) :
    (t.withNegative negative).IsProper := by
  cases t <;> exact h

omit [Scalar α] in
/-- The flag of a tree is that of its root only. -/
theorem mem_subtrees_withNegative {negative : Bool} {s t : Expr α}
    (h : s ∈ (t.withNegative negative).subtrees) :
    s = t.withNegative negative ∨ s ∈ t.subtrees := by
  cases t with
  | var | num => exact .inl (List.mem_singleton.mp h)
  | unary | binary =>
    rcases List.mem_cons.mp h with rfl | h
    · exact .inl rfl
    · exact .inr (List.mem_cons_of_mem _ h)

omit [Scalar α] in
/-- A tree is one of its subtrees. -/
theorem mem_subtrees_self (t : Expr α) : t ∈ t.subtrees := by
  cases t <;> exact List.mem_cons_self

variable [LawfulScalar α]

/-- A number is a leaf without a hidden sign. -/
theorem isProper_ofNumber (a : α) : (ofNumber a).IsProper := LawfulScalar.abs_not_negative a

/-- The subtrees of a folded tree are proper if those of the tree are. -/
theorem isProper_of_mem_folded {t s : Expr α} (h : ∀ s ∈ t.subtrees, s.IsProper)
    (hs : s ∈ t.folded.subtrees) : s.IsProper := by
  unfold folded at hs
  split at hs
  · exact h s hs
  · split at hs
    · next a _ =>
      cases List.mem_singleton.mp hs
      exact isProper_ofNumber a
    · exact h s hs

/-- Trees that the constructors build are proper at every depth. -/
theorem Built.isProper_of_mem_subtrees {t : Expr α} (ht : t.Built) :
    ∀ s ∈ t.subtrees, s.IsProper := by
  induction ht with
  | var =>
    intro s hs
    cases List.mem_singleton.mp hs
    trivial
  | number a =>
    intro s hs
    cases List.mem_singleton.mp hs
    exact isProper_ofNumber a
  | apply1 op _ ih =>
    intro s hs
    rcases List.mem_cons.mp hs with rfl | hs
    · exact isProper_apply1 op _
    · exact ih s hs
  | apply2 op _ _ ihs iht =>
    intro s hs
    rcases List.mem_cons.mp hs with rfl | hs
    · exact isProper_apply2 op _ _
    · exact (List.mem_append.mp hs).elim (isProper_of_mem_folded ihs) (isProper_of_mem_folded iht)
  | withNegative negative _ ih =>
    intro s hs
    rcases mem_subtrees_withNegative hs with rfl | hs
    · exact isProper_withNegative negative (ih _ (mem_subtrees_self _))
    · exact ih s hs

end Expr

/-- The rules that can be applied one at a time, and the groups that they are tried in. -/
def Rule.published : List (Rule α) :=
  [addZero, subtractFromZero, add, multiplyZero, multiplyOne, multiplyMinusOne, multiply,
    divideByZero, divideZero, divideSelf, divideOne, divideMinusOne, divideHoistSign, divide,
    powerZeroLeft, powerOneLeft, powerZero, powerOne, powerMinusOne, power, logNegative,
    logBaseZero, logBaseOne, logSelf, logPowerArgument, logPowerBase, log, rootAsPower, root, all]

namespace Rule

/-- Every published rule makes of a node what a rule can make of it. -/
theorem isRewriting_of_mem_published : ∀ rule ∈ published (α := α), rule.IsRewriting := by
  simp only [published, List.forall_mem_cons, List.not_mem_nil, false_implies, implies_true,
    and_true]
  exact ⟨addZero_rewrites, subtractFromZero_rewrites, add_rewrites, multiplyZero_rewrites,
    multiplyOne_rewrites, multiplyMinusOne_rewrites, multiply_rewrites, divideByZero_rewrites,
    divideZero_rewrites, divideSelf_rewrites, divideOne_rewrites, divideMinusOne_rewrites,
    divideHoistSign_rewrites, divide_rewrites, powerZeroLeft_rewrites, powerOneLeft_rewrites,
    powerZero_rewrites, powerOne_rewrites, powerMinusOne_rewrites, power_rewrites,
    logNegative_rewrites, logBaseZero_rewrites, logBaseOne_rewrites, logSelf_rewrites,
    logPowerArgument_rewrites, logPowerBase_rewrites, log_rewrites, rootAsPower_rewrites,
    rootAsPower_rewrites, all_rewrites⟩

/-- Every published rule builds a tree that the constructors build. -/
theorem builds_of_mem_published : ∀ rule ∈ published (α := α), rule.Builds :=
  fun rule h => (isRewriting_of_mem_published rule h).builds

end Rule

variable [LawfulScalar α] [DecidableEq α] [HasNumerals α]

/-- The trees that a finite sequence of operations leads to. An operation becomes a node only if it
takes the number of operands that it is given. -/
inductive Obtained : Expr α → Prop
  | var : Obtained (.var false)
  | number (a : α) : Obtained (.ofNumber a)
  | euler : Obtained .euler
  | unary {o : Operation} {op : UnaryOp} {t : Expr α} (ho : o.toUnary = .ok op)
      (ht : Obtained t) : Obtained (.apply1 op t)
  | binary {o : Operation} {op : BinaryOp} {s t : Expr α} (ho : o.toBinary = .ok op)
      (hs : Obtained s) (ht : Obtained t) : Obtained (.apply2 op s t)
  | neg {t : Expr α} (ht : Obtained t) : Obtained (-t)
  | withNegative (negative : Bool) {t : Expr α} (ht : Obtained t) :
      Obtained (t.withNegative negative)
  | negateIf (negate : Bool) {t : Expr α} (ht : Obtained t) : Obtained (t.negateIf negate)
  | unsigned {t : Expr α} (ht : Obtained t) : Obtained t.unsigned
  | add {s t : Expr α} (hs : Obtained s) (ht : Obtained t) : Obtained (s + t)
  | sub {s t : Expr α} (hs : Obtained s) (ht : Obtained t) : Obtained (s - t)
  | mul {s t : Expr α} (hs : Obtained s) (ht : Obtained t) : Obtained (s * t)
  | div {s t : Expr α} (hs : Obtained s) (ht : Obtained t) : Obtained (s / t)
  | pow {s t : Expr α} (hs : Obtained s) (ht : Obtained t) : Obtained (s.pow t)
  | log {s t : Expr α} (hs : Obtained s) (ht : Obtained t) : Obtained (s.log t)
  | ln {t : Expr α} (ht : Obtained t) : Obtained t.ln
  | root {s t : Expr α} (hs : Obtained s) (ht : Obtained t) : Obtained (s.root t)
  | sin {t : Expr α} (ht : Obtained t) : Obtained t.sin
  | cos {t : Expr α} (ht : Obtained t) : Obtained t.cos
  | tan {t : Expr α} (ht : Obtained t) : Obtained t.tan
  | parse {letter : Char} {source : List Char} {t : Expr α} (h : parse letter source = .ok t) :
      Obtained t
  | substitute {s t : Expr α} (hs : Obtained s) (ht : Obtained t) : Obtained (s.substitute t)
  | derivative {t : Expr α} (ht : Obtained t) : Obtained t.derivative
  | simplify (d : Decimals) {t : Expr α} (ht : Obtained t) : Obtained (t.simplify d)
  | rule {rule : Rule α} {t r : Expr α} {steps : List Step} (hrule : rule ∈ Rule.published)
      (hrun : rule.run? t = some (r, steps)) (ht : Obtained t) : Obtained r

/-- Every operation on trees builds its result by the constructors. -/
theorem Obtained.built {t : Expr α} (h : Obtained t) : t.Built := by
  induction h with
  | var => exact .var
  | number a => exact .number a
  | euler => exact .number _
  | unary _ _ iht => exact .apply1 _ iht
  | binary _ _ _ ihs iht => exact .apply2 _ ihs iht
  | neg _ ih => exact ih.neg
  | withNegative negative _ ih => exact ih.withNegative negative
  | negateIf negate _ ih => exact ih.negateIf negate
  | unsigned _ ih => exact ih.unsigned
  | add _ _ ihs iht => exact ihs.add iht
  | sub _ _ ihs iht => exact ihs.sub iht
  | mul _ _ ihs iht => exact ihs.mul iht
  | div _ _ ihs iht => exact ihs.div iht
  | pow _ _ ihs iht => exact ihs.pow iht
  | log _ _ ihs iht => exact ihs.log iht
  | ln _ ih => exact ih.ln
  | root _ _ ihs iht => exact .apply2 _ ihs iht
  | sin _ ih => exact .apply1 _ ih
  | cos _ ih => exact .apply1 _ ih
  | tan _ ih => exact .apply1 _ ih
  | parse h => exact built_of_parse h
  | substitute _ _ ihs iht => exact ihs.substitute iht
  | derivative _ ih => exact ih.derivative
  | simplify d _ ih => exact ih.simplify d
  | rule hrule hrun _ ih => exact (Rule.builds_of_mem_published _ hrule).run? hrun ih

/-- Every node of every tree that can be obtained is proper. -/
theorem Obtained.isProper {t : Expr α} (h : Obtained t) : ∀ s ∈ t.subtrees, s.IsProper :=
  h.built.isProper_of_mem_subtrees

/-- The rule for roots makes `nrt(x; 2)` a power, of which the derivative at `-x` is taken. -/
theorem Obtained.isProper_root :
    let root : Expr Float := Expr.root (.var false) (.ofNumber 2)
    let power : Expr Float := .binary false .power (.var false) (.num false 0.5)
    let t : Expr Float := power.derivative.substitute (-.var false)
    Rule.rootAsPower.run? root = some (power, [.rootAsPower]) ∧ Obtained t ∧
      ∀ s ∈ t.subtrees, s.IsProper := by
  intro root power t
  have hx : Obtained (.var false : Expr Float) := .var
  have hroot : Obtained root := .root hx (.number 2)
  have hvar : Simplifies .unrounded (.var false : Expr Float) (.var false) [] := .var _ false
  have hhalf : Simplifies .unrounded (.num false 0.5 : Expr Float) (.num false 0.5) [] :=
    .constant rfl
  have hpower : Simplifies .unrounded power power [] := .binary rfl hvar hhalf rfl rfl
  have hrun : Rule.rootAsPower.run? root = some (power, [.rootAsPower]) := by
    have hreduct : Rule.rootAsPower root = some ⟨.rootAsPower, power⟩ := rfl
    have hwhole : (simplifyBounded .unrounded power).1 = (power, []) := simplifies_iff.mp hpower
    rw [Rule.run?, hreduct, Option.map_some]
    simp [Step.isRebuilding, hwhole]
  have hmem : Rule.rootAsPower ∈ Rule.published (α := Float) := by
    simp [Rule.published]
  have ht : Obtained t := .substitute (.derivative (.rule hmem hrun hroot)) (.neg hx)
  exact ⟨hrun, ht, ht.isProper⟩

end Univariate
