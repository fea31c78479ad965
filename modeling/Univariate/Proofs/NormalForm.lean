import Univariate.Proofs.DoubleLaws
import Univariate.Proofs.SimplificationRuns

/-!
# Simplified trees are in normal form

A tree is settled if its constant subtrees are rounded leaves and no rule applies to any of its other
nodes. Every run leaves a settled tree: an early return leaves a leaf, and the last call of a run
leaves a node that has been tried with all rules. What a settled node looks like follows from the
rules that do not apply to it, operation by operation.
-/

namespace Univariate

variable {α : Type} [Scalar α]

/-- What the operands of a node are not, if no rule applies to it. -/
def BinaryOp.Reduced : BinaryOp → Expr α → Expr α → Prop
  | addition, l, r | subtraction, l, r => l.isNumber 0 = false ∧ r.isNumber 0 = false
  | multiplication, l, r =>
    ∀ t ∈ [l, r], t.isNumber 0 = false ∧ t.isNumber 1 = false ∧ t.isNumber (-1) = false
  | division, l, r =>
    l.isNegative = false ∧ r.isNegative = false ∧ l.equal r = false ∧ l.isNumber 0 = false ∧
      r.isNumber 0 = false ∧ r.isNumber 1 = false
  | power, l, r =>
    l.isNumber 1 = false ∧ r.isNumber 0 = false ∧ r.isNumber 1 = false ∧ r.isNumber (-1) = false
  | logarithm, l, r =>
    (∀ t ∈ [l, r], t.isNegativeConstant = false ∧ ∀ a b, t ≠ .binary false .power a b) ∧
      r.isNumber 0 = false ∧ r.isNumber 1 = false ∧ l.equal r = false
  | root, _, _ => False

namespace Rule

omit [Scalar α] in
/-- Of several rules none applies exactly if each of them does not. -/
theorem firstOf_eq_none_iff {rules : List (Rule α)} {t : Expr α} :
    firstOf rules t = none ↔ ∀ rule ∈ rules, rule t = none :=
  List.findSome?_eq_none_iff

omit [Scalar α] in
/-- A condition for a reduct gives none exactly if it fails and what follows it gives none. -/
theorem ite_some_eq_none_iff {c : Bool} {reduct : Reduct α} {next : Option (Reduct α)} :
    (if c then some reduct else next) = none ↔ c = false ∧ next = none := by
  cases c <;> simp

variable {negative : Bool} {l r : Expr α}

/-- A sum or a difference that no rule applies to has no operand zero. -/
theorem reduced_of_add_eq_none {op : BinaryOp} (hop : op = .addition ∨ op = .subtraction)
    (h : add (.binary negative op l r) = none) :
    l.isNumber 0 = false ∧ r.isNumber 0 = false := by
  simp only [add, firstOf_eq_none_iff, List.forall_mem_cons] at h
  obtain ⟨hzero, hminus, -⟩ := h
  rcases hop with rfl | rfl
  · simpa [addZero, ite_some_eq_none_iff] using hzero
  · exact ⟨by simpa [subtractFromZero] using hminus, by simpa [addZero] using hzero⟩

/-- A product that no rule applies to is reduced. -/
theorem reduced_of_multiply_eq_none
    (h : multiply (.binary negative .multiplication l r) = none) :
    BinaryOp.Reduced .multiplication l r := by
  simp only [multiply, firstOf_eq_none_iff, List.forall_mem_cons] at h
  obtain ⟨hzero, hone, hminus, -⟩ := h
  have hzero : l.isNumber 0 = false ∧ r.isNumber 0 = false := by simpa [multiplyZero] using hzero
  have hone : l.isNumber 1 = false ∧ r.isNumber 1 = false := by
    simpa [multiplyOne, ite_some_eq_none_iff] using hone
  have hminus : l.isNumber (-1) = false ∧ r.isNumber (-1) = false := by
    simpa [multiplyMinusOne, ite_some_eq_none_iff] using hminus
  simp only [BinaryOp.Reduced, List.forall_mem_cons]
  exact ⟨⟨hzero.1, hone.1, hminus.1⟩, ⟨hzero.2, hone.2, hminus.2⟩, nofun⟩

/-- A quotient that no rule applies to is reduced. -/
theorem reduced_of_divide_eq_none (h : divide (.binary negative .division l r) = none) :
    BinaryOp.Reduced .division l r := by
  simp only [divide, firstOf_eq_none_iff, List.forall_mem_cons] at h
  obtain ⟨hbyZero, hzero, hself, hone, -, hsign, -⟩ := h
  have hsign : l.isNegative = false ∧ r.isNegative = false := by
    simpa [divideHoistSign] using hsign
  exact ⟨hsign.1, hsign.2, by simpa [divideSelf] using hself, by simpa [divideZero] using hzero,
    by simpa [divideByZero] using hbyZero, by simpa [divideOne] using hone⟩

/-- A logarithm that no rule applies to is reduced. -/
theorem reduced_of_log_eq_none (h : log (.binary negative .logarithm l r) = none) :
    BinaryOp.Reduced .logarithm l r := by
  simp only [log, firstOf_eq_none_iff, List.forall_mem_cons] at h
  obtain ⟨hnegative, hbaseZero, hbaseOne, hself, hargument, hbase, -⟩ := h
  have hnegative : l.isNegativeConstant = false ∧ r.isNegativeConstant = false := by
    simpa [logNegative] using hnegative
  have hargument (a b : Expr α) : l ≠ .binary false .power a b := by
    rintro rfl
    cases hargument
  have hbase (a b : Expr α) : r ≠ .binary false .power a b := by
    rintro rfl
    simp [logPowerBase] at hbase
  have hbaseZero : r.isNumber 0 = false := by
    by_contra hzero
    rw [Bool.not_eq_false] at hzero
    simp only [logBaseZero, hzero, if_true] at hbaseZero
    split at hbaseZero <;> cases hbaseZero
  simp only [BinaryOp.Reduced, List.forall_mem_cons]
  exact ⟨⟨⟨hnegative.1, hargument⟩, ⟨hnegative.2, hbase⟩, nofun⟩, hbaseZero,
    by simpa [logBaseOne] using hbaseOne, by simpa [logSelf] using hself⟩

/-- A tree that equals zero is constant and does not equal one. -/
theorem isConstant_of_isNumber_zero [LawfulComparison α] {t : Expr α} (h : t.isNumber 0 = true) :
    t.isConstant = true ∧ t.isNumber 1 = false := by
  unfold Expr.isNumber Expr.constant? at h ⊢
  cases hconst : t.isConstant with
  | false =>
    rw [hconst] at h
    cases h
  | true =>
    rw [hconst] at h
    exact ⟨rfl, Scalar.equal_one_of_equal_zero h⟩

/-- A power of zero is not a power of one, and its exponent is no number if the power depends on the
variable. -/
theorem reduced_of_power_eq_none [LawfulComparison α]
    (hvar : (Expr.binary negative .power l r).isConstant = false)
    (h : power (.binary negative .power l r) = none) : BinaryOp.Reduced .power l r := by
  rw [power] at h
  split at h
  · next hzero =>
    have hzero : l.isNumber 0 = true := hzero
    obtain ⟨hl, hone⟩ := isConstant_of_isNumber_zero hzero
    have hr : r.isConstant = false := by
      rw [Expr.isConstant, hl, Bool.true_and] at hvar
      exact hvar
    have hexponent (b : α) : r.isNumber b = false := by
      rw [Expr.isNumber, Expr.constant?_eq_none hr]
      rfl
    exact ⟨hone, hexponent 0, hexponent 1, hexponent (-1)⟩
  · simp only [powerOfNonzero, firstOf_eq_none_iff, List.forall_mem_cons] at h
    obtain ⟨hbase, hzero, hone, hminus, -⟩ := h
    exact ⟨by simpa [powerOneLeft] using hbase, by simpa [powerZero] using hzero,
      by simpa [powerOne] using hone, by simpa [powerMinusOne] using hminus⟩

/-- No rule applies to a node that depends on the variable only if its operands are none of those
that the rules are for. -/
theorem reduced_of_all_eq_none [LawfulComparison α] {op : BinaryOp}
    (hvar : (Expr.binary negative op l r).isConstant = false)
    (h : all (.binary negative op l r) = none) : op.Reduced l r := by
  simp only [all, firstOf_eq_none_iff, List.forall_mem_cons] at h
  obtain ⟨hadd, hmultiply, hdivide, hpower, hlog, hroot, -⟩ := h
  cases op with
  | addition => exact reduced_of_add_eq_none (.inl rfl) hadd
  | subtraction => exact reduced_of_add_eq_none (.inr rfl) hadd
  | multiplication => exact reduced_of_multiply_eq_none hmultiply
  | division => exact reduced_of_divide_eq_none hdivide
  | power => exact reduced_of_power_eq_none hvar hpower
  | logarithm => exact reduced_of_log_eq_none hlog
  | root => cases hroot

end Rule

namespace Expr

/-- Whether the operands of the node are none of those that a rule is for. -/
def IsReduced : Expr α → Prop
  | .binary _ op l r => op.Reduced l r
  | _ => True

omit [Scalar α] in
/-- The subtrees of a tree, which is one of them. -/
def subtrees : Expr α → List (Expr α)
  | .var negative => [.var negative]
  | .num negative magnitude => [.num negative magnitude]
  | .unary negative op a => .unary negative op a :: a.subtrees
  | .binary negative op a b => .binary negative op a b :: (a.subtrees ++ b.subtrees)

/-- A leaf, or a tree with the variable in it, is not folded further. -/
theorem folded_eq_self {t : Expr α} (h : t.isLeaf = true ∨ t.isConstant = false) :
    t.folded = t := by
  unfold folded
  cases hleaf : t.isLeaf with
  | true => rfl
  | false => rw [constant?_eq_none (h.resolve_left (by rw [hleaf]; exact Bool.false_ne_true))]; rfl

end Expr

/-- The leaf of a rounded value is a number. -/
theorem exists_roundedLeaf_eq (d : Decimals) (a : α) :
    ∃ negative magnitude, roundedLeaf d a = .num negative magnitude := by
  unfold roundedLeaf
  dsimp only
  split
  · exact ⟨_, _, rfl⟩
  · split <;> exact ⟨_, _, rfl⟩

/-- A tree that a precision leaves nothing to be done in: its constant subtrees are rounded leaves,
and no rule applies to the nodes that depend on the variable. -/
inductive Settled (d : Decimals) : Expr α → Prop
  | var (negative : Bool) : Settled d (.var negative)
  | num (a : α) : Settled d (roundedLeaf d a)
  | unary {negative : Bool} {op : UnaryOp} {a : Expr α} (ha : Settled d a)
      (hvar : (Expr.unary negative op a).isConstant = false) : Settled d (.unary negative op a)
  | binary {negative : Bool} {op : BinaryOp} {a b : Expr α} (ha : Settled d a) (hb : Settled d b)
      (hvar : (Expr.binary negative op a b).isConstant = false)
      (hrule : Rule.all (.binary negative op a b) = none) : Settled d (.binary negative op a b)

/-- A settled tree is a leaf if it is constant. -/
theorem Settled.folded_eq {d : Decimals} {t : Expr α} (h : Settled d t) : t.folded = t := by
  refine Expr.folded_eq_self ?_
  cases h with
  | var => exact .inl rfl
  | num a =>
    obtain ⟨negative, magnitude, ha⟩ := exists_roundedLeaf_eq d a
    rw [ha]
    exact .inl rfl
  | unary _ hvar => exact .inr hvar
  | binary _ _ hvar _ => exact .inr hvar

/-- The subtrees of a settled tree are settled. -/
theorem Settled.of_mem_subtrees {d : Decimals} {s t : Expr α} (h : Settled d t)
    (hs : s ∈ t.subtrees) : Settled d s := by
  induction h with
  | var negative =>
    cases List.mem_singleton.mp hs
    exact .var negative
  | num a =>
    obtain ⟨negative, magnitude, ha⟩ := exists_roundedLeaf_eq d a
    rw [ha] at hs
    cases List.mem_singleton.mp hs
    rw [← ha]
    exact .num a
  | unary ha hvar ih =>
    rcases List.mem_cons.mp hs with rfl | hs
    · exact .unary ha hvar
    · exact ih hs
  | binary ha hb hvar hrule iha ihb =>
    rcases List.mem_cons.mp hs with rfl | hs
    · exact .binary ha hb hvar hrule
    · exact (List.mem_append.mp hs).elim iha ihb

variable [DecidableEq α]

/-- A constant tree is folded to a settled one. -/
theorem settled_of_foldConstant? {d : Decimals} {t r : Expr α} {steps : List Step}
    (h : foldConstant? d t = some (r, steps)) : Settled d r := by
  obtain ⟨a, -, ha⟩ := Option.map_eq_some_iff.mp h
  cases ha
  exact .num a

/-- Every run leaves a settled tree. -/
theorem Simplifies.settled {d : Decimals} {t r : Expr α} {steps : List Step}
    (h : Simplifies d t r steps) : Settled d r := by
  induction h with
  | constant hfold => exact settled_of_foldConstant? hfold
  | var d negative => exact .var negative
  | unaryConstant _ _ hagain => exact settled_of_foldConstant? hagain
  | unary _ _ hagain ih => exact .unary ih (foldConstant?_eq_none_iff.mp hagain)
  | binaryConstant _ _ _ hagain => exact settled_of_foldConstant? hagain
  | binary _ _ _ hagain hrule iha ihb =>
    have hvar := foldConstant?_eq_none_iff.mp hagain
    rw [iha.folded_eq, ihb.folded_eq] at hvar hrule ⊢
    exact .binary iha ihb hvar hrule
  | replaced _ _ _ _ _ _ _ _ _ ihfinal => exact ihfinal
  | rebuilt _ _ _ _ _ _ _ _ _ _ _ ihfinal => exact ihfinal

omit [DecidableEq α] in
/-- A settled node that is no leaf depends on the variable, and no rule applies to it. -/
theorem Settled.of_isLeaf_eq_false [LawfulComparison α] {d : Decimals} {t : Expr α}
    (h : Settled d t) (hleaf : t.isLeaf = false) :
    t.isConstant = false ∧ Rule.all t = none ∧ t.IsReduced := by
  cases h with
  | var => cases hleaf
  | num a =>
    obtain ⟨negative, magnitude, ha⟩ := exists_roundedLeaf_eq d a
    rw [ha] at hleaf
    cases hleaf
  | unary _ hvar => exact ⟨hvar, rfl, trivial⟩
  | binary _ _ hvar hrule => exact ⟨hvar, hrule, Rule.reduced_of_all_eq_none hvar hrule⟩

variable [LawfulScalar α]

/-- What simplification leaves is settled. -/
theorem Expr.settled_simplify (t : Expr α) (d : Decimals) : Settled d (t.simplify d) :=
  (simplifies_iff.mpr rfl : Simplifies d t (t.simplify d) (t.simplifyWithSteps d).2).settled

/-- A simplified tree is in normal form at every depth: each of its subtrees that is no leaf depends
on the variable, and no rule applies to it. -/
theorem Expr.isReduced_of_mem_subtrees_simplify [LawfulComparison α] (t : Expr α) (d : Decimals)
    (s : Expr α) (hs : s ∈ (t.simplify d).subtrees) (hleaf : s.isLeaf = false) :
    s.isConstant = false ∧ Rule.all s = none ∧ s.IsReduced :=
  ((t.settled_simplify d).of_mem_subtrees hs).of_isLeaf_eq_false hleaf

/-- The root in `sin(nrt(x; 2))` becomes a power, which is in normal form. -/
theorem Expr.isReduced_of_mem_subtrees_simplify_sine :
    let power : Expr Float := .binary false .power (.var false) (.num false 0.5)
    let t : Expr Float := .unary false .sine (.binary false .root (.var false) (.num false 2))
    power ∈ (t.simplify .unrounded).subtrees ∧ power.isLeaf = false ∧
      power.isConstant = false ∧ Rule.all power = none ∧ power.IsReduced := by
  intro power t
  have hrun : Simplifies .unrounded t (.unary false .sine power) [.rootAsPower] :=
    .unary rfl simplifies_root rfl
  have hsimplify : t.simplify .unrounded = .unary false .sine power :=
    congrArg Prod.fst hrun.eq_simplifyWithSteps
  have hmem : power ∈ (t.simplify .unrounded).subtrees := by
    rw [hsimplify]
    exact List.mem_cons_of_mem _ List.mem_cons_self
  exact ⟨hmem, rfl, isReduced_of_mem_subtrees_simplify t .unrounded power hmem rfl⟩

end Univariate
