import Univariate.Proofs.NumberLaws
import Univariate.Simplify.Rule

/-!
# Rules and signs

Every rule treats a node and the negated node alike: either it applies to neither, or it applies to
both by the same step. It builds the negated tree from the negated node, except that a zero or an
undefined value, which has no sign, is built from both.
-/

namespace Univariate

variable {α : Type} [Scalar α]

/-- Neither the number nor its negation is below zero. -/
structure Scalar.Signless (a : α) : Prop where
  not_negative : Scalar.isNegative a = false
  neg_not_negative : Scalar.isNegative (-a) = false

namespace Scalar.Signless

variable [LawfulNegation α]

/-- Zero and undefined values are all the numbers without a sign. -/
theorem iff_equal {a : α} : Signless a ↔ equal a 0 = true ∨ equal a a = false := by
  constructor
  · rintro ⟨ha, hneg⟩
    cases hzero : equal a 0 with
    | true => exact .inl rfl
    | false =>
      refine .inr (Bool.eq_false_iff.mpr fun hself => ?_)
      rw [LawfulNegation.isNegative_neg ha hself hzero] at hneg
      cases hneg
  · rintro (hzero | hself)
    · constructor
      · rw [LawfulSign.isNegative_congr hzero, LawfulNegation.isNegative_zero]
      · rw [LawfulSign.isNegative_congr (LawfulSign.equal_neg hzero),
          LawfulNegation.isNegative_neg_zero]
    · constructor
      · refine Bool.eq_false_iff.mpr fun hbelow => ?_
        rw [LawfulNegation.equal_self_of_isNegative hbelow] at hself
        cases hself
      · refine Bool.eq_false_iff.mpr fun hbelow => ?_
        have hneg := LawfulSign.equal_neg (LawfulNegation.equal_self_of_isNegative hbelow)
        rw [LawfulSign.neg_neg, hself] at hneg
        cases hneg

/-- Zero has no sign. -/
theorem zero : Signless (0 : α) :=
  ⟨LawfulNegation.isNegative_zero, LawfulNegation.isNegative_neg_zero⟩

/-- The undefined number has no sign. -/
theorem undefined : Signless (Scalar.undefined : α) :=
  iff_equal.mpr (.inr LawfulNegation.undefined_ne_self)

end Scalar.Signless

/-- How what a rule builds from a negated node compares with what it builds from the node. -/
structure Reduct.Opposes (s t : Reduct α) : Prop where
  step : s.step = t.step
  tree : s.tree = -t.tree ∨ t.step.isRebuilding = false ∧ s.tree = t.tree ∧
    ∃ a, Scalar.Signless a ∧ t.tree = .ofNumber a

namespace Rule

/-- The rule applies to a negated node as it applies to the node. -/
def IsOdd (rule : Rule α) : Prop := ∀ t, Option.Rel Reduct.Opposes (rule (-t)) (rule t)

/-- A rule that does not apply to a node does not apply to the negated node either. -/
theorem IsOdd.eq_none {rule : Rule α} (hrule : rule.IsOdd) {t : Expr α} (h : rule t = none) :
    rule (-t) = none := by
  have hodd := hrule t
  rw [h] at hodd
  cases hneg : rule (-t) with
  | none => rfl
  | some s =>
    rw [hneg] at hodd
    cases hodd

/-- A rule that applies to a node applies to the negated node, with the opposite reduct. -/
theorem IsOdd.exists_opposes {rule : Rule α} (hrule : rule.IsOdd) {t : Expr α} {s : Reduct α}
    (h : rule t = some s) : ∃ s', rule (-t) = some s' ∧ s'.Opposes s := by
  have hodd := hrule t
  rw [h] at hodd
  cases hneg : rule (-t) with
  | none =>
    rw [hneg] at hodd
    cases hodd
  | some s' =>
    rw [hneg] at hodd
    cases hodd with
    | some hopposes => exact ⟨s', rfl, hopposes⟩

/-- What is built with the sign of the node. -/
theorem opposes_negateIf (step : Step) (negative : Bool) (t : Expr α) :
    Option.Rel Reduct.Opposes (some ⟨step, t.negateIf (!negative)⟩)
      (some ⟨step, t.negateIf negative⟩) :=
  .some ⟨rfl, .inl (Expr.negateIf_not negative t)⟩

/-- What is built whatever the sign of the node is. -/
theorem opposes_number {step : Step} (hstep : step.isRebuilding = false) {a : α}
    (ha : Scalar.Signless a) : Option.Rel Reduct.Opposes (some ⟨step, .ofNumber a⟩)
      (some ⟨step, .ofNumber a⟩) :=
  .some ⟨rfl, .inr ⟨hstep, rfl, a, ha, rfl⟩⟩

/-- A condition that a sign does not change chooses between opposite reducts. -/
theorem opposes_ite {c : Prop} [Decidable c] {r s r' s' : Option (Reduct α)}
    (h : Option.Rel Reduct.Opposes r s) (h' : Option.Rel Reduct.Opposes r' s') :
    Option.Rel Reduct.Opposes (if c then r else r') (if c then s else s') := by
  split
  · exact h
  · exact h'

/-- Rules that are tried in turn are odd if each of them is. -/
theorem isOdd_firstOf {rules : List (Rule α)} (h : ∀ rule ∈ rules, IsOdd rule) :
    IsOdd (firstOf rules) := by
  intro t
  induction rules with
  | nil => exact .none
  | cons rule rules ih =>
    obtain ⟨hrule, hrules⟩ := List.forall_mem_cons.mp h
    unfold firstOf at ih ⊢
    rw [List.findSome?_cons, List.findSome?_cons]
    cases ht : rule t with
    | none =>
      rw [hrule.eq_none ht]
      exact ih hrules
    | some s =>
      obtain ⟨s', hs', hopposes⟩ := hrule.exists_opposes ht
      rw [hs']
      exact .some hopposes

/-- A zero operand of a sum or a difference goes with either sign of the node. -/
theorem addZero_isOdd : IsOdd (addZero (α := α)) := by
  intro t
  cases t with
  | binary negative op l r =>
    cases op with
    | addition =>
      exact opposes_ite (opposes_negateIf _ negative r)
        (opposes_ite (opposes_negateIf _ negative l) .none)
    | subtraction => exact opposes_ite (opposes_negateIf _ negative l) .none
    | _ => exact .none
  | _ => exact .none

/-- A difference from zero becomes a negation with either sign of the node. -/
theorem subtractFromZero_isOdd : IsOdd (subtractFromZero (α := α)) := by
  intro t
  cases t with
  | binary negative op l r =>
    cases op with
    | subtraction => exact opposes_ite (opposes_negateIf _ negative (-r)) .none
    | _ => exact .none
  | _ => exact .none

/-- The rules for sums and differences are odd. -/
theorem add_isOdd : IsOdd (add (α := α)) :=
  isOdd_firstOf (by
    simp only [List.forall_mem_cons]
    exact ⟨addZero_isOdd, subtractFromZero_isOdd, nofun⟩)

/-- An operand one of a product goes with either sign of the node. -/
theorem multiplyOne_isOdd : IsOdd (multiplyOne (α := α)) := by
  intro t
  cases t with
  | binary negative op l r =>
    cases op with
    | multiplication =>
      exact opposes_ite (opposes_negateIf _ negative r)
        (opposes_ite (opposes_negateIf _ negative l) .none)
    | _ => exact .none
  | _ => exact .none

/-- A product with minus one becomes a negation with either sign of the node. -/
theorem multiplyMinusOne_isOdd : IsOdd (multiplyMinusOne (α := α)) := by
  intro t
  cases t with
  | binary negative op l r =>
    cases op with
    | multiplication =>
      exact opposes_ite (opposes_negateIf _ negative (-r))
        (opposes_ite (opposes_negateIf _ negative (-l)) .none)
    | _ => exact .none
  | _ => exact .none

/-- A quotient of equal trees becomes one, with the sign of the node. -/
theorem divideSelf_isOdd : IsOdd (divideSelf (α := α)) := by
  intro t
  cases t with
  | binary negative op l r =>
    cases op with
    | division => exact opposes_ite (opposes_negateIf _ negative (.ofNumber 1)) .none
    | _ => exact .none
  | _ => exact .none

/-- A divisor one goes with either sign of the node. -/
theorem divideOne_isOdd : IsOdd (divideOne (α := α)) := by
  intro t
  cases t with
  | binary negative op l r =>
    cases op with
    | division => exact opposes_ite (opposes_negateIf _ negative l) .none
    | _ => exact .none
  | _ => exact .none

/-- A quotient by minus one becomes a negation with either sign of the node. -/
theorem divideMinusOne_isOdd : IsOdd (divideMinusOne (α := α)) := by
  intro t
  cases t with
  | binary negative op l r =>
    cases op with
    | division => exact opposes_ite (opposes_negateIf _ negative (-l)) .none
    | _ => exact .none
  | _ => exact .none

/-- The sign of the node is combined with those of the operands. -/
theorem divideHoistSign_isOdd : IsOdd (divideHoistSign (α := α)) := by
  intro t
  cases t with
  | binary negative op l r =>
    cases op with
    | division =>
      refine opposes_ite (.some ⟨rfl, .inl ?_⟩) .none
      rw [Expr.neg_def, Expr.isNegative_withNegative, Expr.withNegative_withNegative, Bool.not_bne]
      rfl
    | _ => exact .none
  | _ => exact .none

/-- A power of one becomes one, with the sign of the node. -/
theorem powerOneLeft_isOdd : IsOdd (powerOneLeft (α := α)) := by
  intro t
  cases t with
  | binary negative op l r =>
    cases op with
    | power => exact opposes_ite (opposes_negateIf _ negative (.ofNumber 1)) .none
    | _ => exact .none
  | _ => exact .none

/-- An exponent one goes with either sign of the node. -/
theorem powerOne_isOdd : IsOdd (powerOne (α := α)) := by
  intro t
  cases t with
  | binary negative op l r =>
    cases op with
    | power => exact opposes_ite (opposes_negateIf _ negative l) .none
    | _ => exact .none
  | _ => exact .none

/-- A power with exponent minus one becomes an inverse with either sign of the node. -/
theorem powerMinusOne_isOdd : IsOdd (powerMinusOne (α := α)) := by
  intro t
  cases t with
  | binary negative op l r =>
    cases op with
    | power => exact opposes_ite (opposes_negateIf _ negative (.ofNumber 1 / l)) .none
    | _ => exact .none
  | _ => exact .none

/-- The sign of a node does not matter to whether it is a power of zero. -/
theorem isPowerOfZero_neg (t : Expr α) : isPowerOfZero (-t) = isPowerOfZero t := by
  cases t with
  | binary negative op l r => cases op <;> rfl
  | _ => rfl

/-- The logarithm of the base becomes one, with the sign of the node. -/
theorem logSelf_isOdd : IsOdd (logSelf (α := α)) := by
  intro t
  cases t with
  | binary negative op l r =>
    cases op with
    | logarithm => exact opposes_ite (opposes_negateIf _ negative (.ofNumber 1)) .none
    | _ => exact .none
  | _ => exact .none

/-- The exponent of an argument comes out of a logarithm with either sign. -/
theorem logPowerArgument_isOdd : IsOdd (logPowerArgument (α := α)) := by
  intro t
  cases t with
  | binary negative op l r =>
    cases op with
    | logarithm =>
      cases l with
      | binary n o a b =>
        cases n with
        | true => exact .none
        | false =>
          cases o with
          | power => exact opposes_negateIf _ negative (b * a.log r)
          | _ => exact .none
      | _ => exact .none
    | _ => exact .none
  | _ => exact .none

/-- The exponent of a base comes out of a logarithm with either sign. -/
theorem logPowerBase_isOdd : IsOdd (logPowerBase (α := α)) := by
  intro t
  cases t with
  | binary negative op l r =>
    cases op with
    | logarithm =>
      cases r with
      | binary n o a b =>
        cases n with
        | true => exact .none
        | false =>
          cases o with
          | power => exact opposes_negateIf _ negative (l.log a / b)
          | _ => exact .none
      | _ => exact .none
    | _ => exact .none
  | _ => exact .none

/-- A root becomes a power with either sign of the node. -/
theorem rootAsPower_isOdd : IsOdd (rootAsPower (α := α)) := by
  intro t
  cases t with
  | binary negative op l r =>
    cases op with
    | root => exact opposes_negateIf _ negative (l.pow (.ofNumber 1 / r))
    | _ => exact .none
  | _ => exact .none

variable [LawfulNegation α]

/-- A product with a zero operand becomes zero, which has no sign. -/
theorem multiplyZero_isOdd : IsOdd (multiplyZero (α := α)) := by
  intro t
  cases t with
  | binary negative op l r =>
    cases op with
    | multiplication => exact opposes_ite (opposes_number rfl .zero) .none
    | _ => exact .none
  | _ => exact .none

/-- A quotient by zero becomes undefined, which has no sign. -/
theorem divideByZero_isOdd : IsOdd (divideByZero (α := α)) := by
  intro t
  cases t with
  | binary negative op l r =>
    cases op with
    | division => exact opposes_ite (opposes_number rfl .undefined) .none
    | _ => exact .none
  | _ => exact .none

/-- A quotient of zero becomes zero, which has no sign. -/
theorem divideZero_isOdd : IsOdd (divideZero (α := α)) := by
  intro t
  cases t with
  | binary negative op l r =>
    cases op with
    | division => exact opposes_ite (opposes_number rfl .zero) .none
    | _ => exact .none
  | _ => exact .none

/-- A power of zero becomes one with the sign of the node, or a number without a sign. -/
theorem powerZeroLeft_isOdd : IsOdd (powerZeroLeft (α := α)) := by
  intro t
  cases t with
  | binary negative op l r =>
    cases op with
    | power =>
      exact opposes_ite (opposes_ite (opposes_negateIf _ negative (.ofNumber 1))
        (opposes_ite (opposes_number rfl .zero)
          (opposes_ite (opposes_number rfl .undefined) .none))) .none
    | _ => exact .none
  | _ => exact .none

/-- A power with exponent zero becomes zero, which has no sign. -/
theorem powerZero_isOdd : IsOdd (powerZero (α := α)) := by
  intro t
  cases t with
  | binary negative op l r =>
    cases op with
    | power => exact opposes_ite (opposes_number rfl .zero) .none
    | _ => exact .none
  | _ => exact .none

/-- A logarithm with a negative argument or base becomes undefined, which has no sign. -/
theorem logNegative_isOdd : IsOdd (logNegative (α := α)) := by
  intro t
  cases t with
  | binary negative op l r =>
    cases op with
    | logarithm => exact opposes_ite (opposes_number rfl .undefined) .none
    | _ => exact .none
  | _ => exact .none

/-- A logarithm to the base zero becomes a number without a sign. -/
theorem logBaseZero_isOdd : IsOdd (logBaseZero (α := α)) := by
  intro t
  cases t with
  | binary negative op l r =>
    cases op with
    | logarithm =>
      exact opposes_ite
        (opposes_ite (opposes_number rfl .zero) (opposes_number rfl .undefined)) .none
    | _ => exact .none
  | _ => exact .none

/-- A logarithm to the base one becomes undefined, which has no sign. -/
theorem logBaseOne_isOdd : IsOdd (logBaseOne (α := α)) := by
  intro t
  cases t with
  | binary negative op l r =>
    cases op with
    | logarithm => exact opposes_ite (opposes_number rfl .undefined) .none
    | _ => exact .none
  | _ => exact .none

/-- The rules for products are odd. -/
theorem multiply_isOdd : IsOdd (multiply (α := α)) :=
  isOdd_firstOf (by
    simp only [List.forall_mem_cons]
    exact ⟨multiplyZero_isOdd, multiplyOne_isOdd, multiplyMinusOne_isOdd, nofun⟩)

/-- The rules for quotients are odd. -/
theorem divide_isOdd : IsOdd (divide (α := α)) :=
  isOdd_firstOf (by
    simp only [List.forall_mem_cons]
    exact ⟨divideByZero_isOdd, divideZero_isOdd, divideSelf_isOdd, divideOne_isOdd,
      divideMinusOne_isOdd, divideHoistSign_isOdd, nofun⟩)

/-- The rules for powers of anything but zero are odd. -/
theorem powerOfNonzero_isOdd : IsOdd (powerOfNonzero (α := α)) :=
  isOdd_firstOf (by
    simp only [List.forall_mem_cons]
    exact ⟨powerOneLeft_isOdd, powerZero_isOdd, powerOne_isOdd, powerMinusOne_isOdd, nofun⟩)

/-- The rules for powers are odd. -/
theorem power_isOdd : IsOdd (power (α := α)) := by
  intro t
  rw [power, power, isPowerOfZero_neg]
  exact opposes_ite (powerZeroLeft_isOdd t) (powerOfNonzero_isOdd t)

/-- The rules for logarithms are odd. -/
theorem log_isOdd : IsOdd (log (α := α)) :=
  isOdd_firstOf (by
    simp only [List.forall_mem_cons]
    exact ⟨logNegative_isOdd, logBaseZero_isOdd, logBaseOne_isOdd, logSelf_isOdd,
      logPowerArgument_isOdd, logPowerBase_isOdd, nofun⟩)

/-- Every rule applies to a negated node as it applies to the node. -/
theorem all_isOdd : IsOdd (all (α := α)) :=
  isOdd_firstOf (by
    simp only [List.forall_mem_cons]
    exact ⟨add_isOdd, multiply_isOdd, divide_isOdd, power_isOdd, log_isOdd, rootAsPower_isOdd,
      nofun⟩)

end Rule

end Univariate
