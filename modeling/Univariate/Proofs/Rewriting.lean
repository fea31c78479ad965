import Univariate.Simplify.Rule

/-!
# What a rule makes of a node

A rule takes a node apart and uses each part at most once. Whatever all rules keep can be read off
the few forms that their results have, so that the rules themselves are looked into only once, to
show that each of them makes one of these forms of a node.
-/

namespace Univariate

variable {α : Type} [Scalar α]

/-- What a rule can make of a node: a number, one of the operands, or a new node that uses each
operand, and each operand of a power inside a logarithm, once. -/
inductive Rewrites : Expr α → Expr α → Prop
  | number (t : Expr α) (a : α) : Rewrites t (.ofNumber a)
  | left (negative : Bool) (op : BinaryOp) (l r : Expr α) : Rewrites (.binary negative op l r) l
  | right (negative : Bool) (op : BinaryOp) (l r : Expr α) : Rewrites (.binary negative op l r) r
  | quotient (negative : Bool) (l r : Expr α) :
      Rewrites (.binary negative .division l r) (.apply2 .division l.unsigned r.unsigned)
  | inverse (negative : Bool) (l r : Expr α) :
      Rewrites (.binary negative .power l r) (.ofNumber 1 / l)
  | factor (negative : Bool) (a b r : Expr α) :
      Rewrites (.binary negative .logarithm (.binary false .power a b) r) (b * a.log r)
  | divisor (negative : Bool) (l a b : Expr α) :
      Rewrites (.binary negative .logarithm l (.binary false .power a b)) (l.log a / b)
  | power (negative : Bool) (l r : Expr α) :
      Rewrites (.binary negative .root l r) (l.pow (.ofNumber 1 / r))
  | withNegative {t s : Expr α} (negative : Bool) (h : Rewrites t s) :
      Rewrites t (s.withNegative negative)

namespace Rewrites

variable {s t : Expr α}

/-- What a node is rewritten to may have its sign changed. -/
theorem negateIf (h : Rewrites t s) (negate : Bool) : Rewrites t (s.negateIf negate) := by
  rw [Expr.negateIf_eq]
  exact .withNegative _ h

/-- What a node is rewritten to may be negated. -/
theorem neg (h : Rewrites t s) : Rewrites t (-s) := .withNegative _ h

end Rewrites

namespace Rule

/-- The rule makes of a node what a rule can make of it. -/
def IsRewriting (rule : Rule α) : Prop := ∀ t r, rule t = some r → Rewrites t r.tree

/-- Rules that are tried in turn make of a node what each of them can. -/
theorem isRewriting_firstOf {rules : List (Rule α)} (h : ∀ rule ∈ rules, IsRewriting rule) :
    IsRewriting (firstOf rules) := by
  intro t r hr
  obtain ⟨rule, hmem, hrule⟩ := List.exists_of_findSome?_eq_some hr
  exact h rule hmem t r hrule

/-- An operand of a sum or a difference remains, with a sign. -/
theorem addZero_rewrites : IsRewriting (addZero (α := α)) := by
  intro t r h
  unfold addZero at h
  split at h <;> (try split at h) <;> (try split at h) <;> cases h
  · exact (Rewrites.right _ _ _ _).negateIf _
  · exact (Rewrites.left _ _ _ _).negateIf _
  · exact (Rewrites.left _ _ _ _).negateIf _

/-- The subtrahend of a difference remains, with a sign. -/
theorem subtractFromZero_rewrites : IsRewriting (subtractFromZero (α := α)) := by
  intro t r h
  unfold subtractFromZero at h
  split at h <;> (try split at h) <;> cases h
  exact (Rewrites.right _ _ _ _).neg.negateIf _

/-- The rules for sums and differences leave an operand. -/
theorem add_rewrites : IsRewriting (add (α := α)) :=
  isRewriting_firstOf (by
    simp only [List.forall_mem_cons]
    exact ⟨addZero_rewrites, subtractFromZero_rewrites, nofun⟩)

/-- A product with a zero operand becomes a number. -/
theorem multiplyZero_rewrites : IsRewriting (multiplyZero (α := α)) := by
  intro t r h
  unfold multiplyZero at h
  split at h <;> (try split at h) <;> cases h
  exact .number _ _

/-- The other operand of a product with one remains, with a sign. -/
theorem multiplyOne_rewrites : IsRewriting (multiplyOne (α := α)) := by
  intro t r h
  unfold multiplyOne at h
  split at h <;> (try split at h) <;> (try split at h) <;> cases h
  · exact (Rewrites.right _ _ _ _).negateIf _
  · exact (Rewrites.left _ _ _ _).negateIf _

/-- The other operand of a product with minus one remains, with a sign. -/
theorem multiplyMinusOne_rewrites : IsRewriting (multiplyMinusOne (α := α)) := by
  intro t r h
  unfold multiplyMinusOne at h
  split at h <;> (try split at h) <;> (try split at h) <;> cases h
  · exact (Rewrites.right _ _ _ _).neg.negateIf _
  · exact (Rewrites.left _ _ _ _).neg.negateIf _

/-- The rules for products leave an operand or a number. -/
theorem multiply_rewrites : IsRewriting (multiply (α := α)) :=
  isRewriting_firstOf (by
    simp only [List.forall_mem_cons]
    exact ⟨multiplyZero_rewrites, multiplyOne_rewrites, multiplyMinusOne_rewrites, nofun⟩)

/-- A quotient by zero becomes a number. -/
theorem divideByZero_rewrites : IsRewriting (divideByZero (α := α)) := by
  intro t r h
  unfold divideByZero at h
  split at h <;> (try split at h) <;> cases h
  exact .number _ _

/-- A quotient of zero becomes a number. -/
theorem divideZero_rewrites : IsRewriting (divideZero (α := α)) := by
  intro t r h
  unfold divideZero at h
  split at h <;> (try split at h) <;> cases h
  exact .number _ _

/-- A quotient of equal trees becomes a number. -/
theorem divideSelf_rewrites : IsRewriting (divideSelf (α := α)) := by
  intro t r h
  unfold divideSelf at h
  split at h <;> (try split at h) <;> cases h
  exact (Rewrites.number _ _).negateIf _

/-- The dividend of a quotient by one remains, with a sign. -/
theorem divideOne_rewrites : IsRewriting (divideOne (α := α)) := by
  intro t r h
  unfold divideOne at h
  split at h <;> (try split at h) <;> cases h
  exact (Rewrites.left _ _ _ _).negateIf _

/-- The dividend of a quotient by minus one remains, with a sign. -/
theorem divideMinusOne_rewrites : IsRewriting (divideMinusOne (α := α)) := by
  intro t r h
  unfold divideMinusOne at h
  split at h <;> (try split at h) <;> cases h
  exact (Rewrites.left _ _ _ _).neg.negateIf _

/-- The quotient of the operands without their signs remains, with a sign. -/
theorem divideHoistSign_rewrites : IsRewriting (divideHoistSign (α := α)) := by
  intro t r h
  unfold divideHoistSign at h
  split at h <;> (try split at h) <;> cases h
  exact .withNegative _ (.quotient _ _ _)

/-- The rules for quotients leave the dividend, a number or a quotient. -/
theorem divide_rewrites : IsRewriting (divide (α := α)) :=
  isRewriting_firstOf (by
    simp only [List.forall_mem_cons]
    exact ⟨divideByZero_rewrites, divideZero_rewrites, divideSelf_rewrites, divideOne_rewrites,
      divideMinusOne_rewrites, divideHoistSign_rewrites, nofun⟩)

/-- A power of zero becomes a number. -/
theorem powerZeroLeft_rewrites : IsRewriting (powerZeroLeft (α := α)) := by
  intro t r h
  unfold powerZeroLeft at h
  split at h <;> (try split at h) <;> (try split at h) <;> (try split at h) <;>
    (try split at h) <;> cases h
  · exact (Rewrites.number _ _).negateIf _
  · exact .number _ _
  · exact .number _ _

/-- A power of one becomes a number. -/
theorem powerOneLeft_rewrites : IsRewriting (powerOneLeft (α := α)) := by
  intro t r h
  unfold powerOneLeft at h
  split at h <;> (try split at h) <;> cases h
  exact (Rewrites.number _ _).negateIf _

/-- A power with exponent zero becomes a number. -/
theorem powerZero_rewrites : IsRewriting (powerZero (α := α)) := by
  intro t r h
  unfold powerZero at h
  split at h <;> (try split at h) <;> cases h
  exact .number _ _

/-- The base of a power with exponent one remains, with a sign. -/
theorem powerOne_rewrites : IsRewriting (powerOne (α := α)) := by
  intro t r h
  unfold powerOne at h
  split at h <;> (try split at h) <;> cases h
  exact (Rewrites.left _ _ _ _).negateIf _

/-- A power with exponent minus one becomes the inverse of its base. -/
theorem powerMinusOne_rewrites : IsRewriting (powerMinusOne (α := α)) := by
  intro t r h
  unfold powerMinusOne at h
  split at h <;> (try split at h) <;> cases h
  exact (Rewrites.inverse _ _ _).negateIf _

/-- The rules for powers of anything but zero leave the base, its inverse or a number. -/
theorem powerOfNonzero_rewrites : IsRewriting (powerOfNonzero (α := α)) :=
  isRewriting_firstOf (by
    simp only [List.forall_mem_cons]
    exact ⟨powerOneLeft_rewrites, powerZero_rewrites, powerOne_rewrites, powerMinusOne_rewrites,
      nofun⟩)

/-- The rules for powers leave the base, its inverse or a number. -/
theorem power_rewrites : IsRewriting (power (α := α)) := by
  intro t r h
  unfold power at h
  split at h
  · exact powerZeroLeft_rewrites t r h
  · exact powerOfNonzero_rewrites t r h

/-- A logarithm with a negative argument or base becomes a number. -/
theorem logNegative_rewrites : IsRewriting (logNegative (α := α)) := by
  intro t r h
  unfold logNegative at h
  split at h <;> (try split at h) <;> cases h
  exact .number _ _

/-- A logarithm to the base zero becomes a number. -/
theorem logBaseZero_rewrites : IsRewriting (logBaseZero (α := α)) := by
  intro t r h
  unfold logBaseZero at h
  split at h <;> (try split at h) <;> (try split at h) <;> cases h
  · exact .number _ _
  · exact .number _ _

/-- A logarithm to the base one becomes a number. -/
theorem logBaseOne_rewrites : IsRewriting (logBaseOne (α := α)) := by
  intro t r h
  unfold logBaseOne at h
  split at h <;> (try split at h) <;> cases h
  exact .number _ _

/-- The logarithm of the base becomes a number. -/
theorem logSelf_rewrites : IsRewriting (logSelf (α := α)) := by
  intro t r h
  unfold logSelf at h
  split at h <;> (try split at h) <;> cases h
  exact (Rewrites.number _ _).negateIf _

/-- A logarithm of a power becomes a product with its exponent. -/
theorem logPowerArgument_rewrites : IsRewriting (logPowerArgument (α := α)) := by
  intro t r h
  unfold logPowerArgument at h
  split at h <;> cases h
  exact (Rewrites.factor _ _ _ _).negateIf _

/-- A logarithm to a power becomes a quotient by its exponent. -/
theorem logPowerBase_rewrites : IsRewriting (logPowerBase (α := α)) := by
  intro t r h
  unfold logPowerBase at h
  split at h <;> cases h
  exact (Rewrites.divisor _ _ _ _).negateIf _

/-- The rules for logarithms leave a number, a product or a quotient. -/
theorem log_rewrites : IsRewriting (log (α := α)) :=
  isRewriting_firstOf (by
    simp only [List.forall_mem_cons]
    exact ⟨logNegative_rewrites, logBaseZero_rewrites, logBaseOne_rewrites, logSelf_rewrites,
      logPowerArgument_rewrites, logPowerBase_rewrites, nofun⟩)

/-- A root becomes a power with the inverse of its degree. -/
theorem rootAsPower_rewrites : IsRewriting (rootAsPower (α := α)) := by
  intro t r h
  unfold rootAsPower at h
  split at h <;> cases h
  exact (Rewrites.power _ _ _).negateIf _

/-- Every rule makes of a node what a rule can make of it. -/
theorem all_rewrites : IsRewriting (all (α := α)) :=
  isRewriting_firstOf (by
    simp only [List.forall_mem_cons]
    exact ⟨add_rewrites, multiply_rewrites, divide_rewrites, power_rewrites, log_rewrites,
      rootAsPower_rewrites, nofun⟩)

end Rule

end Univariate
