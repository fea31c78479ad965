import Univariate.Simplify.Rule

/-!
# The weight of a tree

Simplification goes on with the trees that its rules build, and those can be larger than the trees
they replace. It ends because every rule lowers the weight defined here. A root weighs more than the
power and the quotient that it becomes, a power more than the product or quotient that it becomes
inside a logarithm, and the operands of a quotient weigh more if they carry signs, so that hoisting
a sign lowers the weight too.
-/

namespace Univariate

namespace Expr

variable {α : Type} [Scalar α]

/-- Two for a numeric leaf whose magnitude is below zero, so that its sign can reappear when the
leaf is folded. -/
def hiddenSign : Expr α → Nat
  | .num _ magnitude => 2 * (Scalar.isNegative magnitude).toNat
  | _ => 0

/-- The weight that a tree adds to a quotient because of its sign. -/
def signWeight (t : Expr α) : Nat := t.isNegative.toNat + t.hiddenSign

/-- The quantity that every rule lowers. -/
def weight : Expr α → Nat
  | .var _ => 1
  | .num _ _ => 1
  | .unary _ _ operand => operand.weight + 2
  | .binary _ .division left right =>
    left.weight + left.signWeight + (right.weight + right.signWeight) + 2
  | .binary _ .power left right => left.weight + right.weight + 5
  | .binary _ .root left right => left.weight + right.weight + 11
  | .binary _ _ left right => left.weight + right.weight + 2

/-- A tree is no heavier than another, on its own and as an operand of a quotient. -/
structure NoHeavier (s t : Expr α) : Prop where
  weight_le : s.weight ≤ t.weight
  signed_le : s.weight + s.signWeight ≤ t.weight + t.signWeight

/-- A tree is lighter than another, and no heavier as an operand of a quotient. -/
structure Lighter (s t : Expr α) : Prop where
  weight_lt : s.weight < t.weight
  signed_le : s.weight + s.signWeight ≤ t.weight + t.signWeight

/-- A tree is no heavier than itself. -/
theorem NoHeavier.refl (t : Expr α) : NoHeavier t t := ⟨Nat.le_refl _, Nat.le_refl _⟩

/-- Being no heavier is transitive. -/
theorem NoHeavier.trans {s t u : Expr α} (hst : NoHeavier s t) (htu : NoHeavier t u) :
    NoHeavier s u :=
  ⟨Nat.le_trans hst.weight_le htu.weight_le, Nat.le_trans hst.signed_le htu.signed_le⟩

/-- A lighter tree is no heavier. -/
theorem Lighter.noHeavier {s t : Expr α} (h : Lighter s t) : NoHeavier s t :=
  ⟨Nat.le_of_lt h.weight_lt, h.signed_le⟩

/-- A tree that is lighter than one that is no heavier than a third is lighter than the third. -/
theorem Lighter.trans_noHeavier {s t u : Expr α} (hst : Lighter s t) (htu : NoHeavier t u) :
    Lighter s u :=
  ⟨Nat.lt_of_lt_of_le hst.weight_lt htu.weight_le, Nat.le_trans hst.signed_le htu.signed_le⟩

/-- A flag counts at most one. -/
theorem toNat_le_one (b : Bool) : b.toNat ≤ 1 := by
  cases b <;> decide

/-- A hidden sign counts at most two. -/
theorem hiddenSign_le (t : Expr α) : t.hiddenSign ≤ 2 := by
  cases t with
  | num negative magnitude =>
    have := toNat_le_one (Scalar.isNegative magnitude)
    simp only [hiddenSign]
    omega
  | _ => simp [hiddenSign]

/-- The sign of a tree adds at most three to the weight of a quotient. -/
theorem signWeight_le (t : Expr α) : t.signWeight ≤ 3 := by
  have := toNat_le_one t.isNegative
  have := hiddenSign_le t
  unfold signWeight
  omega

/-- Every tree has some weight. -/
theorem weight_pos (t : Expr α) : 0 < t.weight := by
  cases t with
  | binary negative op left right => cases op <;> simp only [weight] <;> omega
  | _ => simp [weight]

/-- A node that is no leaf is heavy enough to pay for the sign of a leaf in its place. -/
theorem three_le_weight {t : Expr α} (h : t.isLeaf = false) : 3 ≤ t.weight := by
  cases t with
  | var | num => simp [isLeaf] at h
  | unary negative op operand =>
    have := weight_pos operand
    simp only [weight]
    omega
  | binary negative op left right =>
    have := weight_pos left
    cases op <;> simp only [weight] <;> omega

/-- The flag of the root does not count in the weight of a tree. -/
@[simp] theorem weight_withNegative (negative : Bool) (t : Expr α) :
    (t.withNegative negative).weight = t.weight := by
  cases t with
  | binary m op left right => cases op <;> rfl
  | _ => rfl

/-- The flag of the root does not count as a hidden sign. -/
@[simp] theorem hiddenSign_withNegative (negative : Bool) (t : Expr α) :
    (t.withNegative negative).hiddenSign = t.hiddenSign := by
  cases t <;> rfl

/-- With a new flag, the sign of a tree weighs that flag and the hidden sign. -/
theorem signWeight_withNegative (negative : Bool) (t : Expr α) :
    (t.withNegative negative).signWeight = negative.toNat + t.hiddenSign := by
  simp [signWeight]

/-- A negated tree weighs as much as the tree. -/
@[simp] theorem weight_neg (t : Expr α) : (-t).weight = t.weight := weight_withNegative _ t

/-- A tree weighs as much with its sign changed or kept. -/
@[simp] theorem weight_negateIf (negate : Bool) (t : Expr α) :
    (t.negateIf negate).weight = t.weight := by
  simp [negateIf_eq]

/-- Changing the sign of a tree keeps its hidden sign. -/
@[simp] theorem hiddenSign_negateIf (negate : Bool) (t : Expr α) :
    (t.negateIf negate).hiddenSign = t.hiddenSign := by
  simp [negateIf_eq]

/-- A number has weight one. -/
@[simp] theorem weight_ofNumber (a : α) : (ofNumber a).weight = 1 := rfl

/-- An operation weighs at least two more than its operands together. -/
theorem weight_binary_ge (negative : Bool) (op : BinaryOp) (l r : Expr α) :
    l.weight + r.weight + 2 ≤ (Expr.binary negative op l r).weight := by
  cases op <;> simp only [weight] <;> omega

/-- An operand, with either sign, is lighter than the node. -/
theorem lighter_of_left {s l r : Expr α} {negative : Bool} {op : BinaryOp}
    (hweight : s.weight = l.weight) : Lighter s (.binary negative op l r) := by
  have hbinary := weight_binary_ge negative op l r
  have hpos := weight_pos r
  have hsign := signWeight_le s
  exact ⟨by omega, by omega⟩

/-- An operand, with either sign, is lighter than the node. -/
theorem lighter_of_right {s l r : Expr α} {negative : Bool} {op : BinaryOp}
    (hweight : s.weight = r.weight) : Lighter s (.binary negative op l r) := by
  have hbinary := weight_binary_ge negative op l r
  have hpos := weight_pos l
  have hsign := signWeight_le s
  exact ⟨by omega, by omega⟩

/-- A leaf is lighter than a node. -/
theorem lighter_of_leaf {s l r : Expr α} {negative : Bool} {op : BinaryOp}
    (hweight : s.weight = 1) : Lighter s (.binary negative op l r) := by
  have hbinary := weight_binary_ge negative op l r
  have hleft := weight_pos l
  have hright := weight_pos r
  have hsign := signWeight_le s
  exact ⟨by omega, by omega⟩

section Lawful

variable [LawfulScalar α]

/-- A leaf that is built from a number hides no sign. -/
@[simp] theorem hiddenSign_ofNumber (a : α) : (ofNumber a).hiddenSign = 0 := by
  simp [ofNumber, hiddenSign, LawfulScalar.abs_not_negative]

/-- Folding makes no tree heavier. -/
theorem folded_noHeavier (t : Expr α) : NoHeavier t.folded t := by
  unfold folded
  cases hleaf : t.isLeaf with
  | true => exact .refl t
  | false =>
    cases t.constant? with
    | none => exact .refl t
    | some a =>
      have hweight := three_le_weight hleaf
      have hflag := toNat_le_one (ofNumber a).isNegative
      refine ⟨?_, ?_⟩ <;> simp [signWeight] <;> omega

/-- An operation on operands that are no heavier than others is no heavier than the operation on
those. -/
theorem apply2_noHeavier {s s' t t' : Expr α} (op : BinaryOp) (hs : NoHeavier s' s)
    (ht : NoHeavier t' t) : (apply2 op s' t').weight ≤ (Expr.binary false op s t).weight := by
  obtain ⟨hs1, hs2⟩ := (folded_noHeavier s').trans hs
  obtain ⟨ht1, ht2⟩ := (folded_noHeavier t').trans ht
  cases op <;> simp only [apply2, weight] <;> omega

omit [LawfulScalar α] in
/-- Simplifying the operand of a node makes the node no heavier. -/
theorem apply1_withNegative_noHeavier (negative : Bool) (op : UnaryOp) {s t : Expr α}
    (h : NoHeavier s t) :
    NoHeavier ((apply1 op s).withNegative negative) (.unary negative op t) := by
  obtain ⟨hweight, -⟩ := h
  refine ⟨?_, ?_⟩ <;> simp [apply1, withNegative, weight, signWeight, hiddenSign, isNegative] <;>
    omega

/-- Simplifying the operands of a node makes the node no heavier. -/
theorem apply2_withNegative_noHeavier (negative : Bool) (op : BinaryOp) {s s' t t' : Expr α}
    (hs : NoHeavier s' s) (ht : NoHeavier t' t) :
    NoHeavier ((apply2 op s' t').withNegative negative) (.binary negative op s t) := by
  have hweight : (apply2 op s' t').weight ≤ (Expr.binary negative op s t).weight := by
    have h := apply2_noHeavier op hs ht
    have hflag := weight_withNegative negative (Expr.binary false op s t)
    simp only [withNegative] at hflag
    omega
  have hsign : ((apply2 op s' t').withNegative negative).signWeight =
      (Expr.binary negative op s t).signWeight := rfl
  refine ⟨?_, ?_⟩ <;> simp only [weight_withNegative, hsign] <;> omega

/-- A quotient weighs at most two more than its operands with their hidden signs. -/
theorem weight_div_le (s t : Expr α) :
    (s / t).weight ≤ s.weight + s.hiddenSign + (t.weight + t.hiddenSign) + 2 := by
  have h := apply2_noHeavier .division (.refl s.unsigned) (.refl t.unsigned)
  simpa [weight, unsigned, signWeight_withNegative, div_def, hoistSigns] using h

/-- A product weighs at most two more than its operands. -/
theorem weight_mul_le (s t : Expr α) : (s * t).weight ≤ s.weight + t.weight + 2 := by
  have h := apply2_noHeavier .multiplication (.refl s.unsigned) (.refl t.unsigned)
  simpa [weight, unsigned, mul_def, hoistSigns] using h

/-- A power weighs at most five more than its operands. -/
theorem weight_pow_le (s t : Expr α) : (s.pow t).weight ≤ s.weight + t.weight + 5 :=
  apply2_noHeavier .power (.refl s) (.refl t)

/-- A logarithm weighs at most two more than its operands. -/
theorem weight_log_le (s t : Expr α) : (s.log t).weight ≤ s.weight + t.weight + 2 :=
  apply2_noHeavier .logarithm (.refl s) (.refl t)

end Lawful

/-- A node that is no leaf is lighter than another as soon as its weight is less. -/
theorem lighter_of_weight_lt {s t : Expr α} (hhidden : s.hiddenSign = 0)
    (hweight : s.weight < t.weight) : Lighter s t := by
  have hflag := toNat_le_one s.isNegative
  have hsign : s.signWeight = s.isNegative.toNat + s.hiddenSign := rfl
  exact ⟨hweight, by omega⟩

end Expr

namespace Rule

variable {α : Type} [Scalar α]

/-- Every tree that the rule builds is lighter than the one that it replaces. -/
def Lightens (rule : Rule α) : Prop := ∀ t r, rule t = some r → Expr.Lighter r.tree t

/-- Rules that are tried in turn lower the weight if each of them does. -/
theorem lightens_firstOf {rules : List (Rule α)} (h : ∀ rule ∈ rules, Lightens rule) :
    Lightens (firstOf rules) := by
  intro t r hr
  obtain ⟨rule, hmem, hrule⟩ := List.exists_of_findSome?_eq_some hr
  exact h rule hmem t r hrule

/-- Leaving out a zero operand of a sum or a difference makes it lighter. -/
theorem addZero_lightens : Lightens (addZero (α := α)) := by
  intro t r h
  unfold addZero at h
  split at h <;> (try split at h) <;> (try split at h) <;> cases h
  · exact Expr.lighter_of_right (by simp)
  · exact Expr.lighter_of_left (by simp)
  · exact Expr.lighter_of_left (by simp)

/-- A negated subtrahend is lighter than its difference from zero. -/
theorem subtractFromZero_lightens : Lightens (subtractFromZero (α := α)) := by
  intro t r h
  unfold subtractFromZero at h
  split at h <;> (try split at h) <;> cases h
  exact Expr.lighter_of_right (by simp)

/-- Zero is lighter than a product with a zero operand. -/
theorem multiplyZero_lightens : Lightens (multiplyZero (α := α)) := by
  intro t r h
  unfold multiplyZero at h
  split at h <;> (try split at h) <;> cases h
  exact Expr.lighter_of_leaf rfl

/-- Leaving out an operand one makes a product lighter. -/
theorem multiplyOne_lightens : Lightens (multiplyOne (α := α)) := by
  intro t r h
  unfold multiplyOne at h
  split at h <;> (try split at h) <;> (try split at h) <;> cases h
  · exact Expr.lighter_of_right (by simp)
  · exact Expr.lighter_of_left (by simp)

/-- A negated operand is lighter than its product with minus one. -/
theorem multiplyMinusOne_lightens : Lightens (multiplyMinusOne (α := α)) := by
  intro t r h
  unfold multiplyMinusOne at h
  split at h <;> (try split at h) <;> (try split at h) <;> cases h
  · exact Expr.lighter_of_right (by simp)
  · exact Expr.lighter_of_left (by simp)

/-- The undefined number is lighter than a quotient by zero. -/
theorem divideByZero_lightens : Lightens (divideByZero (α := α)) := by
  intro t r h
  unfold divideByZero at h
  split at h <;> (try split at h) <;> cases h
  exact Expr.lighter_of_leaf rfl

/-- Zero is lighter than a quotient of zero. -/
theorem divideZero_lightens : Lightens (divideZero (α := α)) := by
  intro t r h
  unfold divideZero at h
  split at h <;> (try split at h) <;> cases h
  exact Expr.lighter_of_leaf rfl

/-- One is lighter than a quotient of equal trees. -/
theorem divideSelf_lightens : Lightens (divideSelf (α := α)) := by
  intro t r h
  unfold divideSelf at h
  split at h <;> (try split at h) <;> cases h
  exact Expr.lighter_of_leaf (by simp)

/-- Leaving out a divisor one makes a quotient lighter. -/
theorem divideOne_lightens : Lightens (divideOne (α := α)) := by
  intro t r h
  unfold divideOne at h
  split at h <;> (try split at h) <;> cases h
  exact Expr.lighter_of_left (by simp)

/-- A negated dividend is lighter than its quotient by minus one. -/
theorem divideMinusOne_lightens : Lightens (divideMinusOne (α := α)) := by
  intro t r h
  unfold divideMinusOne at h
  split at h <;> (try split at h) <;> cases h
  exact Expr.lighter_of_left (by simp)

/-- The value of a power of zero is lighter than the power. -/
theorem powerZeroLeft_lightens : Lightens (powerZeroLeft (α := α)) := by
  intro t r h
  unfold powerZeroLeft at h
  split at h <;> (try split at h) <;> (try split at h) <;> (try split at h) <;>
    (try split at h) <;> cases h
  · exact Expr.lighter_of_leaf (by simp)
  · exact Expr.lighter_of_leaf rfl
  · exact Expr.lighter_of_leaf rfl

/-- One is lighter than a power of one. -/
theorem powerOneLeft_lightens : Lightens (powerOneLeft (α := α)) := by
  intro t r h
  unfold powerOneLeft at h
  split at h <;> (try split at h) <;> cases h
  exact Expr.lighter_of_leaf (by simp)

/-- Zero is lighter than a power with exponent zero. -/
theorem powerZero_lightens : Lightens (powerZero (α := α)) := by
  intro t r h
  unfold powerZero at h
  split at h <;> (try split at h) <;> cases h
  exact Expr.lighter_of_leaf rfl

/-- Leaving out an exponent one makes a power lighter. -/
theorem powerOne_lightens : Lightens (powerOne (α := α)) := by
  intro t r h
  unfold powerOne at h
  split at h <;> (try split at h) <;> cases h
  exact Expr.lighter_of_left (by simp)

/-- The undefined number is lighter than a logarithm with a negative argument or base. -/
theorem logNegative_lightens : Lightens (logNegative (α := α)) := by
  intro t r h
  unfold logNegative at h
  split at h <;> (try split at h) <;> cases h
  exact Expr.lighter_of_leaf rfl

/-- The value of a logarithm to the base zero is lighter than the logarithm. -/
theorem logBaseZero_lightens : Lightens (logBaseZero (α := α)) := by
  intro t r h
  unfold logBaseZero at h
  split at h <;> (try split at h) <;> (try split at h) <;> cases h
  · exact Expr.lighter_of_leaf rfl
  · exact Expr.lighter_of_leaf rfl

/-- The undefined number is lighter than a logarithm to the base one. -/
theorem logBaseOne_lightens : Lightens (logBaseOne (α := α)) := by
  intro t r h
  unfold logBaseOne at h
  split at h <;> (try split at h) <;> cases h
  exact Expr.lighter_of_leaf rfl

/-- One is lighter than the logarithm of the base. -/
theorem logSelf_lightens : Lightens (logSelf (α := α)) := by
  intro t r h
  unfold logSelf at h
  split at h <;> (try split at h) <;> cases h
  exact Expr.lighter_of_leaf (by simp)

/-- The rules for sums and differences build lighter trees. -/
theorem add_lightens : Lightens (add (α := α)) :=
  lightens_firstOf (by
    simp only [List.forall_mem_cons]
    exact ⟨addZero_lightens, subtractFromZero_lightens, by simp⟩)

/-- The rules for products build lighter trees. -/
theorem multiply_lightens : Lightens (multiply (α := α)) :=
  lightens_firstOf (by
    simp only [List.forall_mem_cons]
    exact ⟨multiplyZero_lightens, multiplyOne_lightens, multiplyMinusOne_lightens, by simp⟩)

section Lawful

variable [LawfulScalar α]

/-- Hoisting pays for the sign of the quotient with those of the operands. -/
theorem divideHoistSign_lightens : Lightens (divideHoistSign (α := α)) := by
  intro t r h
  unfold divideHoistSign at h
  split at h <;> (try split at h) <;> cases h
  next negative l r hsign =>
    refine Expr.lighter_of_weight_lt rfl ?_
    have hbuilt := Expr.apply2_noHeavier .division (.refl l.unsigned) (.refl r.unsigned)
    have hpaid : 1 ≤ l.isNegative.toNat + r.isNegative.toNat := by
      cases hl : l.isNegative <;> cases hr : r.isNegative <;> simp_all
    simp only [Expr.weight, Expr.unsigned, Expr.weight_withNegative,
      Expr.signWeight_withNegative, Bool.toNat_false] at hbuilt
    simp only [Expr.weight_withNegative, Expr.weight, Expr.unsigned, Expr.signWeight]
    omega

/-- An inverse is lighter than a power. -/
theorem powerMinusOne_lightens : Lightens (powerMinusOne (α := α)) := by
  intro t r h
  unfold powerMinusOne at h
  split at h <;> (try split at h) <;> cases h
  next negative l r hone =>
    refine Expr.lighter_of_weight_lt ((Expr.hiddenSign_negateIf _ _).trans rfl) ?_
    have hbuilt := Expr.weight_div_le (.ofNumber 1) l
    have hhidden := Expr.hiddenSign_le l
    have hright := Expr.weight_pos r
    simp only [Expr.weight_ofNumber, Expr.hiddenSign_ofNumber] at hbuilt
    simp only [Expr.weight_negateIf, Expr.weight]
    omega

/-- A factor outside a logarithm is lighter than an exponent inside. -/
theorem logPowerArgument_lightens : Lightens (logPowerArgument (α := α)) := by
  intro t r h
  unfold logPowerArgument at h
  split at h <;> cases h
  next negative a b r =>
    refine Expr.lighter_of_weight_lt ((Expr.hiddenSign_negateIf _ _).trans rfl) ?_
    have hbuilt := Expr.weight_mul_le b (a.log r)
    have hlog := Expr.weight_log_le a r
    simp only [Expr.weight_negateIf, Expr.weight]
    omega

/-- A divisor outside a logarithm is lighter than an exponent of the base. -/
theorem logPowerBase_lightens : Lightens (logPowerBase (α := α)) := by
  intro t r h
  unfold logPowerBase at h
  split at h <;> cases h
  next negative l a b =>
    refine Expr.lighter_of_weight_lt ((Expr.hiddenSign_negateIf _ _).trans rfl) ?_
    have hbuilt := Expr.weight_div_le (l.log a) b
    have hlog := Expr.weight_log_le l a
    have hhidden := Expr.hiddenSign_le b
    have hnone : (l.log a).hiddenSign = 0 := rfl
    simp only [Expr.weight_negateIf, Expr.weight]
    omega

/-- A power with an inverse as its exponent is lighter than a root. -/
theorem rootAsPower_lightens : Lightens (rootAsPower (α := α)) := by
  intro t r h
  unfold rootAsPower at h
  split at h <;> cases h
  next negative l r =>
    refine Expr.lighter_of_weight_lt ((Expr.hiddenSign_negateIf _ _).trans rfl) ?_
    have hbuilt := Expr.weight_pow_le l (.ofNumber 1 / r)
    have hdiv := Expr.weight_div_le (.ofNumber 1) r
    have hhidden := Expr.hiddenSign_le r
    simp only [Expr.weight_ofNumber, Expr.hiddenSign_ofNumber] at hdiv
    simp only [Expr.weight_negateIf, Expr.weight]
    omega

/-- The rules for powers of anything but zero build lighter trees. -/
theorem powerOfNonzero_lightens : Lightens (powerOfNonzero (α := α)) :=
  lightens_firstOf (by
    simp only [List.forall_mem_cons]
    exact ⟨powerOneLeft_lightens, powerZero_lightens, powerOne_lightens, powerMinusOne_lightens,
      by simp⟩)

/-- The rules for powers build lighter trees. -/
theorem power_lightens : Lightens (power (α := α)) := by
  intro t r h
  unfold power at h
  split at h
  · exact powerZeroLeft_lightens t r h
  · exact powerOfNonzero_lightens t r h

/-- The rules for quotients build lighter trees. -/
theorem divide_lightens : Lightens (divide (α := α)) :=
  lightens_firstOf (by
    simp only [List.forall_mem_cons]
    exact ⟨divideByZero_lightens, divideZero_lightens, divideSelf_lightens, divideOne_lightens,
      divideMinusOne_lightens, divideHoistSign_lightens, by simp⟩)

/-- The rules for logarithms build lighter trees. -/
theorem log_lightens : Lightens (log (α := α)) :=
  lightens_firstOf (by
    simp only [List.forall_mem_cons]
    exact ⟨logNegative_lightens, logBaseZero_lightens, logBaseOne_lightens, logSelf_lightens,
      logPowerArgument_lightens, logPowerBase_lightens, by simp⟩)

/-- Every tree that a rule builds is lighter than the one that it replaces, so that simplification
comes to an end. -/
theorem all_lightens : Lightens (all (α := α)) :=
  lightens_firstOf (by
    simp only [List.forall_mem_cons]
    exact ⟨add_lightens, multiply_lightens, divide_lightens, power_lightens, log_lightens,
      rootAsPower_lightens, by simp⟩)

end Lawful

end Rule

end Univariate
