import Univariate.Proofs.Idempotence
import Univariate.Proofs.RoundTrip

/-!
# Trees that read back as themselves

The text of a tree is read as that very tree, with the same operations, flags and magnitudes, unless
reading groups it otherwise. That happens in two ways only: a right operand that stands without
brackets behind an operator of its own precedence is grouped to the left, and the minus of the left
factor of a product goes to the product. Where a tree does neither, the grammar derives the tree
itself from its text, by induction on the tree: alone, on the left of an operator, and on its right.
-/

namespace Univariate

variable {α : Type}

namespace Expr

/-- No part of the tree is grouped otherwise when its text is read. The right operand of a sum or
product is no unsigned operator of the same precedence, and the left operand of a product or
quotient has no sign. -/
def KeepsGrouping : Expr α → Prop
  | .var _ | .num _ _ => True
  | .unary _ _ a => a.KeepsGrouping
  | .binary _ op l r =>
    (op.regroupsRight = true → ∀ o a b, r = .binary false o a b → o.isOperator = true →
      o.precedence ≠ op.precedence) ∧
    (op.precedence = .product → l.isNegative = false) ∧
    l.KeepsGrouping ∧ r.KeepsGrouping

/-- The texts of the numbers in a tree are read back as those numbers. -/
def HasReadableNumbers [HasNumerals α] : Expr α → Prop
  | .var _ => True
  | .num _ magnitude => ∃ n, numeralOf? (cleaned (numberText magnitude)) = some n ∧
      HasNumerals.ofNumeral n = magnitude
  | .unary _ _ a => a.HasReadableNumbers
  | .binary _ _ l r => l.HasReadableNumbers ∧ r.HasReadableNumbers

/-- A right operand that keeps its grouping does not bind like the operator before it. -/
theorem outer_ne_of_keepsGrouping {op : BinaryOp} (hop : op.isOperator = true) {r : Expr α}
    (h : ∀ o a b, r = .binary false o a b → o.isOperator = true → o.precedence ≠ op.precedence) :
    r.outer ≠ op.precedence := by
  have hfunction : Precedence.function ≠ op.precedence := fun heq =>
    precedence_ne_function hop heq.symm
  cases r with
  | binary negative o a b =>
    cases negative with
    | true => exact hfunction
    | false =>
      cases ho : o.isOperator with
      | true => exact h o a b rfl ho
      | false =>
        rw [outer, precedence_eq_function ho]
        exact hfunction
  | _ => exact hfunction

end Expr

variable [Scalar α] [HasNumerals α]

/-- The tightest texts belong to the right operands of every precedence. -/
theorem Derives.signed_of_function {letter : Char} {w : List Char} {t : Expr α}
    (h : Derives letter (.chain .function) w t) (p : Precedence) :
    Derives letter (.signed p) w t := by
  have hpower : Derives letter (.chain .power) w t := .tighter (.inr rfl) h
  cases p with
  | sum => exact .unsigned (.tighter (.inl rfl) hpower)
  | product => exact .unsigned hpower
  | power => exact .unsigned h
  | function => exact .unsigned h

/-- The text of a tree is derived as that tree in every position in which it keeps its grouping. -/
structure ReadsAsItself (v : Letter) (t : Expr α) : Prop where
  alone : Derives v.char.toLower (.chain .sum) (readText v t) t
  product : t.isNegative = false → t.outer ≠ .sum →
    Derives v.char.toLower (.chain .product) (readText v t) t
  power : t.isNegative = false → t.outer.level ≤ 1 →
    Derives v.char.toLower (.chain .power) (readText v t) t
  right : ∀ {op : BinaryOp}, op.isOperator = true →
    (op.regroupsRight = true → t.outer ≠ op.precedence) →
    Derives v.char.toLower (.signed op.precedence)
      (Expr.bracketedIf (Expr.needsBrackets op t true) (readText v t)) t

namespace ReadsAsItself

variable {v : Letter} {t u l r : Expr α} {op : BinaryOp}

/-- A tree whose text, after its minus, is a single operand is derived in every position. -/
theorem of_signedText {w : List Char} {negative : Bool} (ht : t = u.withNegative negative)
    (hu : u.isNegative = false) (houter : t.outer = .function)
    (htext : readText v t = Expr.signedText negative false w)
    (hw : Derives v.char.toLower (.chain .function) w u) : ReadsAsItself v t := by
  have hself : u.withNegative false = u := by rw [← hu, Expr.withNegative_isNegative]
  have hsigned (p : Precedence) : Derives v.char.toLower (.signed p) (readText v t) t := by
    rw [htext, ht]
    cases negative with
    | false =>
      rw [hself]
      exact hw.signed_of_function p
    | true =>
      have hneg : -u = u.withNegative true := by rw [Expr.neg_def, hu, Bool.not_false]
      rw [← hneg]
      exact .minus (hw.signed_of_function p)
  have hpower (hnegative : t.isNegative = false) :
      Derives v.char.toLower (.chain .power) (readText v t) t := by
    rw [ht, Expr.isNegative_withNegative] at hnegative
    subst hnegative
    rw [htext, ht, hself]
    exact .tighter (.inr rfl) hw
  refine ⟨.operand (hsigned .sum), fun hnegative _ => .tighter (.inl rfl) (hpower hnegative),
    fun hnegative _ => hpower hnegative, fun hop _ => ?_⟩
  rw [needsBrackets_of_outer hop houter]
  exact hsigned _

/-- The left operand of an operator is derived as itself, in brackets or without. -/
theorem left (hop : op.isOperator = true) (hl : ReadsAsItself v l)
    (hsign : op.precedence = .product → l.isNegative = false) :
    Derives v.char.toLower (.chain op.precedence)
      (Expr.bracketedIf (Expr.needsBrackets op l false) (readText v l)) l := by
  cases hneeded : Expr.needsBrackets op l false with
  | true =>
    have hbrackets : Derives v.char.toLower (.chain .power) ('(' :: readText v l ++ [')']) l :=
      .tighter (.inr rfl) (.brackets hl.alone)
    cases hprecedence : op.precedence with
    | sum => exact hbrackets.sum_of_chain
    | product => exact .tighter (.inl rfl) hbrackets
    | power => exact hbrackets
    | function => exact absurd hprecedence (precedence_ne_function hop)
  | false =>
    rw [needsBrackets_left, Bool.or_eq_false_iff] at hneeded
    obtain ⟨hbase, hlooser⟩ := hneeded
    have hlevel := Nat.not_lt.mp (of_decide_eq_false hlooser)
    cases hprecedence : op.precedence with
    | sum => exact hl.alone
    | product =>
      refine hl.product (hsign hprecedence) fun houter => ?_
      rw [houter, hprecedence] at hlevel
      exact absurd hlevel (by decide)
    | power =>
      have hpower : op = .power := by
        cases op with
        | power => rfl
        | _ => cases hprecedence
      rw [hprecedence] at hlevel
      exact hl.power (by simpa [hpower] using hbase) hlevel
    | function => exact absurd hprecedence (precedence_ne_function hop)

/-- An operator is derived from the texts of its operands. -/
theorem operation (hop : op.isOperator = true) (hl : ReadsAsItself v l) (hr : ReadsAsItself v r)
    (hsign : op.precedence = .product → l.isNegative = false)
    (hright : op.regroupsRight = true → r.outer ≠ op.precedence)
    (hfolded : Expr.apply2 op l r = .binary false op l r) :
    Derives v.char.toLower (.chain op.precedence) (readText v (.binary false op l r))
      (.binary false op l r) := by
  have hoperation := Derives.operation hop rfl (hl.left hop hsign) (hr.right hop hright)
  rw [hfolded] at hoperation
  rw [readText_operator v false hop]
  exact hoperation

/-- An operator is derived in every position, if it is derived from the texts of its operands. On
the right of another operator it stands in brackets or binds tighter. -/
theorem of_operator (hop : op.isOperator = true)
    (h : Derives v.char.toLower (.chain op.precedence) (readText v (.binary false op l r))
      (.binary false op l r)) : ReadsAsItself v (.binary false op l r) := by
  have hpower (hp : op.precedence = .power) : Derives v.char.toLower (.chain .power)
      (readText v (.binary false op l r)) (.binary false op l r) := hp ▸ h
  have hproduct (hp : op.precedence ≠ .sum) : Derives v.char.toLower (.chain .product)
      (readText v (.binary false op l r)) (.binary false op l r) := by
    cases hprecedence : op.precedence with
    | sum => exact absurd hprecedence hp
    | product => exact hprecedence ▸ h
    | power => exact .tighter (.inl rfl) (hpower hprecedence)
    | function => exact absurd hprecedence (precedence_ne_function hop)
  refine ⟨h.sum_of_chain, fun _ houter => hproduct houter, fun _ hlevel =>
    hpower (eq_power_of_level_le_one (precedence_ne_function hop) hlevel), ?_⟩
  intro o ho hgrouping
  cases hneeded : Expr.needsBrackets o (.binary false op l r) true with
  | true => exact (Derives.brackets h.sum_of_chain).signed_of_function _
  | false =>
    rw [needsBrackets_right ho, Expr.outer, Bool.or_eq_false_iff] at hneeded
    obtain ⟨hlooser, hsame⟩ := hneeded
    have hlevel := Nat.not_lt.mp (of_decide_eq_false hlooser)
    have hne : op.precedence ≠ o.precedence := fun heq => by
      have hregroups : o.regroupsRight = true := by simpa [heq] using hsame
      exact hgrouping hregroups heq
    have hlt : op.precedence.level < o.precedence.level :=
      Nat.lt_of_le_of_ne hlevel fun heq => hne (eq_of_level_eq heq)
    obtain ⟨hparent, hchild⟩ | ⟨hparent, hchild⟩ :=
      tighter_of_level_lt (precedence_ne_function hop) hlt
    · rw [hparent]
      exact .unsigned (hproduct hchild)
    · rw [hparent]
      exact .unsigned (hpower hchild)

end ReadsAsItself

variable [LawfulScalar α] [LawfulSign α]

/-- A tree that keeps its grouping is derived from its text. -/
theorem readsAsItself (v : Letter) {t : Expr α} (hmagnitudes : t.HasMagnitudes)
    (hfolded : t.HasFoldedOperands) (hgrouping : t.KeepsGrouping)
    (hnumbers : t.HasReadableNumbers) : ReadsAsItself v t := by
  induction t with
  | var negative =>
    exact .of_signedText (u := .var false) rfl rfl rfl (readText_var v negative) (.literal .var)
  | num negative magnitude =>
    obtain ⟨n, hn, hread⟩ := hnumbers
    obtain ⟨a, rfl⟩ := hmagnitudes
    have hleaf : Expr.ofNumber (HasNumerals.ofNumeral n) =
        (.num false (Scalar.abs a) : Expr α) := by
      rw [hread, Expr.ofNumber, Scalar.abs_abs, LawfulScalar.abs_not_negative]
    have hliteral : Literal v.char.toLower (cleaned (numberText (Scalar.abs a)))
        (Expr.ofNumber (HasNumerals.ofNumeral (α := α) n)) := .of_numeralOf? hn
    rw [hleaf] at hliteral
    exact .of_signedText rfl rfl rfl (readText_num v negative _) (.literal hliteral)
  | unary negative op a ih =>
    exact .of_signedText (u := .apply1 op a) rfl rfl rfl (readText_unary v negative op a)
      (.call1 op (ih hmagnitudes hfolded hgrouping hnumbers).alone)
  | binary negative op l r ihl ihr =>
    obtain ⟨hlfolded, hrfolded, hl, hr⟩ := hfolded
    obtain ⟨hregroups, hsign, hlgrouping, hrgrouping⟩ := hgrouping
    have hleft := ihl hmagnitudes.1 hl hlgrouping hnumbers.1
    have hright := ihr hmagnitudes.2 hr hrgrouping hnumbers.2
    have hnode : Expr.apply2 op l r = .binary false op l r := by
      rw [Expr.apply2, hlfolded, hrfolded]
    cases hop : op.isOperator with
    | true =>
      have hplain : ReadsAsItself v (.binary false op l r) :=
        .of_operator hop (hleft.operation hop hright hsign
          (fun h => Expr.outer_ne_of_keepsGrouping hop (hregroups h)) hnode)
      cases negative with
      | false => exact hplain
      | true =>
        have htext : readText v (.binary true op l r) = Expr.signedText true false
            ('(' :: readText v (.binary false op l r) ++ [')']) := by
          rw [readText_operator v true hop, readText_operator v false hop]
          rfl
        exact .of_signedText (u := .binary false op l r) rfl rfl rfl htext (.brackets hplain.alone)
    | false =>
      have houter := outer_of_not_isOperator hop negative l r
      have hcall := Derives.call2 hop hleft.alone hright.alone
      rw [hnode] at hcall
      exact .of_signedText (u := .binary false op l r) rfl rfl houter
        (readText_function v negative hop l r) hcall

/-- The text of a tree that keeps its grouping is parsed as the tree itself. -/
theorem parse_render_eq (v : Letter) (t : Expr α) (hmagnitudes : t.HasMagnitudes)
    (hfolded : t.HasFoldedOperands) (hgrouping : t.KeepsGrouping)
    (hnumbers : t.HasReadableNumbers) : parse v.char (t.render v.char) = .ok t :=
  parse_of_derives v (readsAsItself v hmagnitudes hfolded hgrouping hnumbers).alone

/-- The text `-(-(x * -2.5) - ((-x)^-inf - -log(-NaN; 0 / x)))` has signs in all positions. -/
theorem parse_render_eq_signs :
    let x : Expr Float := .var false
    let t : Expr Float := .binary true .subtraction
      (.binary true .multiplication x (.num true 2.5))
      (.binary false .subtraction (.binary false .power (.var true) (.num true (1 / 0)))
        (.binary true .logarithm (.num true (0 / 0)) (.binary false .division (.num false 0) x)))
    t.HasMagnitudes ∧ t.HasFoldedOperands ∧ t.KeepsGrouping ∧ t.HasReadableNumbers ∧
      parse 'x' (t.render 'x') = .ok t := by
  intro x t
  have hmagnitudes : t.HasMagnitudes := ⟨⟨trivial, 2.5, rfl⟩, ⟨trivial, 1 / 0, rfl⟩,
    ⟨0 / 0, rfl⟩, ⟨0, rfl⟩, trivial⟩
  have hfolded : t.HasFoldedOperands := ⟨rfl, rfl, ⟨rfl, rfl, trivial, trivial⟩, rfl, rfl,
    ⟨rfl, rfl, trivial, trivial⟩, rfl, rfl, trivial, rfl, rfl, trivial, trivial⟩
  have hgrouping : t.KeepsGrouping := by
    simp [t, x, Expr.KeepsGrouping, Expr.isNegative, BinaryOp.regroupsRight,
      BinaryOp.precedence]
  have hnumbers : t.HasReadableNumbers := by
    refine ⟨⟨trivial, _, rfl, ?_⟩, ⟨trivial, _, rfl, ?_⟩, ⟨_, rfl, ?_⟩, ⟨_, rfl, ?_⟩, trivial⟩
    all_goals decide +kernel
  exact ⟨hmagnitudes, hfolded, hgrouping, hnumbers,
    parse_render_eq ⟨'x', isLetter_of_isAlpha rfl⟩ t hmagnitudes hfolded hgrouping hnumbers⟩

end Univariate
