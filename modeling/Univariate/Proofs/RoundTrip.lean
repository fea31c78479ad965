import Univariate.Proofs.RenderedText

/-!
# Rendered text reads back

The text of a tree means the function of the tree. By induction on the tree, its text is read in every
position in which the renderer leaves it without brackets: alone, as a left operand, and as a right
operand, where it may be regrouped with what stands on its left.
-/

namespace Univariate

variable {α : Type}

namespace Expr

/-- Every number in a tree is the magnitude of some number. -/
def HasMagnitudes [Scalar α] : Expr α → Prop
  | .var _ => True
  | .num _ magnitude => ∃ a, magnitude = Scalar.abs a
  | .unary _ _ operand => operand.HasMagnitudes
  | .binary _ _ left right => left.HasMagnitudes ∧ right.HasMagnitudes

/-- The trees that the constructors build: the variable, numbers, functions and operations of trees,
and trees with another sign. -/
inductive Built [Scalar α] : Expr α → Prop
  | var : Built (.var false)
  | number (a : α) : Built (.ofNumber a)
  | apply1 (op : UnaryOp) {t : Expr α} (ht : Built t) : Built (.apply1 op t)
  | apply2 (op : BinaryOp) {s t : Expr α} (hs : Built s) (ht : Built t) : Built (.apply2 op s t)
  | withNegative (negative : Bool) {t : Expr α} (ht : Built t) : Built (t.withNegative negative)

/-- Folding a constant tree keeps its numbers magnitudes. -/
theorem HasMagnitudes.folded [Scalar α] {t : Expr α} (h : t.HasMagnitudes) :
    t.folded.HasMagnitudes := by
  unfold Expr.folded
  split
  · exact h
  · split
    · next a _ => exact ⟨a, rfl⟩
    · exact h

/-- The numbers in trees that the constructors build are magnitudes. -/
theorem Built.hasMagnitudes [Scalar α] {t : Expr α} (h : t.Built) : t.HasMagnitudes := by
  induction h with
  | var => trivial
  | number a => exact ⟨a, rfl⟩
  | apply1 op ht ih => exact ih
  | apply2 op hs ht ihs iht => exact ⟨ihs.folded, iht.folded⟩
  | @withNegative negative t ht ih => cases t <;> exact ih

end Expr

/-- The precedence of the operation that is applied last when the text of a tree is read. A minus
and the keyword of a function are followed by brackets or a single operand. -/
def Expr.outer : Expr α → Precedence
  | .binary false op _ _ => op.precedence
  | _ => .function

/-- An operation that is no operator binds like a function. -/
theorem precedence_eq_function {op : BinaryOp} (hop : op.isOperator = false) :
    op.precedence = .function := by
  cases op with
  | logarithm | root => rfl
  | _ => cases hop

/-- The text of an operation that is no operator is that of a function. -/
theorem outer_of_not_isOperator {op : BinaryOp} (hop : op.isOperator = false) (negative : Bool)
    (l r : Expr α) : (Expr.binary negative op l r).outer = .function := by
  cases negative with
  | false => exact precedence_eq_function hop
  | true => rfl

/-- Precedences of the same level are the same. -/
theorem eq_of_level_eq {p q : Precedence} (h : p.level = q.level) : p = q := by
  cases p <;> cases q <;> first | rfl | cases h

/-- Only powers bind as tightly as powers without being functions. -/
theorem eq_power_of_level_le_one {p : Precedence} (hp : p ≠ .function) (h : p.level ≤ 1) :
    p = .power := by
  cases p with
  | power => rfl
  | function => exact absurd rfl hp
  | product | sum => exact absurd h (by decide)

/-- An operator that binds tighter than another one is a power in a product, or no sum in a sum. -/
theorem tighter_of_level_lt {p q : Precedence} (hp : p ≠ .function) (h : p.level < q.level) :
    (q = .sum ∧ p ≠ .sum) ∨ (q = .product ∧ p = .power) := by
  cases q with
  | sum =>
    left
    refine ⟨rfl, ?_⟩
    rintro rfl
    exact absurd h (Nat.lt_irrefl _)
  | product => exact .inr ⟨rfl, eq_power_of_level_le_one hp (Nat.le_of_lt_succ h)⟩
  | power =>
    have hpower := eq_power_of_level_le_one hp (Nat.le_of_lt h)
    rw [hpower] at h
    exact absurd h (Nat.lt_irrefl _)
  | function => exact absurd h (Nat.not_lt_zero _)

/-- A function binds looser than no other operation. -/
theorem function_not_looser (p : Precedence) : Precedence.looserThan .function p = false :=
  decide_eq_false (Nat.not_lt_zero _)

/-- A right operand stands in brackets if it would be grouped otherwise and must not be. -/
theorem needsBrackets_right {op : BinaryOp} (hop : op.isOperator = true) (t : Expr α) :
    Expr.needsBrackets op t true =
      (t.outer.looserThan op.precedence ||
        (t.outer = op.precedence && !op.regroupsRight)) := by
  have hne : ¬Precedence.function = op.precedence := fun h => precedence_ne_function hop h.symm
  have hfunction : (Precedence.looserThan .function op.precedence ||
      (Precedence.function = op.precedence && !op.regroupsRight)) = false := by
    simp [function_not_looser, hne]
  cases t with
  | binary negative o l r =>
    cases negative with
    | true => exact hfunction.symm
    | false =>
      cases ho : o.isOperator with
      | true =>
        simp only [Expr.needsBrackets, Expr.outer, ho, Bool.not_true, Bool.false_and, Bool.true_and,
          Bool.false_eq_true, if_false]
        rfl
      | false =>
        rw [Expr.outer, precedence_eq_function ho, hfunction]
        simp [Expr.needsBrackets, ho]
  | _ => exact hfunction.symm

/-- A function or a single operand needs no brackets on the right of an operator. -/
theorem needsBrackets_of_outer {op : BinaryOp} {t : Expr α} (hop : op.isOperator = true)
    (houter : t.outer = .function) : Expr.needsBrackets op t true = false := by
  have hne : ¬Precedence.function = op.precedence := fun h => precedence_ne_function hop h.symm
  rw [needsBrackets_right hop, houter, function_not_looser]
  simp [hne]

/-- A left operand stands in brackets if it would be grouped otherwise, or if it is the negated base
of a power. -/
theorem needsBrackets_left {op : BinaryOp} (t : Expr α) :
    Expr.needsBrackets op t false =
      ((op = .power && t.isNegative) || t.outer.looserThan op.precedence) := by
  have hfunction := function_not_looser op.precedence
  cases hbase : (decide (op = .power) && t.isNegative) with
  | true => simp [Expr.needsBrackets, hbase]
  | false =>
    cases t with
    | binary negative o l r =>
      cases negative with
      | true => simp [Expr.needsBrackets, Expr.outer, hbase, hfunction]
      | false =>
        cases ho : o.isOperator with
        | true => simp [Expr.needsBrackets, Expr.outer, hbase, ho]
        | false =>
          rw [Expr.outer, precedence_eq_function ho, hfunction]
          simp [Expr.needsBrackets, hbase, ho]
    | _ => simp [Expr.needsBrackets, Expr.outer, hbase, hfunction]

variable [Scalar α] [HasNumerals α]

/-- A text without its leading minus is a product, and the minus negates it. -/
def MeansProduct (letter : Char) (w : List Char) (f : α → α) : Prop :=
  ∃ negative w' g, w = Expr.signedText negative false w' ∧ Means letter (.chain .product) w' g ∧
    ∀ x, f x = negateNumberIf negative (g x)

/-- The text of a tree means the function of the tree in every position in which it stands without
brackets, and on the right of an operator in any case. -/
structure ReadsBack (v : Letter) (t : Expr α) : Prop where
  alone : Means v.char.toLower (.chain .sum) (readText v t) fun x => t.eval x
  product : t.outer ≠ .sum → MeansProduct v.char.toLower (readText v t) fun x => t.eval x
  power : t.isNegative = false → t.outer.level ≤ 1 →
    Means v.char.toLower (.chain .power) (readText v t) fun x => t.eval x
  right : ∀ {op : BinaryOp} {w : List Char} {f : α → α}, op.isOperator = true →
    Means v.char.toLower (.chain op.precedence) w f →
    Means v.char.toLower (.chain op.precedence)
      (w ++ op.symbol ++ Expr.bracketedIf (Expr.needsBrackets op t true) (readText v t))
      fun x => op.apply (f x) (t.eval x)

/-- A product, with a minus or without, means the same as a signed operand of a sum. -/
theorem MeansProduct.signed (laws : RegroupingLaws α) {letter : Char} {w : List Char} {f : α → α}
    (h : MeansProduct letter w f) : Means letter (.signed .sum) w f := by
  obtain ⟨negative, w', g, rfl, hw, hvalue⟩ := h
  have hsigned : Means letter (.signed .sum) w' g := hw.signed
  cases negative with
  | false => exact hsigned.congr fun x => (hvalue x).symm
  | true => exact (hsigned.minus laws).congr fun x => (hvalue x).symm

/-- What means a power means a product. -/
theorem Means.product {letter : Char} {w : List Char} {f : α → α}
    (h : Means letter (.chain .power) w f) : MeansProduct letter w f :=
  ⟨false, w, f, rfl, h.tighter (.inl rfl), fun _ => rfl⟩

section Laws

variable (laws : RegroupingLaws α) {v : Letter} {t l r : Expr α} {w : List Char} {f : α → α}

include laws

/-- A tree whose text, after its minus, is a single operand is read in every position. -/
theorem ReadsBack.of_signedText (houter : t.outer = .function)
    (htext : readText v t = Expr.signedText t.isNegative false w)
    (hw : Means v.char.toLower (.chain .function) w f)
    (hvalue : ∀ x, t.eval x = negateNumberIf t.isNegative (f x)) : ReadsBack v t := by
  have hproduct : MeansProduct v.char.toLower (readText v t) fun x => t.eval x :=
    ⟨t.isNegative, w, f, htext, (hw.tighter (.inr rfl)).tighter (.inl rfl), hvalue⟩
  have hsigned (p : Precedence) :
      Means v.char.toLower (.signed p) (readText v t) fun x => t.eval x := by
    rw [htext]
    cases hnegative : t.isNegative with
    | false =>
      rw [hnegative] at hvalue
      exact (hw.signed_of_function p).congr fun x => (hvalue x).symm
    | true =>
      rw [hnegative] at hvalue
      exact ((hw.signed_of_function p).minus laws).congr fun x => (hvalue x).symm
  refine ⟨(hproduct.signed laws).sum_of_signed, fun _ => hproduct, ?_, ?_⟩
  · intro hnegative _
    rw [hnegative] at htext hvalue
    rw [htext]
    exact (hw.tighter (.inr rfl)).congr fun x => (hvalue x).symm
  · intro op w' g hop hg
    rw [needsBrackets_of_outer hop houter]
    exact hg.operation laws hop (hsigned op.precedence)

/-- Brackets make any text a right operand. -/
theorem Means.right_of_brackets {letter : Char} {op : BinaryOp} {w' : List Char} {g : α → α}
    (hop : op.isOperator = true) (hw : Means letter (.chain op.precedence) w f)
    (hg : Means letter (.chain .sum) w' g) :
    Means letter (.chain op.precedence) (w ++ op.symbol ++ Expr.bracketedIf true w')
      fun x => op.apply (f x) (g x) :=
  hw.operation laws hop (hg.brackets.signed_of_function op.precedence)

omit laws in
/-- The left operand of a sum or difference keeps its sign. -/
theorem ReadsBack.sum_of_operands {op : BinaryOp} (hop : op.isOperator = true)
    (hsum : op.precedence = .sum) (hl : ReadsBack v l) (hr : ReadsBack v r) :
    Means v.char.toLower (.chain .sum) (readText v (.binary false op l r))
      fun x => op.apply (l.eval x) (r.eval x) := by
  have hbare : Expr.needsBrackets op l false = false := by
    rw [needsBrackets_left, hsum]
    cases op with
    | addition | subtraction =>
      exact decide_eq_false (Nat.not_lt.mpr l.outer.level_le_three)
    | _ => cases hsum
  have hleft : Means v.char.toLower (.chain op.precedence) (readText v l) fun x => l.eval x := by
    rw [hsum]
    exact hl.alone
  have hright := hr.right hop hleft
  rw [hsum] at hright
  rw [readText_operator v false hop, hbare]
  exact hright

/-- The minus of the left operand of a product or quotient becomes that of the result. -/
theorem ReadsBack.product_of_operands {op : BinaryOp} (hop : op.isOperator = true)
    (hproduct : op.precedence = .product) (hl : ReadsBack v l) (hr : ReadsBack v r) :
    MeansProduct v.char.toLower (readText v (.binary false op l r))
      fun x => op.apply (l.eval x) (r.eval x) := by
  have hleft : MeansProduct v.char.toLower
      (Expr.bracketedIf (Expr.needsBrackets op l false) (readText v l)) fun x => l.eval x := by
    cases hneeded : Expr.needsBrackets op l false with
    | true => exact (hl.alone.brackets.tighter (p := .power) (.inr rfl)).product
    | false =>
      refine hl.product fun houter => ?_
      rw [needsBrackets_left, houter, hproduct] at hneeded
      cases op with
      | multiplication | division => cases hneeded
      | _ => cases hproduct
  obtain ⟨negative, w, g, htext, hw, hvalue⟩ := hleft
  rw [← hproduct] at hw
  have hright := hr.right hop hw
  rw [hproduct] at hright
  refine ⟨negative, _, _, ?_, hright, fun x => ?_⟩
  · rw [readText_operator v false hop, htext]
    cases negative <;> rfl
  · have hx : l.eval x = negateNumberIf negative (g x) := hvalue x
    show op.apply (l.eval x) (r.eval x) = _
    rw [hx, laws.apply_negateNumberIf hproduct]

omit laws in
/-- The base of a power has no minus of its own. -/
theorem ReadsBack.power_of_operands {op : BinaryOp} (hop : op.isOperator = true)
    (hpower : op.precedence = .power) (hl : ReadsBack v l) (hr : ReadsBack v r) :
    Means v.char.toLower (.chain .power) (readText v (.binary false op l r))
      fun x => op.apply (l.eval x) (r.eval x) := by
  have hleft : Means v.char.toLower (.chain op.precedence)
      (Expr.bracketedIf (Expr.needsBrackets op l false) (readText v l)) fun x => l.eval x := by
    rw [hpower]
    cases hneeded : Expr.needsBrackets op l false with
    | true => exact hl.alone.brackets.tighter (.inr rfl)
    | false =>
      have hop : op = .power := by
        cases op with
        | power => rfl
        | _ => cases hpower
      rw [needsBrackets_left, hpower, hop, Bool.or_eq_false_iff] at hneeded
      obtain ⟨hnegative, hlooser⟩ := hneeded
      exact hl.power hnegative (Nat.not_lt.mp (of_decide_eq_false hlooser))
  have hright := hr.right hop hleft
  rw [hpower] at hright
  rw [readText_operator v false hop]
  exact hright

omit [Scalar α] [HasNumerals α] laws in
/-- The left operand of an operation that is regrouped keeps its brackets. -/
theorem needsBrackets_regrouped {op o : BinaryOp} (ho : o.isOperator = true)
    (hprecedence : op.precedence = o.precedence) (hregroups : o.regroupsRight = true)
    (t : Expr α) : Expr.needsBrackets o t true = Expr.needsBrackets op t false := by
  have hne : op ≠ .power := by
    rintro rfl
    cases o with
    | addition | multiplication => cases hprecedence
    | _ => cases hregroups
  rw [needsBrackets_right ho, needsBrackets_left, hprecedence, hregroups]
  simp [hne]

/-- An operator as the right operand of another one stands in brackets, binds tighter, or is
regrouped. -/
theorem ReadsBack.right_of_operator {op : BinaryOp} (hop : op.isOperator = true)
    (hl : ReadsBack v l) (hr : ReadsBack v r)
    (halone : Means v.char.toLower (.chain .sum) (readText v (.binary false op l r))
      fun x => op.apply (l.eval x) (r.eval x))
    (hproduct : op.precedence ≠ .sum → MeansProduct v.char.toLower
      (readText v (.binary false op l r)) fun x => op.apply (l.eval x) (r.eval x))
    (hpower : op.precedence = .power → Means v.char.toLower (.chain .power)
      (readText v (.binary false op l r)) fun x => op.apply (l.eval x) (r.eval x))
    {o : BinaryOp} (ho : o.isOperator = true)
    (hw : Means v.char.toLower (.chain o.precedence) w f) :
    Means v.char.toLower (.chain o.precedence)
      (w ++ o.symbol ++ Expr.bracketedIf (Expr.needsBrackets o (.binary false op l r) true)
        (readText v (.binary false op l r)))
      fun x => o.apply (f x) (op.apply (l.eval x) (r.eval x)) := by
  cases hneeded : Expr.needsBrackets o (.binary false op l r) true with
  | true => exact hw.right_of_brackets laws ho halone
  | false =>
    rw [needsBrackets_right ho, Expr.outer, Bool.or_eq_false_iff] at hneeded
    obtain ⟨hlooser, hsame⟩ := hneeded
    have hlevel := Nat.not_lt.mp (of_decide_eq_false hlooser)
    by_cases hprecedence : op.precedence = o.precedence
    · have hregroups : o.regroupsRight = true := by simpa [hprecedence] using hsame
      have hleft := hl.right ho hw
      rw [← hprecedence] at hleft ⊢
      have hright := hr.right hop hleft
      rw [needsBrackets_regrouped ho hprecedence hregroups] at hright
      rw [readText_operator v false hop]
      simp only [Expr.bracketedIf, Expr.signedText, Bool.false_eq_true, if_false,
        List.append_assoc] at hright ⊢
      exact hright.congr fun x => (laws.regroup hop hprecedence hregroups _ _ _).symm
    · have hsigned : Means v.char.toLower (.signed o.precedence)
          (readText v (.binary false op l r)) fun x => op.apply (l.eval x) (r.eval x) := by
        have hlt : op.precedence.level < o.precedence.level :=
          Nat.lt_of_le_of_ne hlevel fun h => hprecedence (eq_of_level_eq h)
        obtain ⟨hparent, hchild⟩ | ⟨hparent, hchild⟩ :=
          tighter_of_level_lt (precedence_ne_function hop) hlt
        · rw [hparent]
          exact (hproduct hchild).signed laws
        · rw [hparent]
          exact (hpower hchild).signed
      exact hw.operation laws ho hsigned

/-- The text of an operator is read in every position. -/
theorem ReadsBack.of_operator {op : BinaryOp} (hop : op.isOperator = true) (hl : ReadsBack v l)
    (hr : ReadsBack v r) : ReadsBack v (.binary false op l r) := by
  have hpower (hp : op.precedence = .power) := power_of_operands hop hp hl hr
  have hproduct (hp : op.precedence ≠ .sum) : MeansProduct v.char.toLower
      (readText v (.binary false op l r)) fun x => op.apply (l.eval x) (r.eval x) := by
    cases hprecedence : op.precedence with
    | sum => exact absurd hprecedence hp
    | product => exact product_of_operands laws hop hprecedence hl hr
    | power => exact (hpower hprecedence).product
    | function => exact absurd hprecedence (precedence_ne_function hop)
  have halone : Means v.char.toLower (.chain .sum) (readText v (.binary false op l r))
      fun x => op.apply (l.eval x) (r.eval x) := by
    by_cases hprecedence : op.precedence = .sum
    · exact sum_of_operands hop hprecedence hl hr
    · exact ((hproduct hprecedence).signed laws).sum_of_signed
  refine ⟨halone, hproduct, fun _ hlevel => ?_, fun ho hw =>
    right_of_operator laws hop hl hr halone hproduct hpower ho hw⟩
  exact hpower (eq_power_of_level_le_one (precedence_ne_function hop) hlevel)

/-- The text of every tree whose numbers are magnitudes is read in every position. -/
theorem readsBack_of_hasMagnitudes (v : Letter) {t : Expr α} (ht : t.HasMagnitudes) :
    ReadsBack v t := by
  induction t with
  | var negative =>
    exact .of_signedText laws rfl (readText_var v negative)
      ⟨.var false, .literal .var, fun x => rfl⟩ fun x => rfl
  | num negative magnitude =>
    obtain ⟨a, rfl⟩ := ht
    obtain ⟨n, hn, hread⟩ := laws.read_text a
    have hleaf : Means v.char.toLower (.chain .function) (cleaned (numberText (Scalar.abs a)))
        fun _ => Scalar.abs a :=
      ⟨_, .literal (.of_numeralOf? hn), fun x => (laws.eval_ofNumber _ x).trans hread⟩
    exact .of_signedText laws rfl (readText_num v negative _) hleaf fun x => rfl
  | unary negative op operand ih =>
    exact .of_signedText laws rfl (readText_unary v negative op operand)
      ((ih ht).alone.call1 op) fun x => rfl
  | binary negative op left right ihl ihr =>
    have hl := ihl ht.1
    have hr := ihr ht.2
    cases hop : op.isOperator with
    | true =>
      have hplain := ReadsBack.of_operator laws hop hl hr
      cases negative with
      | false => exact hplain
      | true =>
        have htext : readText v (.binary true op left right) = Expr.signedText true false
            ('(' :: readText v (.binary false op left right) ++ [')']) := by
          rw [readText_operator v true hop, readText_operator v false hop]
          rfl
        exact .of_signedText laws rfl htext hplain.alone.brackets fun x => rfl
    | false =>
      have houter := outer_of_not_isOperator hop negative left right
      exact .of_signedText laws houter (readText_function v negative hop left right)
        (hl.alone.call2 laws hop hr.alone) fun x => rfl

end Laws

/-- A rendered tree is parsed, and what is parsed has the values of the tree. -/
theorem parse_render (laws : RegroupingLaws α) (v : Letter) (t : Expr α) (ht : t.Built) :
    ∃ u : Expr α, parse v.char (t.render v.char) = .ok u ∧ ∀ x, u.eval x = t.eval x := by
  obtain ⟨u, hu, heval⟩ := (readsBack_of_hasMagnitudes laws v ht.hasMagnitudes).alone
  exact ⟨u, parse_of_derives v hu, heval⟩

/-- A number modulo five. Its magnitude is the number itself. -/
structure Residue where
  /-- The number. -/
  value : Fin 5
  deriving DecidableEq

namespace Residue

instance : Scalar Residue where
  zero := ⟨0⟩
  one := ⟨1⟩
  neg a := ⟨-a.value⟩
  add a b := ⟨a.value + b.value⟩
  sub a b := ⟨a.value - b.value⟩
  mul a b := ⟨a.value * b.value⟩
  div a b := ⟨a.value * (b.value * b.value * b.value)⟩
  abs a := a
  pow a b := ⟨a.value * b.value + 1⟩
  log a b := ⟨a.value - 2 * b.value⟩
  sin a := ⟨a.value + 1⟩
  cos a := ⟨a.value * a.value⟩
  tan a := ⟨a.value + 3⟩
  euler := ⟨2⟩
  pi := ⟨3⟩
  undefined := ⟨0⟩
  less _ _ := false
  equal a b := a = b
  roundTo _ a := a

instance : HasNumerals Residue where
  toNumeral a := .finite false ⟨a.value, 0⟩
  ofNumeral
    | .finite false d => ⟨Fin.ofNat 5 d.coefficient⟩
    | _ => ⟨0⟩

/-- Residues obey the laws for regrouping products. -/
theorem regroupingLaws : RegroupingLaws Residue where
  read_text := by
    rintro ⟨a⟩
    refine ⟨.finite false ⟨a, 0⟩, ?_⟩
    revert a
    decide +kernel
  eval_ofNumber _ _ := rfl
  neg_neg := by
    rintro ⟨a⟩
    revert a
    decide +kernel
  neg_mul := by
    rintro ⟨a⟩ ⟨b⟩
    revert a b
    decide +kernel
  neg_div := by
    rintro ⟨a⟩ ⟨b⟩
    revert a b
    decide +kernel
  add_add := by
    rintro ⟨a⟩ ⟨b⟩ ⟨c⟩
    revert a b c
    decide +kernel
  add_sub := by
    rintro ⟨a⟩ ⟨b⟩ ⟨c⟩
    revert a b c
    decide +kernel
  mul_mul := by
    rintro ⟨a⟩ ⟨b⟩ ⟨c⟩
    revert a b c
    decide +kernel
  mul_div := by
    rintro ⟨a⟩ ⟨b⟩ ⟨c⟩
    revert a b c
    decide +kernel

/-- The text `x + x - -x * x / 3` is read back modulo five. -/
theorem parse_render_regrouped :
    let x : Expr Residue := .var false
    let t : Expr Residue := .apply2 .addition x (.apply2 .subtraction x
      (.apply2 .multiplication (x.withNegative true) (.apply2 .division x (.ofNumber ⟨3⟩))))
    RegroupingLaws Residue ∧ t.Built ∧
      ∃ u : Expr Residue, parse 'x' (t.render 'x') = .ok u ∧ ∀ a, u.eval a = t.eval a := by
  intro x t
  have hbuilt : t.Built :=
    .apply2 _ .var (.apply2 _ .var (.apply2 _ (.withNegative _ .var) (.apply2 _ .var (.number _))))
  exact ⟨regroupingLaws, hbuilt,
    parse_render regroupingLaws ⟨'x', isLetter_of_isAlpha rfl⟩ t hbuilt⟩

end Residue

end Univariate
