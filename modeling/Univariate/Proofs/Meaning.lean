import Univariate.Proofs.Reading

/-!
# What a text means

A text of a category means a function if the grammar derives it with a tree that evaluates to the
function. Signs may move out of products and quotients, and right operands of sums and products may
be regrouped, in every arithmetic with the laws stated here. Powers, logarithms, roots and the
trigonometric functions can be any functions.
-/

namespace Univariate

/-- The laws of an arithmetic in which rendered text keeps its meaning. -/
structure RegroupingLaws (α : Type) [Scalar α] [HasNumerals α] : Prop where
  /-- The text of a magnitude is read back as that magnitude. -/
  read_text : ∀ a : α, ∃ n, numeralOf? (cleaned (numberText (Scalar.abs a))) = some n ∧
    HasNumerals.ofNumeral n = Scalar.abs a
  /-- The leaf of a number has that number as its value. -/
  eval_ofNumber : ∀ a x : α, (Expr.ofNumber a).eval x = a
  neg_neg : ∀ a : α, - -a = a
  neg_mul : ∀ a b : α, -a * b = -(a * b)
  neg_div : ∀ a b : α, -a / b = -(a / b)
  add_add : ∀ a b c : α, a + (b + c) = a + b + c
  add_sub : ∀ a b c : α, a + (b - c) = a + b - c
  mul_mul : ∀ a b c : α, a * (b * c) = a * b * c
  mul_div : ∀ a b c : α, a * (b / c) = a * b / c

variable {α : Type} [Scalar α] [HasNumerals α]

namespace RegroupingLaws

variable (laws : RegroupingLaws α)

include laws

/-- An operation on the right of a sum or product can be grouped to the left. -/
theorem regroup {p q : BinaryOp} (hq : q.isOperator = true) (hprecedence : q.precedence = p.precedence)
    (hp : p.regroupsRight = true) (a b c : α) :
    p.apply a (q.apply b c) = q.apply (p.apply a b) c := by
  cases p with
  | addition =>
    cases q with
    | addition => exact laws.add_add a b c
    | subtraction => exact laws.add_sub a b c
    | _ => cases hprecedence
  | multiplication =>
    cases q with
    | multiplication => exact laws.mul_mul a b c
    | division => exact laws.mul_div a b c
    | _ => cases hprecedence
  | _ => cases hp

/-- The sign of the left operand of a product or quotient is that of the result. -/
theorem apply_negateNumberIf {op : BinaryOp} (hop : op.precedence = .product) (negative : Bool)
    (a b : α) : op.apply (negateNumberIf negative a) b = negateNumberIf negative (op.apply a b) := by
  cases negative with
  | false => rfl
  | true =>
    cases op with
    | multiplication => exact laws.neg_mul a b
    | division => exact laws.neg_div a b
    | _ => cases hop

end RegroupingLaws

/-- A text of a category means a function. -/
def Means (letter : Char) (c : Category) (w : List Char) (f : α → α) : Prop :=
  ∃ u : Expr α, Derives letter c w u ∧ ∀ x, u.eval x = f x

namespace Means

variable {letter : Char} {p : Precedence} {v w : List Char} {f g : α → α}

/-- A text means every function with the same values. -/
theorem congr {c : Category} (h : Means letter c w f) (hfg : ∀ x, f x = g x) :
    Means letter c w g := by
  obtain ⟨u, hu, heval⟩ := h
  exact ⟨u, hu, fun x => (heval x).trans (hfg x)⟩

/-- A text of a tighter chain means the same as one of a looser chain. -/
theorem tighter (hp : p = .product ∨ p = .power) (h : Means letter (.chain p.tighter) w f) :
    Means letter (.chain p) w f := by
  obtain ⟨u, hu, heval⟩ := h
  exact ⟨u, .tighter hp hu, heval⟩

/-- A text of the next tighter chain means the same behind a sign. -/
theorem signed (h : Means letter (.chain p.tighter) w f) : Means letter (.signed p) w f := by
  obtain ⟨u, hu, heval⟩ := h
  exact ⟨u, .unsigned hu, heval⟩

/-- A sum that is a single signed operand means what the operand means. -/
theorem sum_of_signed (h : Means letter (.signed .sum) w f) : Means letter (.chain .sum) w f := by
  obtain ⟨u, hu, heval⟩ := h
  exact ⟨u, .operand hu, heval⟩

/-- A text in brackets means what the text means. -/
theorem brackets (h : Means letter (.chain .sum) w f) :
    Means letter (.chain .function) ('(' :: w ++ [')']) f := by
  obtain ⟨u, hu, heval⟩ := h
  exact ⟨u, .brackets hu, heval⟩

/-- A function of one argument means the function of what the argument means. -/
theorem call1 (op : UnaryOp) (h : Means letter (.chain .sum) w f) :
    Means letter (.chain .function) (op.symbol ++ ('(' :: w ++ [')'])) fun x => op.apply (f x) := by
  obtain ⟨u, hu, heval⟩ := h
  exact ⟨.apply1 op u, .call1 op hu, fun x => congrArg op.apply (heval x)⟩

/-- The tightest texts belong to the right operands of every precedence. -/
theorem signed_of_function (h : Means letter (.chain .function) w f) (p : Precedence) :
    Means letter (.signed p) w f := by
  have hpower : Means letter (.chain .power) w f := h.tighter (.inr rfl)
  cases p with
  | sum => exact (hpower.tighter (.inl rfl)).signed
  | product => exact hpower.signed
  | power => exact h.signed
  | function => exact h.signed

section Laws

variable (laws : RegroupingLaws α)

include laws

/-- A minus in front of a text negates what it means. -/
theorem minus (h : Means letter (.signed p) w f) :
    Means letter (.signed p) ('-' :: w) fun x => -f x := by
  obtain ⟨u, hu, heval⟩ := h
  exact ⟨-u, .minus hu, fun x => (Expr.eval_neg laws.neg_neg u x).trans (congrArg Neg.neg (heval x))⟩

/-- An operator between texts means the operation on what the texts mean. -/
theorem operation {op : BinaryOp} (hop : op.isOperator = true)
    (hv : Means letter (.chain op.precedence) v f) (hw : Means letter (.signed op.precedence) w g) :
    Means letter (.chain op.precedence) (v ++ op.symbol ++ w) fun x => op.apply (f x) (g x) := by
  obtain ⟨l, hl, hleft⟩ := hv
  obtain ⟨r, hr, hright⟩ := hw
  refine ⟨.apply2 op l r, .operation hop rfl hl hr, fun x => ?_⟩
  rw [Expr.eval_apply2 laws.eval_ofNumber, hleft, hright]

/-- A function of two arguments means the operation on what the arguments mean. -/
theorem call2 {op : BinaryOp} (hop : op.isOperator = false) (hv : Means letter (.chain .sum) v f)
    (hw : Means letter (.chain .sum) w g) :
    Means letter (.chain .function) (op.symbol ++ ('(' :: (v ++ ';' :: w) ++ [')']))
      fun x => op.apply (f x) (g x) := by
  obtain ⟨l, hl, hleft⟩ := hv
  obtain ⟨r, hr, hright⟩ := hw
  refine ⟨.apply2 op l r, .call2 hop hl hr, fun x => ?_⟩
  rw [Expr.eval_apply2 laws.eval_ofNumber, hleft, hright]

end Laws

end Means

end Univariate
