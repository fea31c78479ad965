import Univariate.Expr.Arithmetic
import Univariate.Numeral
import Univariate.Proofs.TopLevel
import Univariate.Text.Letter

/-!
# The grammar of expressions

With `E` for an expression and `v` for the letter of the variable, the grammar is

    E  := E '+' P1 | E '-' P1 | P1        P1 := '-' P1 | T
    T  := T '*' P2 | T '/' P2 | F         P2 := '-' P2 | F
    F  := F '^' P3 | A                    P3 := '-' P3 | A
    A  := number | v | 'inf' | 'nan' | '(' E ')'
        | ('sin' | 'cos' | 'tg') '(' E ')' | ('log' | 'nrt') '(' E ';' E ')'

where a number is a sequence of digits with at most one point and at least one digit. The left
column is one category for each precedence and the right column another, so that the rules are
stated once for all precedences. A derivation builds the tree that its productions say.
-/

namespace Univariate

/-- The precedence that binds next tighter. -/
def Precedence.tighter : Precedence → Precedence
  | .sum => .product
  | .product => .power
  | .power | .function => .function

/-- The categories of the grammar. -/
inductive Category where
  /-- Operations of a precedence, grouped to the left: `E`, `T` and `F`, and `A` for the tightest
  precedence. -/
  | chain (p : Precedence)
  /-- The right operands of operations of a precedence: `P1`, `P2` and `P3`. -/
  | signed (p : Precedence)
  deriving DecidableEq

variable {α : Type} [Scalar α] [HasNumerals α]

/-- The texts of numbers and of the variable, with the leaves that they stand for. -/
inductive Literal (letter : Char) : List Char → Expr α → Prop
  | digits {w : List Char} (hw : w.all Char.isDigit = true) (hne : w ≠ []) :
      Literal letter w (.ofNumber (HasNumerals.ofNumeral (.finite false (.ofParts w []))))
  | point {v w : List Char} (hv : v.all Char.isDigit = true) (hw : w.all Char.isDigit = true)
      (hne : v ++ w ≠ []) :
      Literal letter (v ++ '.' :: w)
        (.ofNumber (HasNumerals.ofNumeral (.finite false (.ofParts v w))))
  | infinity : Literal letter ['i', 'n', 'f'] (.ofNumber (HasNumerals.ofNumeral (.infinite false)))
  | undefined : Literal letter ['n', 'a', 'n'] (.ofNumber (HasNumerals.ofNumeral .undefined))
  | var : Literal letter [letter] (.var false)

/-- The texts of a category, with the trees that they stand for. Blanks are left out of the texts,
and capitals are written as lower-case letters. -/
inductive Derives (letter : Char) : Category → List Char → Expr α → Prop
  | operation {p : Precedence} {op : BinaryOp} {v w : List Char} {l r : Expr α}
      (hop : op.isOperator = true) (hp : op.precedence = p)
      (hl : Derives letter (.chain p) v l) (hr : Derives letter (.signed p) w r) :
      Derives letter (.chain p) (v ++ op.symbol ++ w) (.apply2 op l r)
  | operand {w : List Char} {t : Expr α} (ht : Derives letter (.signed .sum) w t) :
      Derives letter (.chain .sum) w t
  | tighter {p : Precedence} {w : List Char} {t : Expr α} (hp : p = .product ∨ p = .power)
      (ht : Derives letter (.chain p.tighter) w t) : Derives letter (.chain p) w t
  | minus {p : Precedence} {w : List Char} {t : Expr α} (ht : Derives letter (.signed p) w t) :
      Derives letter (.signed p) ('-' :: w) (-t)
  | unsigned {p : Precedence} {w : List Char} {t : Expr α}
      (ht : Derives letter (.chain p.tighter) w t) : Derives letter (.signed p) w t
  | literal {w : List Char} {t : Expr α} (ht : Literal letter w t) :
      Derives letter (.chain .function) w t
  | brackets {w : List Char} {t : Expr α} (ht : Derives letter (.chain .sum) w t) :
      Derives letter (.chain .function) ('(' :: w ++ [')']) t
  | call1 (op : UnaryOp) {w : List Char} {t : Expr α} (ht : Derives letter (.chain .sum) w t) :
      Derives letter (.chain .function) (op.symbol ++ ('(' :: w ++ [')'])) (.apply1 op t)
  | call2 {op : BinaryOp} {v w : List Char} {l r : Expr α} (hop : op.isOperator = false)
      (hl : Derives letter (.chain .sum) v l) (hr : Derives letter (.chain .sum) w r) :
      Derives letter (.chain .function) (op.symbol ++ ('(' :: (v ++ ';' :: w) ++ [')']))
        (.apply2 op l r)

/-- A text of any left column category is an expression. -/
theorem Derives.sum_of_chain {letter : Char} {p : Precedence} {w : List Char} {t : Expr α}
    (h : Derives letter (.chain p) w t) : Derives letter (.chain .sum) w t := by
  have hproduct {w : List Char} {t : Expr α} (h : Derives letter (.chain .product) w t) :
      Derives letter (.chain .sum) w t := .operand (.unsigned h)
  have hpower {w : List Char} {t : Expr α} (h : Derives letter (.chain .power) w t) :
      Derives letter (.chain .sum) w t := hproduct (.tighter (.inl rfl) h)
  cases p with
  | sum => exact h
  | product => exact hproduct h
  | power => exact hpower h
  | function => exact hpower (.tighter (.inr rfl) h)

/-- The characters that the grammar uses apart from letters. -/
def marks : List Char :=
  ['(', ')', ';', '.', '+', '-', '*', '/', '^', '0', '1', '2', '3', '4', '5', '6', '7', '8', '9']

/-- No mark is a letter. -/
theorem marks_not_letters : marks.all (fun c => !isLetter c) = true := by decide +kernel

/-- No letter is one of the marks. -/
theorem ne_of_isLetter {c d : Char} (hc : isLetter c = true) (hd : d ∈ marks) : c ≠ d := by
  rintro rfl
  have hnot := List.all_eq_true.mp marks_not_letters c hd
  rw [hc] at hnot
  cases hnot

/-- The operators are the five characters for arithmetic. -/
theorem mem_of_isOperatorSymbol {c : Char} (h : isOperatorSymbol c = true) :
    c ∈ ['+', '-', '*', '/', '^'] := by
  obtain ⟨op, hop⟩ := Option.isSome_iff_exists.mp h
  obtain ⟨hoperator, hsymbol⟩ := Operation.ofOperator?_eq_some_iff.mp hop
  cases op with
  | logarithm | root => cases hoperator
  | _ => cases hsymbol; decide

/-- Every operator is a mark. -/
theorem mem_marks_of_isOperatorSymbol {c : Char} (h : isOperatorSymbol c = true) : c ∈ marks := by
  have hsubset : ['+', '-', '*', '/', '^'] ⊆ marks := by decide
  exact hsubset (mem_of_isOperatorSymbol h)

/-- Every letter is plain. -/
theorem isPlain_of_isLetter {c : Char} (hc : isLetter c = true) : IsPlain c where
  not_operator := Bool.eq_false_iff.mpr fun hop =>
    ne_of_isLetter hc (mem_marks_of_isOperatorSymbol hop) rfl
  not_opening := ne_of_isLetter hc (by decide)
  not_closing := ne_of_isLetter hc (by decide)
  not_separator := ne_of_isLetter hc (by decide)

/-- Every digit is plain. -/
theorem isPlain_of_isDigit {c : Char} (hc : c.isDigit = true) : IsPlain c where
  not_operator := Bool.eq_false_iff.mpr fun hop => by
    have hnone : (['+', '-', '*', '/', '^'].all fun c => !c.isDigit) = true := by decide
    have hnot := List.all_eq_true.mp hnone c (mem_of_isOperatorSymbol hop)
    rw [hc] at hnot
    cases hnot
  not_opening := by rintro rfl; cases hc
  not_closing := by rintro rfl; cases hc
  not_separator := by rintro rfl; cases hc

/-- No digit lies in a range of letters. -/
theorem digits_not_letters :
    alphabeticRanges.all (fun range => range.2 < 48 || 57 < range.1) = true := by decide +kernel

/-- No letter is a digit. -/
theorem not_isDigit_of_isLetter {c : Char} (hc : isLetter c = true) : ¬c.isDigit = true := by
  intro hdigit
  rw [Char.isDigit, Bool.and_eq_true, decide_eq_true_eq, decide_eq_true_eq] at hdigit
  obtain ⟨range, hrange, hin⟩ := List.any_eq_true.mp hc
  have hout := List.all_eq_true.mp digits_not_letters range hrange
  have hlow : 48 ≤ c.toNat := UInt32.le_iff_toNat_le.mp hdigit.1
  have hhigh : c.toNat ≤ 57 := UInt32.le_iff_toNat_le.mp hdigit.2
  simp only [Bool.and_eq_true, Bool.or_eq_true, decide_eq_true_eq] at hin hout
  omega

/-- The decimal point is plain. -/
theorem isPlain_point : IsPlain '.' := ⟨rfl, by decide, by decide, by decide⟩

/-- The texts of numbers and of the variable have no structure. -/
theorem Literal.isPlain {letter : Char} (hletter : isLetter letter = true) {w : List Char}
    {t : Expr α} (h : Literal letter w t) : ∀ c ∈ w, IsPlain c := by
  have hdigits {v : List Char} (hv : v.all Char.isDigit = true) : ∀ c ∈ v, IsPlain c :=
    fun c hc => isPlain_of_isDigit (List.all_eq_true.mp hv c hc)
  have hletters {v : List Char} (hv : v.all Char.isAlpha = true) : ∀ c ∈ v, IsPlain c :=
    fun c hc => isPlain_of_isLetter (isLetter_of_isAlpha (List.all_eq_true.mp hv c hc))
  cases h with
  | digits hw hne => exact hdigits hw
  | point hv hw hne =>
    rw [List.forall_mem_append, List.forall_mem_cons]
    exact ⟨hdigits hv, isPlain_point, hdigits hw⟩
  | infinity | undefined => exact hletters (by decide)
  | var =>
    rw [List.forall_mem_singleton]
    exact isPlain_of_isLetter hletter

/-- No literal is empty. -/
theorem Literal.ne_nil {letter : Char} {w : List Char} {t : Expr α} (h : Literal letter w t) :
    w ≠ [] := by
  cases h with
  | digits hw hne => exact hne
  | _ => simp

/-- Keywords are written with letters. -/
theorem isLetter_of_mem_symbol {op : Operation} (hop : op.isKeyword = true) :
    ∀ c ∈ op.symbol, isLetter c = true := by
  have halpha : op.symbol.all Char.isAlpha = true := by
    rcases op with op | op
    · cases op <;> rfl
    · cases op with
      | logarithm | root => rfl
      | _ => cases hop
  exact fun c hc => isLetter_of_isAlpha (List.all_eq_true.mp halpha c hc)

end Univariate
