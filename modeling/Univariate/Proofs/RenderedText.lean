import Univariate.Expr.Render
import Univariate.Proofs.Meaning

/-!
# Rendered text as it is read

The text of a tree is read without its spaces and with the letter of the variable in lower case. What
remains are the texts of the operands, with brackets where the renderer needs them.
-/

namespace Univariate

/-- The ranges of blanks. -/
def blankRanges : List (Nat × Nat) :=
  [(0x9, 0xD), (0x20, 0x20), (0x85, 0x85), (0xA0, 0xA0), (0x1680, 0x1680), (0x2000, 0x200A),
    (0x2028, 0x2029), (0x202F, 0x202F), (0x205F, 0x205F), (0x3000, 0x3000)]

/-- A blank lies in one of the ranges. -/
theorem exists_blankRange {c : Char} (h : isBlank c = true) :
    ∃ range ∈ blankRanges, range.1 ≤ c.toNat ∧ c.toNat ≤ range.2 := by
  simp only [isBlank, Bool.or_eq_true, Bool.and_eq_true, decide_eq_true_eq] at h
  simp only [blankRanges, List.mem_cons, List.not_mem_nil, or_false, exists_eq_or_imp,
    exists_eq_left]
  omega

/-- No range of blanks meets a range of letters. -/
theorem blanks_not_letters : blankRanges.all (fun blank => alphabeticRanges.all fun range =>
    blank.2 < range.1 || range.2 < blank.1) = true := by decide +kernel

/-- No letter is blank. -/
theorem isBlank_of_isLetter {c : Char} (h : isLetter c = true) : isBlank c = false := by
  refine Bool.eq_false_iff.mpr fun hblank => ?_
  obtain ⟨blank, hmem, hlow, hhigh⟩ := exists_blankRange hblank
  obtain ⟨range, hrange, hin⟩ := List.any_eq_true.mp h
  have hapart := List.all_eq_true.mp (List.all_eq_true.mp blanks_not_letters blank hmem) range hrange
  simp only [Bool.and_eq_true, Bool.or_eq_true, decide_eq_true_eq] at hin hapart
  omega

/-- The letter of the variable is read in lower case. -/
theorem cleaned_letter (v : Letter) : cleaned [v.char] = [v.char.toLower] := by
  have hcomma : v.char ≠ ',' := by
    intro hcomma
    have hletter := v.isLetter_char
    rw [hcomma] at hletter
    exact absurd hletter (by decide +kernel)
  rw [cleaned_cons (isBlank_of_isLetter v.isLetter_char), readAs, if_neg hcomma]
  rfl

/-- The symbol of an operation is read as it is written. -/
theorem cleaned_symbol (op : Operation) : cleaned op.symbol = op.symbol := by
  rcases op with op | op <;> cases op <;> decide

/-- The spaces around the symbol of an operation are no part of what is read. -/
theorem cleaned_spacedSymbol (op : BinaryOp) : cleaned (Expr.spacedSymbol op) = op.symbol := by
  cases op <;> decide

/-- Brackets are part of what is read. -/
theorem cleaned_bracketedIf (needed : Bool) (w : List Char) :
    cleaned (Expr.bracketedIf needed w) = Expr.bracketedIf needed (cleaned w) := by
  cases needed with
  | false => rfl
  | true =>
    have happend := cleaned_append ('(' :: w) [')']
    exact happend

/-- A sign is part of what is read. -/
theorem cleaned_signedText (negative isOperator : Bool) (w : List Char) :
    cleaned (Expr.signedText negative isOperator w) =
      Expr.signedText negative isOperator (cleaned w) := by
  cases negative with
  | false => rfl
  | true =>
    have hminus : cleaned ('-' :: Expr.bracketedIf isOperator w) =
        '-' :: cleaned (Expr.bracketedIf isOperator w) := rfl
    rw [Expr.signedText, if_pos rfl, hminus, cleaned_bracketedIf]
    rfl

/-- A function of one argument is read as its symbol and its argument in brackets. -/
theorem cleaned_call1 (op : UnaryOp) (w : List Char) :
    cleaned (op.symbol ++ Expr.bracketedIf true w) = op.symbol ++ ('(' :: cleaned w ++ [')']) := by
  have hsymbol : cleaned op.symbol = op.symbol := cleaned_symbol (.unary op)
  rw [cleaned_append, cleaned_bracketedIf, hsymbol]
  rfl

/-- A function of two arguments is read without the space behind the semicolon. -/
theorem cleaned_call2 (op : BinaryOp) (v w : List Char) :
    cleaned (op.symbol ++ Expr.bracketedIf true (v ++ ';' :: ' ' :: w)) =
      op.symbol ++ ('(' :: (cleaned v ++ ';' :: cleaned w) ++ [')']) := by
  have hsymbol : cleaned op.symbol = op.symbol := cleaned_symbol (.binary op)
  have hseparator : cleaned (';' :: ' ' :: w) = ';' :: cleaned w := rfl
  rw [cleaned_append, cleaned_bracketedIf, cleaned_append, hsymbol, hseparator]
  rfl

variable {α : Type} [HasNumerals α]

/-- The text of a tree as it is read. -/
def readText (v : Letter) (t : Expr α) : List Char := cleaned (t.render v.char)

/-- The variable is read as its letter in lower case, with its sign. -/
theorem readText_var (v : Letter) (negative : Bool) :
    readText v (.var negative : Expr α) = Expr.signedText negative false [v.char.toLower] := by
  rw [readText, Expr.render, cleaned_signedText, cleaned_letter]

/-- A number is read as its digits, with its sign. -/
theorem readText_num (v : Letter) (negative : Bool) (a : α) :
    readText v (.num negative a) = Expr.signedText negative false (cleaned (numberText a)) := by
  rw [readText, Expr.render, cleaned_signedText]

/-- A function of one argument is read as its symbol and the text of its argument in brackets. -/
theorem readText_unary (v : Letter) (negative : Bool) (op : UnaryOp) (s : Expr α) :
    readText v (.unary negative op s) =
      Expr.signedText negative false (op.symbol ++ ('(' :: readText v s ++ [')'])) := by
  rw [readText, Expr.render, cleaned_signedText, cleaned_call1]
  rfl

/-- An operator is read with the texts of its operands, in brackets if they need them. -/
theorem readText_operator (v : Letter) (negative : Bool) {op : BinaryOp} (hop : op.isOperator = true)
    (l r : Expr α) :
    readText v (.binary negative op l r) = Expr.signedText negative true
      (Expr.bracketedIf (Expr.needsBrackets op l false) (readText v l) ++ op.symbol ++
        Expr.bracketedIf (Expr.needsBrackets op r true) (readText v r)) := by
  rw [readText, Expr.render, hop]
  simp only [if_true, cleaned_signedText, cleaned_append, cleaned_bracketedIf, cleaned_spacedSymbol]
  rfl

/-- A function of two arguments is read as its symbol and their texts in brackets. -/
theorem readText_function (v : Letter) (negative : Bool) {op : BinaryOp}
    (hop : op.isOperator = false) (l r : Expr α) :
    readText v (.binary negative op l r) = Expr.signedText negative false
      (op.symbol ++ ('(' :: (readText v l ++ ';' :: readText v r) ++ [')'])) := by
  rw [readText, Expr.render, hop]
  simp only [Bool.false_eq_true, if_false, cleaned_signedText, cleaned_call2]
  rfl

end Univariate
