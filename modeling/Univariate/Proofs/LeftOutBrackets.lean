import Univariate.Expr.Render

/-!
# Texts without the brackets of one operand

The texts that are left of the text of a tree when the brackets around one of its operands are taken
out, for an operand on any depth that needs them.
-/

namespace Univariate

variable {α : Type}

namespace Expr

variable [HasNumerals α]

/-- The texts of a tree with the brackets around one operand left out. -/
inductive LacksBrackets (letter : Char) : Expr α → List Char → Prop
  | left {negative : Bool} {op : BinaryOp} {l r : Expr α} (hop : op.isOperator = true)
      (hneeded : needsBrackets op l false = true) :
      LacksBrackets letter (.binary negative op l r) (signedText negative true
        (l.render letter ++ spacedSymbol op ++
          bracketedIf (needsBrackets op r true) (r.render letter)))
  | right {negative : Bool} {op : BinaryOp} {l r : Expr α} (hop : op.isOperator = true)
      (hneeded : needsBrackets op r true = true) :
      LacksBrackets letter (.binary negative op l r) (signedText negative true
        (bracketedIf (needsBrackets op l false) (l.render letter) ++ spacedSymbol op ++
          r.render letter))
  | withinLeft {negative : Bool} {op : BinaryOp} {l r : Expr α} {w : List Char}
      (hop : op.isOperator = true) (h : LacksBrackets letter l w) :
      LacksBrackets letter (.binary negative op l r) (signedText negative true
        (bracketedIf (needsBrackets op l false) w ++ spacedSymbol op ++
          bracketedIf (needsBrackets op r true) (r.render letter)))
  | withinRight {negative : Bool} {op : BinaryOp} {l r : Expr α} {w : List Char}
      (hop : op.isOperator = true) (h : LacksBrackets letter r w) :
      LacksBrackets letter (.binary negative op l r) (signedText negative true
        (bracketedIf (needsBrackets op l false) (l.render letter) ++ spacedSymbol op ++
          bracketedIf (needsBrackets op r true) w))
  | withinFirst {negative : Bool} {op : BinaryOp} {l r : Expr α} {w : List Char}
      (hop : op.isOperator = false) (h : LacksBrackets letter l w) :
      LacksBrackets letter (.binary negative op l r) (signedText negative false
        (op.symbol ++ bracketedIf true (w ++ ';' :: ' ' :: r.render letter)))
  | withinSecond {negative : Bool} {op : BinaryOp} {l r : Expr α} {w : List Char}
      (hop : op.isOperator = false) (h : LacksBrackets letter r w) :
      LacksBrackets letter (.binary negative op l r) (signedText negative false
        (op.symbol ++ bracketedIf true (l.render letter ++ ';' :: ' ' :: w)))
  | withinArgument {negative : Bool} {op : UnaryOp} {s : Expr α} {w : List Char}
      (h : LacksBrackets letter s w) :
      LacksBrackets letter (.unary negative op s) (signedText negative false
        (op.symbol ++ bracketedIf true w))

/-- An operator is written between its operands, with brackets around those that need them. -/
theorem render_operator (letter : Char) (negative : Bool) {op : BinaryOp}
    (hop : op.isOperator = true) (l r : Expr α) :
    (Expr.binary negative op l r).render letter = signedText negative true
      (bracketedIf (needsBrackets op l false) (l.render letter) ++ spacedSymbol op ++
        bracketedIf (needsBrackets op r true) (r.render letter)) := by
  rw [render, hop]
  rfl

/-- A function of two arguments is written with both in its brackets. -/
theorem render_function (letter : Char) (negative : Bool) {op : BinaryOp}
    (hop : op.isOperator = false) (l r : Expr α) :
    (Expr.binary negative op l r).render letter = signedText negative false
      (op.symbol ++ bracketedIf true (l.render letter ++ ';' :: ' ' :: r.render letter)) := by
  rw [render, hop]
  rfl

/-- The second text is the first one without the brackets around an operand. -/
def TakesOut (operand w w' : List Char) : Prop :=
  ∃ before after, w = before ++ ('(' :: operand ++ [')']) ++ after ∧ w' = before ++ operand ++ after

namespace TakesOut

variable {operand w w' : List Char}

/-- The brackets around an operand can be taken out of the text that they enclose. -/
theorem brackets (operand : List Char) : TakesOut operand (bracketedIf true operand) operand :=
  ⟨[], [], by simp [bracketedIf], by simp⟩

/-- Brackets are taken out of a text with another one behind it. -/
theorem append (h : TakesOut operand w w') (v : List Char) :
    TakesOut operand (w ++ v) (w' ++ v) := by
  obtain ⟨before, after, rfl, rfl⟩ := h
  exact ⟨before, after ++ v, by simp, by simp⟩

/-- Brackets are taken out of a text with another one in front of it. -/
theorem prepend (h : TakesOut operand w w') (v : List Char) :
    TakesOut operand (v ++ w) (v ++ w') := by
  obtain ⟨before, after, rfl, rfl⟩ := h
  exact ⟨v ++ before, after, by simp, by simp⟩

/-- Brackets are taken out of a text in brackets. -/
theorem bracketedIf (h : TakesOut operand w w') (needed : Bool) :
    TakesOut operand (bracketedIf needed w) (bracketedIf needed w') := by
  cases needed with
  | false => exact h
  | true => exact (h.prepend ['(']).append [')']

/-- Brackets are taken out of a text behind its sign. -/
theorem signedText (h : TakesOut operand w w') (negative isOperator : Bool) :
    TakesOut operand (signedText negative isOperator w) (signedText negative isOperator w') := by
  cases negative with
  | false => exact h
  | true => exact (h.bracketedIf isOperator).prepend ['-']

end TakesOut

/-- One pair of brackets is left out, and it stands around the text of an operand. -/
theorem LacksBrackets.exists_pair {letter : Char} {t : Expr α} {w : List Char}
    (h : t.LacksBrackets letter w) :
    ∃ operand : Expr α, TakesOut (operand.render letter) (t.render letter) w := by
  induction h with
  | @left negative op l r hop hneeded =>
    refine ⟨l, ?_⟩
    rw [render_operator letter negative hop, hneeded]
    exact (((TakesOut.brackets _).append _).append _).signedText _ _
  | @right negative op l r hop hneeded =>
    refine ⟨r, ?_⟩
    rw [render_operator letter negative hop, hneeded]
    exact ((TakesOut.brackets _).prepend _).signedText _ _
  | withinLeft hop _ ih =>
    obtain ⟨operand, ih⟩ := ih
    refine ⟨operand, ?_⟩
    rw [render_operator letter _ hop]
    exact (((ih.bracketedIf _).append _).append _).signedText _ _
  | withinRight hop _ ih =>
    obtain ⟨operand, ih⟩ := ih
    refine ⟨operand, ?_⟩
    rw [render_operator letter _ hop]
    exact ((ih.bracketedIf _).prepend _).signedText _ _
  | withinFirst hop _ ih =>
    obtain ⟨operand, ih⟩ := ih
    refine ⟨operand, ?_⟩
    rw [render_function letter _ hop]
    exact (((ih.append _).bracketedIf _).prepend _).signedText _ _
  | withinSecond hop _ ih =>
    obtain ⟨operand, ih⟩ := ih
    refine ⟨operand, ?_⟩
    rw [render_function letter _ hop]
    exact ((((ih.prepend [';', ' ']).prepend _).bracketedIf _).prepend _).signedText _ _
  | withinArgument _ ih =>
    obtain ⟨operand, ih⟩ := ih
    exact ⟨operand, ((ih.bracketedIf _).prepend _).signedText _ _⟩

/-- A tree with brackets around an operand is no leaf. -/
theorem LacksBrackets.isLeaf_eq_false {letter : Char} {t : Expr α} {w : List Char}
    (h : t.LacksBrackets letter w) : t.isLeaf = false := by
  cases h <;> rfl

end Expr

end Univariate
