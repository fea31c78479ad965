import Univariate.Proofs.LeftOutBrackets
import Univariate.Proofs.RenderedRows
import Univariate.Proofs.ShownNumbers
import Univariate.Proofs.Substitution

/-!
# No operand bracket is redundant

Leaving out the brackets around any operand leaves a text that is read as another tree. By induction
on the tree, its text and the text without the brackets are rows with different trees.
-/

namespace Univariate

variable {α : Type} [Scalar α] [HasNumerals α]

/-- The text of an operand of an operator, in brackets or without, is a row that does not bind
looser. -/
theorem exists_operand_row (hreadable : HasReadableTexts α) (v : Letter) {t : Expr α}
    (ht : t.HasMagnitudes) {op : BinaryOp} (hop : op.isOperator = true) (isRight : Bool) :
    ∃ (k : ℕ) (a : Operand α v.char.toLower) (xs : List (Link α v.char.toLower)),
      k ≤ op.precedence.level ∧
        IsRow (Expr.bracketedIf (Expr.needsBrackets op t isRight) (readText v t)) t.occurrences k
          a xs := by
  obtain ⟨a, xs, h, -⟩ := exists_row hreadable v ht
  exact h.exists_operand hop isRight

namespace Differs

variable {v : Letter} {op : BinaryOp} {l r : Expr α} {w : List Char}

/-- The text of an operation is read without its blanks, and a minus encloses it in brackets. -/
theorem of_operatorText {wl wr : List Char} (hop : op.isOperator = true)
    (h : Differs v (.binary false op l r) (cleaned wl ++ op.symbol ++ cleaned wr))
    (negative : Bool) :
    Differs v (.binary negative op l r)
      (cleaned (Expr.signedText negative true (wl ++ Expr.spacedSymbol op ++ wr))) := by
  rw [cleaned_signedText, cleaned_append, cleaned_append, cleaned_spacedSymbol]
  exact h.negated hop negative

/-- The brackets around the left operand of an operator are left out. It is a negated base, or it
binds looser. -/
theorem without_left_brackets (hreadable : HasReadableTexts α) (hop : op.isOperator = true)
    (hneeded : Expr.needsBrackets op l false = true) (hl : l.HasMagnitudes) (hr : r.HasMagnitudes)
    (hfolded : l.folded = l) (negative : Bool) :
    Differs v (.binary negative op l r) (cleaned (Expr.signedText negative true
      (l.render v.char ++ Expr.spacedSymbol op ++
        Expr.bracketedIf (Expr.needsBrackets op r true) (r.render v.char)))) := by
  obtain ⟨a, xs, hleft, ha⟩ := exists_row hreadable v hl
  obtain ⟨k, b, ys, hk, hright⟩ := exists_operand_row hreadable v hr hop true
  have htext := readText_operator v false hop l r
  rw [hneeded] at htext
  refine of_operatorText hop ?_ negative
  rw [cleaned_bracketedIf]
  rw [needsBrackets_left, Bool.or_eq_true] at hneeded
  rcases hneeded with hbase | hlooser
  · rw [Bool.and_eq_true, decide_eq_true_eq] at hbase
    obtain ⟨rfl, hnegative⟩ := hbase
    exact of_base hleft hnegative (ha hnegative) hright hk htext
  · have hlt := of_decide_eq_true hlooser
    have hleaf : l.isLeaf = false := isLeaf_eq_false_of_outer (Nat.ne_zero_of_lt hlt)
    have hcount := Expr.occurrences_ne_zero_of_folded hfolded hleaf
    exact of_opened_left hop hleft hlt hcount hright hk htext

/-- The brackets around the right operand of an operator are left out. It does not bind tighter. -/
theorem without_right_brackets (hreadable : HasReadableTexts α) (hop : op.isOperator = true)
    (hneeded : Expr.needsBrackets op r true = true) (hl : l.HasMagnitudes) (hr : r.HasMagnitudes)
    (hfolded : r.folded = r) (negative : Bool) :
    Differs v (.binary negative op l r) (cleaned (Expr.signedText negative true
      (Expr.bracketedIf (Expr.needsBrackets op l false) (l.render v.char) ++
        Expr.spacedSymbol op ++ r.render v.char))) := by
  obtain ⟨b, ys, hright, -⟩ := exists_row hreadable v hr
  obtain ⟨j, a, xs, hj, hleft⟩ := exists_operand_row hreadable v hl hop false
  have htext := readText_operator v false hop l r
  rw [hneeded] at htext
  have hle : op.precedence.level ≤ r.outer.level := by
    rw [needsBrackets_right hop, Bool.or_eq_true, Bool.and_eq_true, decide_eq_true_eq] at hneeded
    rcases hneeded with hlooser | ⟨hsame, -⟩
    · exact (of_decide_eq_true hlooser).le
    · rw [hsame]
  have hlevel : 0 < r.outer.level := (level_pos hop).trans_le hle
  have hleaf : r.isLeaf = false := isLeaf_eq_false_of_outer hlevel.ne'
  have hcount := Expr.occurrences_ne_zero_of_folded hfolded hleaf
  refine of_operatorText hop ?_ negative
  rw [cleaned_bracketedIf]
  exact of_opened_right hop hright hle hcount hleft hj htext

/-- The left operand of an operator is read as another tree. -/
theorem within_left (hreadable : HasReadableTexts α) (hop : op.isOperator = true)
    (h : Differs v l (cleaned w)) (hcount : l.occurrences ≠ 0) (hr : r.HasMagnitudes)
    (negative : Bool) :
    Differs v (.binary negative op l r) (cleaned (Expr.signedText negative true
      (Expr.bracketedIf (Expr.needsBrackets op l false) w ++ Expr.spacedSymbol op ++
        Expr.bracketedIf (Expr.needsBrackets op r true) (r.render v.char)))) := by
  obtain ⟨j, a, xs, a', xs', hj, hleft, htext, hfirst, hbehind⟩ :=
    h.exists_operand hcount hop false
  obtain ⟨k, b, ys, hk, hright⟩ := exists_operand_row hreadable v hr hop true
  have hlarger := hfirst.append (⟨op, hop, b⟩ :: ys)
  refine of_operatorText hop ?_ negative
  rw [cleaned_bracketedIf, cleaned_bracketedIf, ← htext]
  refine of_left hop (readText_operator v false hop l r) hleft hj hright hk hlarger.alone
    (fun _ => hlarger) fun _ o ho hbare => ?_
  have hfits : Expr.needsBrackets op l false = true ∨ Expr.needsBrackets o l true = false :=
    (Bool.eq_false_or_eq_true _).imp_right fun hneeded => bare_left_of_bare ho hop hbare hneeded
  exact (hbehind ho hfits).append _

/-- The right operand of an operator is read as another tree. -/
theorem within_right (hreadable : HasReadableTexts α) (hop : op.isOperator = true)
    (h : Differs v r (cleaned w)) (hcount : r.occurrences ≠ 0) (hl : l.HasMagnitudes)
    (negative : Bool) :
    Differs v (.binary negative op l r) (cleaned (Expr.signedText negative true
      (Expr.bracketedIf (Expr.needsBrackets op l false) (l.render v.char) ++
        Expr.spacedSymbol op ++ Expr.bracketedIf (Expr.needsBrackets op r true) w))) := by
  obtain ⟨k, b, ys, b', ys', hk, hright, htext, -, hbehind⟩ := h.exists_operand hcount hop true
  obtain ⟨j, a, xs, hj, hleft⟩ := exists_operand_row hreadable v hl hop false
  refine of_operatorText hop ?_ negative
  rw [cleaned_bracketedIf, cleaned_bracketedIf, ← htext]
  exact of_right hop (readText_operator v false hop l r) hleft hj hright hk
    (hbehind hop (Bool.eq_false_or_eq_true _))

/-- The first argument of a function is read as another tree. -/
theorem within_first (hreadable : HasReadableTexts α) (hop : op.isOperator = false)
    (h : Differs v l (cleaned w)) (hcount : l.occurrences ≠ 0) (hr : r.HasMagnitudes)
    (negative : Bool) :
    Differs v (.binary negative op l r) (cleaned (Expr.signedText negative false
      (op.symbol ++ Expr.bracketedIf true (w ++ ';' :: ' ' :: r.render v.char)))) := by
  obtain ⟨a, xs, a', xs', hapart⟩ := h
  obtain ⟨b, ys, hright, -⟩ := exists_row hreadable v hr
  have hgroup : (group a xs).occurrences ≠ 0 := by
    rwa [occurrences_group, hapart.row.occurrences]
  have hne : (Expr.apply2 op (group a xs) (group b ys)).skeleton ≠
      (Expr.apply2 op (group a' xs') (group b ys)).skeleton :=
    Expr.skeleton_ne_of_left (m := false) (n := false) hapart.alone hgroup
  have hdiffers := of_call2 hop hapart.row hright hne negative
  rw [hapart.text, hright.text] at hdiffers
  rw [cleaned_signedText, cleaned_call2]
  exact hdiffers

/-- The second argument of a function is read as another tree. -/
theorem within_second (hreadable : HasReadableTexts α) (hop : op.isOperator = false)
    (h : Differs v r (cleaned w)) (hcount : r.occurrences ≠ 0) (hl : l.HasMagnitudes)
    (negative : Bool) :
    Differs v (.binary negative op l r) (cleaned (Expr.signedText negative false
      (op.symbol ++ Expr.bracketedIf true (l.render v.char ++ ';' :: ' ' :: w)))) := by
  obtain ⟨b, ys, b', ys', hapart⟩ := h
  obtain ⟨a, xs, hleft, -⟩ := exists_row hreadable v hl
  have hgroup : (group b ys).occurrences ≠ 0 := by
    rwa [occurrences_group, hapart.row.occurrences]
  have hne : (Expr.apply2 op (group a xs) (group b ys)).skeleton ≠
      (Expr.apply2 op (group a xs) (group b' ys')).skeleton :=
    Expr.skeleton_ne_of_right (m := false) (n := false) hapart.alone hgroup
  have hdiffers := of_call2 hop hleft hapart.row hne negative
  rw [hapart.text, hleft.text] at hdiffers
  rw [cleaned_signedText, cleaned_call2]
  exact hdiffers

/-- The argument of a function of one argument is read as another tree. -/
theorem within_argument {s : Expr α} (h : Differs v s (cleaned w)) (negative : Bool)
    (op : UnaryOp) :
    Differs v (.unary negative op s)
      (cleaned (Expr.signedText negative false (op.symbol ++ Expr.bracketedIf true w))) := by
  obtain ⟨a, xs, a', xs', hapart⟩ := h
  have htext := readText_unary v negative op s
  rw [← hapart.row.text] at htext
  have hdiffers := of_signedText (t := .unary negative op s) rfl htext
    (.call1 op (derives_group a xs)) (.call1 op (derives_group a' xs'))
    ((occurrences_group a xs).trans hapart.row.occurrences)
    fun hsame => hapart.alone (Expr.unary.inj hsame).2.2
  rw [hapart.text] at hdiffers
  rw [cleaned_signedText, cleaned_call1]
  exact hdiffers

end Differs

/-- The text of a tree and the text without the brackets around one operand have different trees.
The induction goes down to that operand. -/
theorem differs_of_lacksBrackets (hreadable : HasReadableTexts α) (v : Letter) {t : Expr α}
    {w : List Char} (h : t.LacksBrackets v.char w) (hmagnitudes : t.HasMagnitudes)
    (hfolded : t.HasFoldedOperands) : Differs v t (cleaned w) := by
  induction h with
  | left hop hneeded =>
    exact .without_left_brackets hreadable hop hneeded hmagnitudes.1 hmagnitudes.2 hfolded.1 _
  | right hop hneeded =>
    exact .without_right_brackets hreadable hop hneeded hmagnitudes.1 hmagnitudes.2 hfolded.2.1 _
  | withinLeft hop h ih =>
    obtain ⟨hl, -, hoperands, -⟩ := hfolded
    have hcount := Expr.occurrences_ne_zero_of_folded hl h.isLeaf_eq_false
    exact .within_left hreadable hop (ih hmagnitudes.1 hoperands) hcount hmagnitudes.2 _
  | withinRight hop h ih =>
    obtain ⟨-, hr, -, hoperands⟩ := hfolded
    have hcount := Expr.occurrences_ne_zero_of_folded hr h.isLeaf_eq_false
    exact .within_right hreadable hop (ih hmagnitudes.2 hoperands) hcount hmagnitudes.1 _
  | withinFirst hop h ih =>
    obtain ⟨hl, -, hoperands, -⟩ := hfolded
    have hcount := Expr.occurrences_ne_zero_of_folded hl h.isLeaf_eq_false
    exact .within_first hreadable hop (ih hmagnitudes.1 hoperands) hcount hmagnitudes.2 _
  | withinSecond hop h ih =>
    obtain ⟨-, hr, -, hoperands⟩ := hfolded
    have hcount := Expr.occurrences_ne_zero_of_folded hr h.isLeaf_eq_false
    exact .within_second hreadable hop (ih hmagnitudes.2 hoperands) hcount hmagnitudes.1 _
  | withinArgument h ih => exact .within_argument (ih hmagnitudes hfolded) _ _

/-- What is read has folded operands. -/
theorem Derives.hasFoldedOperands {letter : Char} {c : Category} {w : List Char} {t : Expr α}
    (h : Derives letter c w t) : t.HasFoldedOperands := by
  induction h with
  | operation _ _ _ _ ihl ihr | call2 _ _ _ ihl ihr => exact ihl.apply2 _ ihr
  | minus _ ih => exact ih.withNegative _
  | literal h => cases h <;> trivial
  | operand _ ih | tighter _ _ ih | unsigned _ ih | brackets _ ih | call1 _ _ ih => exact ih

/-- No brackets of an operand can be left out. What is left of the text of a tree without them is
read, but as another tree than the whole text. Unless the tree is constant, the two do not compare
equal either. -/
theorem left_out_brackets_change_tree (v : Letter) {t : Expr Float} (hmagnitudes : t.HasMagnitudes)
    (hfolded : t.HasFoldedOperands) {w : List Char} (h : t.LacksBrackets v.char w) :
    (∃ operand : Expr Float, Expr.TakesOut (operand.render v.char) (t.render v.char) w) ∧
      ∃ u u' : Expr Float, parse v.char (t.render v.char) = .ok u ∧ parse v.char w = .ok u' ∧
        u' ≠ u ∧ (t.isConstant = false → u.equal u' = false) := by
  obtain ⟨a, xs, a', xs', hapart⟩ :=
    differs_of_lacksBrackets Double.exists_numeralOf?_abs v h hmagnitudes hfolded
  have hread := derives_group a xs
  have hread' := derives_group a' xs'
  rw [hapart.row.text] at hread
  rw [hapart.text] at hread'
  refine ⟨h.exists_pair, group a xs, group a' xs', parse_of_derives v hread,
    parse_of_derives v hread', fun hsame => hapart.alone (congrArg Expr.skeleton hsame.symm),
    fun hconstant => Bool.eq_false_iff.mpr fun hequal => hapart.alone ?_⟩
  refine (Expr.equal_iff.mp hequal).skeleton_eq hread.hasFoldedOperands hread'.hasFoldedOperands ?_
  refine Bool.eq_false_iff.mpr fun hgroup => Bool.eq_false_iff.mp hconstant ?_
  rw [Expr.isConstant_iff, occurrences_group, hapart.row.occurrences] at hgroup
  exact Expr.isConstant_iff.mpr hgroup

/-- The text `x * (x - (x - 2))` needs its inner brackets. -/
theorem left_out_brackets_change_tree_difference :
    let x : Expr Float := .var false
    let t : Expr Float := .binary false .multiplication x
      (.binary false .subtraction x (.binary false .subtraction x (.num false 2)))
    let w := "x * (x - x - 2)".toList
    t.render 'x' = "x * (x - (x - 2))".toList ∧ t.HasMagnitudes ∧ t.HasFoldedOperands ∧
      t.LacksBrackets 'x' w ∧
      (∃ operand : Expr Float, Expr.TakesOut (operand.render 'x') (t.render 'x') w) ∧
      ∃ u u' : Expr Float, parse 'x' (t.render 'x') = .ok u ∧ parse 'x' w = .ok u' ∧ u' ≠ u ∧
        (t.isConstant = false → u.equal u' = false) := by
  intro x t w
  have hrender : t.render 'x' = "x * (x - (x - 2))".toList := by decide +kernel
  have hmagnitudes : t.HasMagnitudes := ⟨trivial, trivial, trivial, 2, rfl⟩
  have hfolded : t.HasFoldedOperands :=
    ⟨rfl, rfl, trivial, rfl, rfl, trivial, rfl, rfl, trivial, trivial⟩
  have hlacks : t.LacksBrackets 'x' w := by
    have hinner : t.LacksBrackets 'x' _ := .withinRight rfl (.right rfl rfl)
    refine Eq.subst ?_ hinner
    decide +kernel
  exact ⟨hrender, hmagnitudes, hfolded, hlacks,
    left_out_brackets_change_tree ⟨'x', isLetter_of_isAlpha rfl⟩ hmagnitudes hfolded hlacks⟩

end Univariate
