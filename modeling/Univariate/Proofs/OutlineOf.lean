import Univariate.Proofs.GrammarLevels
import Univariate.Proofs.Literals
import Univariate.Proofs.OutlineParts

/-!
# Outlines of the texts of the grammar

The last production of a derivation determines the outline of its text: the operation on the topmost
level that is applied last is the one of the production, and the parts are its operands.
-/

namespace Univariate

/-- The operation that a text is split at is the loosest on its topmost level. -/
theorem splitPoint_nestAt (gs : List Glyph) :
    splitPoint (nestAt 0 gs) = loosest (topOperations [] gs) := rfl

/-- Nested characters are no fewer than the characters. -/
theorem isEmpty_nestAt {gs : List Glyph} (hgs : gs ≠ []) (depth : Nat) :
    (nestAt depth gs).isEmpty = false := by
  refine Bool.eq_false_iff.mpr fun hempty => hgs ?_
  have hlength := length_nestAt depth gs
  rw [List.isEmpty_iff.mp hempty] at hlength
  exact List.length_eq_zero_iff.mp hlength.symm

/-- An operator behind a balanced text lies at depth zero, and so does what follows it. -/
theorem nestAt_operator {ls rs : List Glyph} {g : Glyph} {op : BinaryOp}
    (hls : Balanced (ls.map Glyph.char)) (hg : BinaryOp.ofOperator? g.char = some op) :
    nestAt 0 (ls ++ g :: rs) = nestAt 0 ls ++ ⟨g, 0⟩ :: nestAt 0 rs := by
  obtain ⟨hopen, hclose⟩ := not_bracket_of_ofOperator? hg
  rw [hls.nestAt_append, nestAt_other hopen hclose]

/-- The outline at the operator that is applied last. -/
theorem outline_at {s : Segment} {ls rs : List Glyph} {g : Glyph} {op : BinaryOp}
    (hls : Balanced (ls.map Glyph.char)) (hg : BinaryOp.ofOperator? g.char = some op)
    (hends : g.char = '-' → endsWithOperator (ls.map Glyph.char).reverse = false)
    (hleft : ∀ x ∈ topOperations [] ls, x.level ≤ op.precedence.level)
    (hright : ∀ y ∈ topOperations (g.char :: (ls.map Glyph.char).reverse) rs,
      y.level < op.precedence.level) :
    outline s (nestAt 0 (ls ++ g :: rs)) =
      outlineOperator s op (nestAt 0 ls) g.position (nestAt 0 rs) := by
  have htop : topOperations [] (ls ++ g :: rs) = topOperations [] ls ++
      ⟨.binary op, ls.length⟩ :: topOperations (g.char :: (ls.map Glyph.char).reverse) rs := by
    rw [topOperations_append hls, List.append_nil, topOperations_operator hg hends]
    simp
  have hsplit : splitPoint (nestAt 0 (ls ++ g :: rs)) = some ⟨.binary op, ls.length⟩ := by
    rw [splitPoint_nestAt, htop]
    exact loosest_append_cons hleft hright
  have hop : (Operation.binary op).operator? = some op := by
    rw [Operation.operator?, if_pos (Operation.ofOperator?_eq_some_iff.mp hg).1]
  have hlength : ls.length = (nestAt 0 ls).length := (length_nestAt 0 ls).symm
  rw [outline, hsplit]
  simp only [nestAt_operator hls hg, hlength, List.drop_left, List.take_left, hop]

/-- An operator divides a text if nothing before it binds looser and everything after it binds
tighter. -/
theorem outline_operator {s : Segment} {ls rs : List Glyph} {g : Glyph} {op : BinaryOp}
    (hls : Balanced (ls.map Glyph.char)) (hg : BinaryOp.ofOperator? g.char = some op)
    (hends : endsWithOperator (ls.map Glyph.char).reverse = false)
    (hlne : ls ≠ []) (hrne : rs ≠ [])
    (hleft : ∀ x ∈ topOperations [] ls, x.level ≤ op.precedence.level)
    (hright : ∀ y ∈ topOperations (g.char :: (ls.map Glyph.char).reverse) rs,
      y.level < op.precedence.level) :
    outline s (nestAt 0 (ls ++ g :: rs)) =
      .ok (.operator op (segmentOf s.start g.position (nestAt 0 ls))
        (segmentOf (g.position + 1) s.stop (nestAt 0 rs))) := by
  rw [outline_at hls hg (fun _ => hends) hleft hright, outlineOperator]
  simp [isEmpty_nestAt hlne, isEmpty_nestAt hrne]

/-- A minus at the start negates what follows if that has no sums and differences. -/
theorem outline_negation {s : Segment} {rs : List Glyph} {g : Glyph} (hg : g.char = '-')
    (hrne : rs ≠ []) (hright : ∀ y ∈ topOperations ['-'] rs, y.level < 3) :
    outline s (nestAt 0 (g :: rs)) =
      .ok (.negation (segmentOf (g.position + 1) s.stop (nestAt 0 rs))) := by
  have hop : BinaryOp.ofOperator? g.char = some .subtraction := by rw [hg]; rfl
  have hright' : ∀ y ∈ topOperations (g.char :: (([] : List Glyph).map Glyph.char).reverse) rs,
      y.level < BinaryOp.subtraction.precedence.level := by
    rw [hg]
    exact hright
  have hnil : Balanced (([] : List Glyph).map Glyph.char) := .nil
  have houtline := outline_at (s := s) hnil hop (fun _ => rfl) (by simp) hright'
  rw [List.nil_append] at houtline
  rw [houtline, outlineOperator]
  simp [isEmpty_nestAt hrne]

/-- A text without an operation on its topmost level is an operand. -/
theorem outline_operand {s : Segment} {gs : List Glyph} (htop : topOperations [] gs = []) :
    outline s (nestAt 0 gs) = .ok .operand := by
  rw [outline, splitPoint_nestAt, htop]
  rfl

/-- No operation with a keyword is an operator. -/
theorem operator?_of_isKeyword {op : Operation} (hop : op.isKeyword = true) :
    op.operator? = none := by
  rcases op with op | op
  · rfl
  · cases op with
    | logarithm | root => rfl
    | _ => cases hop

/-- A keyword before a bracketed group divides the text into its arguments. -/
theorem outline_keyword {s : Segment} {ks inner : List Glyph} {first last : Glyph} {op : Operation}
    (hop : op.isKeyword = true) (hks : ks.map Glyph.char = op.symbol) (hfirst : first.char = '(')
    (hlast : last.char = ')') (hinner : Balanced (inner.map Glyph.char)) :
    ∃ position, outline s (nestAt 0 (ks ++ (first :: inner ++ [last]))) =
      outlineArguments op position ⟨first, 1⟩ (nestAt 1 inner) last.position := by
  have hsymbol := isPlain_of_mem_symbol hop
  have hplain : ∀ g ∈ ks, IsPlain g.char := isPlain_of_map_eq hsymbol hks
  have hbalanced : Balanced (ks.map Glyph.char) := hks ▸ .of_plain hsymbol
  have hsplit : splitPoint (nestAt 0 (ks ++ (first :: inner ++ [last]))) = some ⟨op, 0⟩ := by
    rw [splitPoint_nestAt, topOperations_append hbalanced,
      topOperations_brackets hfirst hlast hinner, List.append_nil, topOperations_plain hplain, hks,
      keywordsAfter_symbol hop]
    rfl
  have hgroup : nestAt 0 (first :: inner ++ [last]) =
      ⟨first, 1⟩ :: (nestAt 1 inner ++ [⟨last, 1⟩]) := by
    rw [List.cons_append, nestAt_opening hfirst, hinner.nestAt_append, nestAt_closing hlast]
    rfl
  have hnest : nestAt 0 (ks ++ (first :: inner ++ [last])) =
      nestAt 0 ks ++ ⟨first, 1⟩ :: (nestAt 1 inner ++ [⟨last, 1⟩]) := by
    rw [hbalanced.nestAt_append, hgroup]
  have hcut : cutAt (fun g => g.char = ')' && g.depth = 1) (nestAt 1 inner ++ [⟨last, 1⟩]) =
      some (nestAt 1 inner, ⟨last, 1⟩, []) := by
    refine cutAt_append_cons (fun g hg => ?_) (by simp [hlast])
    have hdeep := lt_depth_of_closing hinner 1 g hg
    by_cases hclose : g.char = ')'
    · have hne : g.depth ≠ 1 := Nat.ne_of_gt (hdeep hclose)
      simp [hne]
    · simp [hclose]
  have hdrop : (nestAt 0 (ks ++ (first :: inner ++ [last]))).drop op.symbol.length =
      ⟨first, 1⟩ :: (nestAt 1 inner ++ [⟨last, 1⟩]) := by
    have hlength : op.symbol.length = (nestAt 0 ks).length := by
      rw [length_nestAt, ← hks, List.length_map]
    rw [hnest, hlength, List.drop_left]
  obtain ⟨symbol, after, hsymbol⟩ :
      ∃ symbol after, nestAt 0 (ks ++ (first :: inner ++ [last])) = symbol :: after :=
    List.exists_cons_of_ne_nil (by rw [hnest]; simp)
  refine ⟨symbol.position, ?_⟩
  rw [outline, hsplit]
  simp only [hdrop, List.drop_zero]
  simp only [hsymbol, operator?_of_isKeyword hop, if_true, outlineKeyword, hfirst, hcut]

/-- The separators of a text lie inside its brackets. -/
def EnclosesSeparators (w : List Char) : Prop :=
  ∀ k gs, gs.map Glyph.char = w → ∀ g ∈ nestAt k gs, g.char = ';' → k < g.depth

/-- Two balanced texts after each other have their separators inside brackets if each has. -/
theorem EnclosesSeparators.append {v w : List Char} (hbalanced : Balanced v)
    (hv : EnclosesSeparators v) (hw : EnclosesSeparators w) : EnclosesSeparators (v ++ w) := by
  intro k gs hgs
  obtain ⟨ls, rs, rfl, hls, hrs⟩ := List.map_eq_append_iff.mp hgs
  rw [(hls ▸ hbalanced : Balanced (ls.map Glyph.char)).nestAt_append, List.forall_mem_append]
  exact ⟨hv k ls hls, hw k rs hrs⟩

/-- A text without separators has none outside of brackets. -/
theorem EnclosesSeparators.of_forall {w : List Char} (hw : ∀ c ∈ w, c ≠ ';') :
    EnclosesSeparators w := by
  intro k gs hgs g hg hchar
  have hmem : g.char ∈ w := by
    rw [← hgs, ← char_nestAt k gs]
    exact List.mem_map_of_mem hg
  exact absurd hchar (hw _ hmem)

/-- A balanced text in brackets has its separators inside them. -/
theorem EnclosesSeparators.brackets {w : List Char} (hw : Balanced w) :
    EnclosesSeparators ('(' :: w ++ [')']) := by
  intro k gs hgs g hg _
  obtain ⟨first, inner, last, rfl, hfirst, rfl, hlast⟩ := exists_of_brackets hgs
  exact lt_depth_of_brackets hfirst hlast hw k g hg

variable {α : Type} [Scalar α] [HasNumerals α] {letter : Char}

/-- The separators of a text of the grammar belong to functions in it. -/
theorem Derives.enclosesSeparators (hletter : isLetter letter = true) {c : Category}
    {w : List Char} {t : Expr α} (h : Derives letter c w t) : EnclosesSeparators w := by
  have hcall {op : Operation} {v : List Char} (hop : op.isKeyword = true) (hv : Balanced v) :
      EnclosesSeparators (op.symbol ++ ('(' :: v ++ [')'])) := by
    have hplain := isPlain_of_mem_symbol hop
    exact .append (.of_plain hplain) (.of_forall fun c hc => (hplain c hc).not_separator)
      (.brackets hv)
  induction h with
  | operation hop hp hl hr ihl ihr =>
    obtain ⟨c, hsymbol, hc⟩ := ofOperator?_symbol hop
    have hne : c ≠ ';' := by
      rintro rfl
      cases hc
    obtain ⟨hopen, hclose⟩ := not_bracket_of_ofOperator? hc
    rw [hsymbol, List.append_assoc]
    refine .append (hl.balanced hletter) ihl (.append (.singleton hopen hclose) ?_ ihr)
    exact .of_forall (List.forall_mem_singleton.mpr hne)
  | operand ht ih => exact ih
  | tighter hp ht ih => exact ih
  | minus ht ih =>
    have hminus : EnclosesSeparators ['-'] := .of_forall (List.forall_mem_singleton.mpr (by decide))
    exact .append (.singleton (by decide) (by decide)) hminus ih
  | unsigned ht ih => exact ih
  | literal ht => exact .of_forall fun c hc => (ht.isPlain hletter c hc).not_separator
  | brackets ht ih => exact .brackets (ht.balanced hletter)
  | call1 op ht ih => exact hcall (isKeyword_unary op) (ht.balanced hletter)
  | call2 hop hl hr ihl ihr =>
    exact hcall (isKeyword_of_not_isOperator hop)
      ((hl.balanced hletter).separated (hr.balanced hletter))

/-- The outline of a function of one argument has what stands in its brackets as its part. -/
theorem outlineArguments_call1 {op : UnaryOp} {position closing : Nat} {opening : NestedGlyph}
    {inner : List Glyph} (hne : inner ≠ []) :
    outlineArguments (.unary op) position opening (nestAt 1 inner) closing =
      .ok (.call1 op (segmentOf (opening.position + 1) closing (nestAt 1 inner))) := by
  simp [outlineArguments, isEmpty_nestAt hne]

/-- The separator of two arguments is the first one that no other brackets enclose. -/
theorem outlineArguments_call2 {op : BinaryOp} {position closing : Nat} {opening : NestedGlyph}
    {ls rs : List Glyph} {separator : Glyph} (hdepth : opening.depth = 1)
    (hseparator : separator.char = ';') (hls : Balanced (ls.map Glyph.char)) (hlne : ls ≠ [])
    (hrne : rs ≠ []) (hdeep : ∀ g ∈ nestAt 1 ls, g.char = ';' → 1 < g.depth) :
    outlineArguments (.binary op) position opening (nestAt 1 (ls ++ separator :: rs)) closing =
      .ok (.call2 op (segmentOf (opening.position + 1) separator.position (nestAt 1 ls))
        (segmentOf (separator.position + 1) closing (nestAt 1 rs))) := by
  have hnest : nestAt 1 (ls ++ separator :: rs) =
      nestAt 1 ls ++ ⟨separator, 1⟩ :: nestAt 1 rs := by
    rw [hls.nestAt_append,
      nestAt_other (by rw [hseparator]; decide) (by rw [hseparator]; decide)]
  have hcut : cutAt (fun g => g.char = ';' && g.depth = opening.depth)
      (nestAt 1 ls ++ ⟨separator, 1⟩ :: nestAt 1 rs) =
      some (nestAt 1 ls, ⟨separator, 1⟩, nestAt 1 rs) := by
    rw [hdepth]
    refine cutAt_append_cons (fun g hg => ?_) (by simp [hseparator])
    by_cases hchar : g.char = ';'
    · have hne : g.depth ≠ 1 := Nat.ne_of_gt (hdeep g hg hchar)
      simp [hne]
    · simp [hchar]
  have hsome : (nestAt 1 ls ++ (⟨separator, 1⟩ : NestedGlyph) :: nestAt 1 rs).isEmpty = false := by
    simp
  simp [outlineArguments, hnest, hsome, hcut, isEmpty_nestAt hlne, isEmpty_nestAt hrne]

end Univariate
