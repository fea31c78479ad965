import Univariate.Proofs.TopLevel
import Univariate.Source.Outline

/-!
# The parts of an outline

An outline says how a text is put together from the texts of its parts. Conversely, the operation
that is applied last and the brackets of a keyword determine the outline.
-/

namespace Univariate

/-- The text of a segment. -/
def Segment.text (s : Segment) : List Char := s.glyphs.map Glyph.char

/-- The text of nested characters. -/
def nestedText (ns : List NestedGlyph) : List Char := ns.map fun g => g.char

/-- No characters have the empty text. -/
@[simp] theorem nestedText_nil : nestedText [] = [] := rfl

/-- The text of nested characters starts with the first of them. -/
@[simp] theorem nestedText_cons (g : NestedGlyph) (ns : List NestedGlyph) :
    nestedText (g :: ns) = g.char :: nestedText ns := rfl

/-- The text of nested characters after each other is that of the first and that of the second. -/
@[simp] theorem nestedText_append (ns ms : List NestedGlyph) :
    nestedText (ns ++ ms) = nestedText ns ++ nestedText ms := List.map_append

/-- Reading nested characters puts their text in front of the reversed text. -/
theorem readAfter_eq (before : List Char) (ns : List NestedGlyph) :
    readAfter before ns = (nestedText ns).reverse ++ before := rfl

/-- The segment of nested characters has their text. -/
@[simp] theorem text_segmentOf (start stop : Nat) (ns : List NestedGlyph) :
    (segmentOf start stop ns).text = nestedText ns := by
  rw [Segment.text, segmentOf, List.map_map]
  rfl

/-- Nested characters have the text of the characters. -/
theorem nestedText_nestAt (depth : Nat) (gs : List Glyph) :
    nestedText (nestAt depth gs) = gs.map Glyph.char :=
  char_nestAt depth gs

/-- The segment of the nested characters of a text has that text. -/
theorem text_segmentOf_nestAt {gs : List Glyph} {w : List Char} (hgs : gs.map Glyph.char = w)
    (start stop depth : Nat) : (segmentOf start stop (nestAt depth gs)).text = w := by
  rw [text_segmentOf, nestedText_nestAt, hgs]

/-- Stripping removes a bracket pair around a balanced text. -/
theorem exists_of_strip? {s t : Segment} (h : s.strip? = some t) :
    ∃ first last, s.glyphs = first :: t.glyphs ++ [last] ∧ t.start = first.position + 1 ∧
      t.stop = last.position ∧ first.char = '(' ∧ last.char = ')' ∧ Balanced t.text := by
  unfold Segment.strip? at h
  split at h
  · cases h
  · next first rest hglyphs =>
    split at h
    · cases h
    · next last hlast =>
      dsimp only at h
      split at h
      · next hbrackets =>
        obtain ⟨hfirst, hclose, hbalanced⟩ := hbrackets
        cases h
        refine ⟨first, last, ?_, rfl, rfl, hfirst, hclose, hbalanced⟩
        obtain ⟨inner, rfl⟩ := List.getLast?_eq_some_iff.mp hlast
        rw [hglyphs, List.dropLast_concat]
        rfl
      · cases h

/-- Stripping brackets takes off the first and the last character, which enclose a balanced text. -/
theorem glyphs_of_strip? {s t : Segment} (h : s.strip? = some t) :
    ∃ first last, s.glyphs = first :: t.glyphs ++ [last] ∧ first.char = '(' ∧ last.char = ')' ∧
      Balanced t.text := by
  obtain ⟨first, last, hglyphs, -, -, hbrackets⟩ := exists_of_strip? h
  exact ⟨first, last, hglyphs, hbrackets⟩

/-- The text of a segment is the stripped text in brackets. -/
theorem text_of_strip? {s t : Segment} (h : s.strip? = some t) :
    s.text = '(' :: t.text ++ [')'] := by
  obtain ⟨first, last, hglyphs, hfirst, hlast, -⟩ := glyphs_of_strip? h
  simp [Segment.text, hglyphs, hfirst, hlast]

/-- A bracket pair around a balanced text is stripped. -/
theorem exists_strip? {s : Segment} {w : List Char} (hw : Balanced w)
    (htext : s.text = '(' :: w ++ [')']) : ∃ t, s.strip? = some t ∧ t.text = w := by
  obtain ⟨first, inner, last, hglyphs, hfirst, hinner, hlast⟩ := exists_of_brackets htext
  refine ⟨⟨first.position + 1, last.position, inner⟩, ?_, hinner⟩
  have hbalanced : balancedFrom 0 (inner.map Glyph.char) = true := hinner ▸ hw
  rw [Segment.strip?, hglyphs]
  simp [hfirst, hlast, hbalanced]

/-- A segment without its brackets is stripped to the same segment. -/
theorem strip_of_strip? {s t : Segment} (h : s.strip? = some t) : s.strip = t.strip := by
  rw [Segment.strip]
  split
  · next inner hinner => rw [Option.some.inj (hinner.symm.trans h)]
  · next hnone => rw [h] at hnone; cases hnone

/-- A segment without brackets around it is stripped to itself. -/
theorem strip_of_none {s : Segment} (h : s.strip? = none) : s.strip = s := by
  rw [Segment.strip]
  split
  · next inner hinner => rw [h] at hinner; cases hinner
  · rfl

/-- Stripping leaves no brackets around a segment. -/
theorem strip?_strip (s : Segment) : s.strip.strip? = none := by
  fun_induction Segment.strip s with
  | case1 s inner hinner ih => exact ih
  | case2 s hnone => exact hnone

/-- A segment with an operation on its topmost level has no brackets around it. -/
theorem strip_of_topOperations {s : Segment} (h : topOperations [] s.glyphs ≠ []) :
    s.strip = s := by
  refine strip_of_none (Option.eq_none_iff_forall_ne_some.mpr fun t ht => h ?_)
  obtain ⟨first, last, hglyphs, hfirst, hlast, hbalanced⟩ := glyphs_of_strip? ht
  rw [hglyphs]
  exact topOperations_brackets hfirst hlast hbalanced []

/-- A segment that starts with anything but a bracket has no brackets around it. -/
theorem strip_of_plain {s : Segment} {v w : List Char} (htext : s.text = v ++ w) (hne : v ≠ [])
    (hv : ∀ c ∈ v, IsPlain c) : s.strip = s := by
  refine strip_of_none (Option.eq_none_iff_forall_ne_some.mpr fun t ht => ?_)
  obtain ⟨c, v, rfl⟩ := List.exists_cons_of_ne_nil hne
  rw [text_of_strip? ht, List.cons_append, List.cons_append] at htext
  exact (hv c List.mem_cons_self).not_opening (List.cons.inj htext).1.symm

/-- What an outline says about the nested characters that it was made from: how their text is put
together from the texts of the parts, and for an operator which operations are left on its sides. -/
def Outline.Describes (ns : List NestedGlyph) : Outline → Prop
  | .operand => True
  | .negation inner => ∃ g rs, ns = g :: rs ∧ g.depth = 0 ∧ g.char = '-' ∧
      inner.text = nestedText rs ∧ ∀ s ∈ operationsAfter ['-'] rs, s.level < 3
  | .dangling _ _ => True
  | .operator op left right => ∃ ls g rs, ns = ls ++ g :: rs ∧ g.depth = 0 ∧
      BinaryOp.ofOperator? g.char = some op ∧ left.text = nestedText ls ∧
      right.text = nestedText rs ∧ (∀ s ∈ operationsAfter [] ls, s.level ≤ op.precedence.level) ∧
      ∀ s ∈ operationsAfter (g.char :: readAfter [] ls) rs, s.level < op.precedence.level
  | .call1 op argument => nestedText ns = op.symbol ++ ('(' :: argument.text ++ [')'])
  | .call2 op first second => op.isOperator = false ∧
      nestedText ns = op.symbol ++ ('(' :: (first.text ++ ';' :: second.text) ++ [')'])

/-- A text is cut at an element with the property. -/
theorem cutAt_property {β : Type} {p : β → Bool} {as l r : List β} {m : β}
    (h : cutAt p as = some (l, m, r)) : p m = true := by
  induction as generalizing l with
  | nil => cases h
  | cons a as ih =>
    unfold cutAt at h
    split at h
    · next ha =>
      cases h
      exact ha
    · obtain ⟨⟨l', m', r'⟩, hcut, heq⟩ := Option.map_eq_some_iff.mp h
      cases heq
      exact ih hcut

/-- A list is divided at an element with a property if no element before it has the property. -/
theorem cutAt_append_cons {β : Type} {p : β → Bool} {l r : List β} {m : β}
    (hl : ∀ a ∈ l, p a = false) (hm : p m = true) : cutAt p (l ++ m :: r) = some (l, m, r) := by
  induction l with
  | nil => rw [List.nil_append, cutAt, if_pos hm]
  | cons a l ih =>
    obtain ⟨ha, hl⟩ := List.forall_mem_cons.mp hl
    rw [List.cons_append, cutAt, ha, ih hl]
    rfl

/-- The outline of the arguments of a function describes the function with them. -/
theorem describes_of_outlineArguments {op : Operation} {position closing : Nat}
    {opening : NestedGlyph} {arguments ns : List NestedGlyph} {o : Outline}
    (hkeyword : op.operator? = none)
    (hns : nestedText ns = op.symbol ++ ('(' :: nestedText arguments ++ [')']))
    (h : outlineArguments op position opening arguments closing = .ok o) : o.Describes ns := by
  unfold outlineArguments at h
  dsimp only at h
  split at h
  · cases h
  · split at h
    · cases h
      simpa [Outline.Describes, Operation.symbol] using hns
    · next op =>
      have hop : op.isOperator = false := by
        cases hop : op.isOperator with
        | false => rfl
        | true => simp [Operation.operator?, hop] at hkeyword
      split at h
      · cases h
      · next first separator second hcut =>
        split at h
        · cases h
        · cases h
          have hproperty := cutAt_property hcut
          rw [Bool.and_eq_true, decide_eq_true_eq, decide_eq_true_eq] at hproperty
          rw [append_of_cutAt hcut, nestedText_append, nestedText_cons, hproperty.1] at hns
          exact ⟨hop, by simpa [Operation.symbol] using hns⟩

/-- The outline of a function describes its symbol with the text behind it. -/
theorem describes_of_outlineKeyword {op : Operation} {position : Nat}
    {gs ns : List NestedGlyph} {o : Outline} (hkeyword : op.operator? = none)
    (hns : nestedText ns = op.symbol ++ nestedText gs)
    (h : outlineKeyword op position gs = .ok o) : o.Describes ns := by
  unfold outlineKeyword at h
  split at h
  · cases h
  · next opening rest =>
    split at h
    · next hopening =>
      split at h
      · cases h
      · next arguments closing hcut =>
        have hproperty := cutAt_property hcut
        rw [Bool.and_eq_true, decide_eq_true_eq, decide_eq_true_eq] at hproperty
        refine describes_of_outlineArguments hkeyword ?_ h
        rw [hns, nestedText_cons, append_of_cutAt hcut, hopening]
        simp [hproperty.1]
      · cases h
    · cases h

/-- The symbol of an operation that ends a text is where the text ends. -/
theorem symbol_of_operationEnding? {reversed : List Char} {op : Operation}
    (h : operationEnding? reversed = some op) :
    ∃ rest, reversed = op.symbol.reverse ++ rest ∧
      ∀ b, op.operator? = some b → ∃ c, reversed = c :: rest ∧ BinaryOp.ofOperator? c = some b := by
  cases reversed with
  | nil => cases h
  | cons c before =>
    rw [operationEnding?] at h
    split at h
    · next b hb =>
      split at h
      · cases h
      · cases h
        refine ⟨before, by rw [Operation.symbol, symbol_of_ofOperator? hb]; rfl, ?_⟩
        intro b' hb'
        have hop : b.isOperator = true := (Operation.ofOperator?_eq_some_iff.mp hb).1
        rw [Operation.operator?, if_pos hop] at hb'
        cases hb'
        exact ⟨c, rfl, hb⟩
    · obtain ⟨hkeyword, rest, hrest⟩ := exists_of_keywordEnding? h
      refine ⟨rest, hrest.symm, ?_⟩
      intro b hb
      rcases op with op | op
      · cases hb
      · cases op with
        | logarithm | root => cases hb
        | _ => cases hkeyword

/-- The outline of an operator describes the text that the operator divides. -/
theorem describes_of_outlineOperator {s : Segment} {op : BinaryOp} {ls rs : List NestedGlyph}
    {g : NestedGlyph} {o : Outline} (hop : BinaryOp.ofOperator? g.char = some op)
    (hdepth : g.depth = 0) (hleft : ∀ x ∈ operationsAfter [] ls, x.level ≤ op.precedence.level)
    (hright : ∀ y ∈ operationsAfter (g.char :: readAfter [] ls) rs, y.level < op.precedence.level)
    (h : outlineOperator s op ls g.position rs = .ok o) : o.Describes (ls ++ g :: rs) := by
  unfold outlineOperator at h
  dsimp only at h
  split at h
  · cases h
  · split at h
    · next hempty =>
      have hls : ls = [] := List.isEmpty_iff.mp hempty
      subst hls
      split at h
      · next hminus =>
        cases h
        subst hminus
        have hg : g.char = '-' := by
          have hsymbol := symbol_of_ofOperator? hop
          simpa [BinaryOp.symbol] using hsymbol.symm
        rw [hg] at hright
        exact ⟨g, rs, rfl, hdepth, hg, by simp, hright⟩
      · cases h
        trivial
    · cases h
      exact ⟨ls, g, rs, rfl, hdepth, hop, by simp, by simp, hleft, hright⟩

/-- An operation that is an operator is that binary operation. -/
theorem eq_binary_of_operator? {op : Operation} {b : BinaryOp} (h : op.operator? = some b) :
    op = .binary b := by
  rcases op with op | op
  · cases h
  · rw [Operation.operator?] at h
    split at h
    · cases h
      rfl
    · cases h

/-- The ways in which the outline of a text comes about: there is no operation at depth zero, an
operator divides the text, a keyword starts it, or a keyword stands behind something else. -/
inductive Division (s : Segment) (ns : List NestedGlyph) (result : Except ParseError Outline) : Prop
  | operand (h : result = .ok .operand)
  | operator {ls rs : List NestedGlyph} {g : NestedGlyph} {op : BinaryOp} (hns : ns = ls ++ g :: rs)
      (hdepth : g.depth = 0) (hop : BinaryOp.ofOperator? g.char = some op)
      (hleft : ∀ x ∈ operationsAfter [] ls, x.level ≤ op.precedence.level)
      (hright : ∀ y ∈ operationsAfter (g.char :: readAfter [] ls) rs, y.level < op.precedence.level)
      (h : result = outlineOperator s op ls g.position rs)
  | keyword {k : NestedGlyph} {ks gs : List NestedGlyph} {op : Operation}
      (hns : ns = k :: ks ++ gs) (hop : op.operator? = none)
      (hsymbol : nestedText (k :: ks) = op.symbol) (h : result = outlineKeyword op k.position gs)
  | misplaced {ls rs : List NestedGlyph} {g : NestedGlyph} (hns : ns = ls ++ g :: rs)
      (h : result = .error (.atPosition (.unexpectedCharacter g.char) g.position))

/-- The outline of a text comes about in one of these ways. -/
theorem division_outline (s : Segment) (ns : List NestedGlyph) : Division s ns (outline s ns) := by
  unfold outline
  split
  · exact .operand rfl
  · next split hsplit =>
    obtain ⟨xs, ys, hops, hxs, hys⟩ := exists_of_loosest hsplit
    obtain ⟨ls, g, rs, rfl, hdepth, rfl, rfl, hending, hstart⟩ := exists_of_operationsAfter hops
    obtain ⟨rest, hrest, hoperator⟩ := symbol_of_operationEnding? hending
    split
    · exact .operand rfl
    · next symbol after hdrop =>
      split
      · next op hop =>
        obtain ⟨c, hc, hop'⟩ := hoperator op hop
        obtain ⟨rfl, rfl⟩ := List.cons.inj hc
        have hbinary := eq_binary_of_operator? hop
        have hlength : split.start = ls.length := by
          rw [hstart, length_readAfter, hbinary, Operation.symbol, symbol_of_ofOperator? hop']
          simp
        have hlevel : split.level = op.precedence.level := by rw [Split.level, hbinary]; rfl
        rw [hlength, List.drop_left] at hdrop
        obtain ⟨rfl, rfl⟩ := List.cons.inj hdrop
        rw [hlevel] at hxs hys
        rw [hlength, List.take_left]
        exact .operator rfl hdepth hop' hxs hys rfl
      · next hkeyword =>
        split
        · next hzero =>
          -- nothing stands before the keyword, so the text up to `g` is its symbol
          have hlength := congrArg List.length hrest
          rw [List.length_cons, List.length_append, List.length_reverse] at hlength
          have hnil : rest = [] := List.length_eq_zero_iff.mp (by omega)
          rw [hnil, List.append_nil] at hrest
          have hsymbol : nestedText (ls ++ [g]) = split.op.symbol := by
            rw [← List.reverse_reverse split.op.symbol, ← hrest, readAfter_eq]
            simp
          obtain ⟨k, ks, hks⟩ : ∃ k ks, ls ++ [g] = k :: ks :=
            List.exists_cons_of_ne_nil (by simp)
          have hns : ls ++ g :: rs = k :: ks ++ rs := by rw [← hks]; simp
          rw [hks] at hsymbol
          rw [hzero, List.drop_zero, hns] at hdrop
          obtain ⟨rfl, -⟩ := List.cons.inj hdrop
          refine .keyword hns hkeyword hsymbol ?_
          rw [hns, ← hsymbol, nestedText, List.length_map, List.drop_left]
        · have hns : ls ++ g :: rs = (ls ++ g :: rs).take split.start ++ symbol :: after := by
            rw [← hdrop, List.take_append_drop]
          exact .misplaced hns rfl

/-- An outline describes the text that it was made from. -/
theorem describes_of_outline {s : Segment} {ns : List NestedGlyph} {o : Outline}
    (h : outline s ns = .ok o) : o.Describes ns := by
  cases division_outline s ns with
  | operand hresult =>
    cases h.symm.trans hresult
    trivial
  | operator hns hdepth hop hleft hright hresult =>
    rw [hns]
    exact describes_of_outlineOperator hop hdepth hleft hright (hresult.symm.trans h)
  | keyword hns hop hsymbol hresult =>
    refine describes_of_outlineKeyword hop ?_ (hresult.symm.trans h)
    rw [hns, nestedText_append, hsymbol]
  | misplaced hns hresult => cases h.symm.trans hresult

end Univariate
